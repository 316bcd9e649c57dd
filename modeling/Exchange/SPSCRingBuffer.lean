import Exchange.Lib.Counter
import Exchange.Lib.Transducer
import Mathlib.Data.List.Basic
import Mathlib.Logic.Function.Basic

/-!
# The ring buffer

`spsc_ring_buffer.hpp`.  One thread pushes and one pops.  Each call loads its own index,
loads the other's, accesses a slot and stores its own index, and between any two of these
steps the other thread may take any number of its own.  A step is atomic, and a thread
takes its steps in the order of the program.

The indices are 64-bit counters that wrap, and the capacity is a power of two, `2 ^ k`
with `k < 64`.  An item that is popped is moved out of its slot, which is left with a
value of which nothing is known.

## Main definitions

* `SPSCRingBuffer` — the shared memory.
* `Producer`, `Consumer` — where the threads are in `try_push` and `try_pop`.
* `Threads`, `Threads.step`, `Threads.run` — the threads over the buffer, and their runs.
* `Threads.Inv` — the invariant of all states between steps.
* `BoundedQueue` — what the buffer is for.

## Main results

* `Threads.Inv.step`, `Threads.Inv.run` — steps and runs keep the invariant.
* `Threads.Inv.linearized` — each step of a run either does nothing to the queue or
  carries out one call of it, with the result that the call returns.
* `spsc_fifo` — the buffer is a bounded queue, first in, first out.
-/

namespace Exchange

/-- `size_t`. -/
abbrev SizeT := BitVec 64

/-- `Capacity`. -/
def capacity (k : Fin 64) : SizeT := BitVec.ofNat 64 (2 ^ k.val)

theorem mask_lt (k : Fin 64) (index : SizeT) :
    (index &&& (capacity k - 1)).toNat < 2 ^ k.val := by
  rw [capacity, Counter.toNat_mask k.isLt]
  exact Nat.mod_lt _ (Nat.two_pow_pos k)

/-- The slot of an index, `index & (Capacity - 1)`. -/
def slot (k : Fin 64) (index : SizeT) : Fin (2 ^ k.val) :=
  ⟨(index &&& (capacity k - 1)).toNat, mask_lt k index⟩

/-- The shared memory.  `buffer_` is an array of `Capacity` items. -/
structure SPSCRingBuffer (α : Type) (k : Fin 64) where
  buffer : Fin (2 ^ k.val) → α
  head : SizeT
  tail : SizeT

/-- Where the producer is in `try_push`. -/
inductive Producer (α : Type)
  | idle
  /-- `head_` has been loaded. -/
  | loaded (item : α) (head : SizeT)
  /-- `tail_` has been loaded, and the buffer was not full. -/
  | passed (item : α) (head : SizeT)
  /-- The slot has been written. -/
  | written (item : α) (head : SizeT)

/-- Where the consumer is in `try_pop`. -/
inductive Consumer (α : Type)
  | idle
  /-- `tail_` has been loaded. -/
  | loaded (tail : SizeT)
  /-- `head_` has been loaded, and the buffer was not empty. -/
  | passed (tail : SizeT)
  /-- The item has been moved out of its slot. -/
  | taken (tail : SizeT) (item : α)

/-- The steps of the two threads. -/
inductive RingStep (α : Type)
  | pushLoadHead (item : α)
  | pushLoadTail
  | pushWrite
  | pushStore
  | popLoadTail
  | popLoadHead
  /-- The slot is left with `residue`. -/
  | popMove (residue : α)
  | popStore

/-- What a call returns. -/
inductive Reply (α : Type)
  | push (item : α) (ok : Bool)
  | pop (result : Option α)

/-- The threads over the buffer.  `pushed` and `popped` are ghosts: the items of the
calls that have returned `true`, and an item. -/
structure Threads (α : Type) (k : Fin 64) where
  ring : SPSCRingBuffer α k
  producer : Producer α
  consumer : Consumer α
  pushed : List α
  popped : List α

namespace Threads

variable {α : Type} {k : Fin 64}

/-- A new buffer, with whatever its slots hold. -/
def start (buffer : Fin (2 ^ k.val) → α) : Threads α k := ⟨⟨buffer, 0, 0⟩, .idle, .idle, [], []⟩

/-- A step, if the thread is there in its program, and what its call returns with it. -/
def step (s : Threads α k) : RingStep α → Option (Threads α k × Option (Reply α))
  | .pushLoadHead item =>
      match s.producer with
      | .idle => some ({ s with producer := .loaded item s.ring.head }, none)
      | _ => none
  | .pushLoadTail =>
      match s.producer with
      | .loaded item head =>
          if head - s.ring.tail = capacity k then
            some ({ s with producer := .idle }, some (.push item false))
          else some ({ s with producer := .passed item head }, none)
      | _ => none
  | .pushWrite =>
      match s.producer with
      | .passed item head =>
          some ({ s with
            ring := { s.ring with buffer := Function.update s.ring.buffer (slot k head) item }
            producer := .written item head }, none)
      | _ => none
  | .pushStore =>
      match s.producer with
      | .written item head =>
          some ({ s with
            ring := { s.ring with head := head + 1 }
            producer := .idle
            pushed := s.pushed ++ [item] }, some (.push item true))
      | _ => none
  | .popLoadTail =>
      match s.consumer with
      | .idle => some ({ s with consumer := .loaded s.ring.tail }, none)
      | _ => none
  | .popLoadHead =>
      match s.consumer with
      | .loaded tail =>
          if tail = s.ring.head then some ({ s with consumer := .idle }, some (.pop none))
          else some ({ s with consumer := .passed tail }, none)
      | _ => none
  | .popMove residue =>
      match s.consumer with
      | .passed tail =>
          some ({ s with
            ring := { s.ring with buffer := Function.update s.ring.buffer (slot k tail) residue }
            consumer := .taken tail (s.ring.buffer (slot k tail)) }, none)
      | _ => none
  | .popStore =>
      match s.consumer with
      | .taken tail item =>
          some ({ s with
            ring := { s.ring with tail := tail + 1 }
            consumer := .idle
            popped := s.popped ++ [item] }, some (.pop (some item)))
      | _ => none

/-- A run of the threads. -/
def run (s : Threads α k) (steps : List (RingStep α)) : Option (Threads α k) :=
  steps.foldlM (fun s e => (s.step e).map Prod.fst) s

end Threads

/-! ### What one step does -/

/-- What a step does, said once. -/
inductive RingSteps {α : Type} {k : Fin 64} (s : Threads α k) :
    RingStep α → Threads α k → Option (Reply α) → Prop
  | pushLoadHead (item : α) (hp : s.producer = .idle) :
      RingSteps s (.pushLoadHead item) { s with producer := .loaded item s.ring.head } none
  | pushFull {item : α} {head : SizeT} (hp : s.producer = .loaded item head)
      (hfull : head - s.ring.tail = capacity k) :
      RingSteps s .pushLoadTail { s with producer := .idle } (some (.push item false))
  | pushPass {item : α} {head : SizeT} (hp : s.producer = .loaded item head)
      (hroom : head - s.ring.tail ≠ capacity k) :
      RingSteps s .pushLoadTail { s with producer := .passed item head } none
  | pushWrite {item : α} {head : SizeT} (hp : s.producer = .passed item head) :
      RingSteps s .pushWrite
        { s with
          ring := { s.ring with buffer := Function.update s.ring.buffer (slot k head) item }
          producer := .written item head } none
  | pushStore {item : α} {head : SizeT} (hp : s.producer = .written item head) :
      RingSteps s .pushStore
        { s with
          ring := { s.ring with head := head + 1 }
          producer := .idle
          pushed := s.pushed ++ [item] } (some (.push item true))
  | popLoadTail (hc : s.consumer = .idle) :
      RingSteps s .popLoadTail { s with consumer := .loaded s.ring.tail } none
  | popEmpty {tail : SizeT} (hc : s.consumer = .loaded tail) (hempty : tail = s.ring.head) :
      RingSteps s .popLoadHead { s with consumer := .idle } (some (.pop none))
  | popPass {tail : SizeT} (hc : s.consumer = .loaded tail) (hsome : tail ≠ s.ring.head) :
      RingSteps s .popLoadHead { s with consumer := .passed tail } none
  | popMove {tail : SizeT} (residue : α) (hc : s.consumer = .passed tail) :
      RingSteps s (.popMove residue)
        { s with
          ring := { s.ring with buffer := Function.update s.ring.buffer (slot k tail) residue }
          consumer := .taken tail (s.ring.buffer (slot k tail)) } none
  | popStore {tail : SizeT} {item : α} (hc : s.consumer = .taken tail item) :
      RingSteps s .popStore
        { s with
          ring := { s.ring with tail := tail + 1 }
          consumer := .idle
          popped := s.popped ++ [item] } (some (.pop (some item)))

namespace Threads

variable {α : Type} {k : Fin 64} {s s' : Threads α k}

theorem steps {e : RingStep α} {reply : Option (Reply α)} (h : s.step e = some (s', reply)) :
    RingSteps s e s' reply := by
  cases e with
  | pushLoadHead item =>
    simp only [step] at h
    split at h
    · next hp =>
      obtain ⟨rfl, rfl⟩ := Prod.mk.inj (Option.some.inj h)
      exact .pushLoadHead item hp
    · exact absurd h (by simp)
  | pushLoadTail =>
    simp only [step] at h
    split at h
    · next item head hp =>
      split at h
      · next hfull =>
        obtain ⟨rfl, rfl⟩ := Prod.mk.inj (Option.some.inj h)
        exact .pushFull hp hfull
      · next hroom =>
        obtain ⟨rfl, rfl⟩ := Prod.mk.inj (Option.some.inj h)
        exact .pushPass hp hroom
    · exact absurd h (by simp)
  | pushWrite =>
    simp only [step] at h
    split at h
    · next item head hp =>
      obtain ⟨rfl, rfl⟩ := Prod.mk.inj (Option.some.inj h)
      exact .pushWrite hp
    · exact absurd h (by simp)
  | pushStore =>
    simp only [step] at h
    split at h
    · next item head hp =>
      obtain ⟨rfl, rfl⟩ := Prod.mk.inj (Option.some.inj h)
      exact .pushStore hp
    · exact absurd h (by simp)
  | popLoadTail =>
    simp only [step] at h
    split at h
    · next hc =>
      obtain ⟨rfl, rfl⟩ := Prod.mk.inj (Option.some.inj h)
      exact .popLoadTail hc
    · exact absurd h (by simp)
  | popLoadHead =>
    simp only [step] at h
    split at h
    · next tail hc =>
      split at h
      · next hempty =>
        obtain ⟨rfl, rfl⟩ := Prod.mk.inj (Option.some.inj h)
        exact .popEmpty hc hempty
      · next hsome =>
        obtain ⟨rfl, rfl⟩ := Prod.mk.inj (Option.some.inj h)
        exact .popPass hc hsome
    · exact absurd h (by simp)
  | popMove residue =>
    simp only [step] at h
    split at h
    · next tail hc =>
      obtain ⟨rfl, rfl⟩ := Prod.mk.inj (Option.some.inj h)
      exact .popMove residue hc
    · exact absurd h (by simp)
  | popStore =>
    simp only [step] at h
    split at h
    · next tail item hc =>
      obtain ⟨rfl, rfl⟩ := Prod.mk.inj (Option.some.inj h)
      exact .popStore hc
    · exact absurd h (by simp)

/-! ### The invariant -/

/-- The number of items that are no longer in their slots: those popped, and one more
when it has been moved out and the index is not stored yet. -/
def removed (s : Threads α k) : ℕ :=
  match s.consumer with
  | .taken _ _ => s.popped.length + 1
  | _ => s.popped.length

/-- What the producer knows: its copy of `head_` is good throughout, and once it has
passed the check there is room until it stores. -/
def ProducerKnows (s : Threads α k) : Prop :=
  match s.producer with
  | .idle => True
  | .loaded _ head => head = s.ring.head
  | .passed _ head => head = s.ring.head ∧ s.pushed.length < s.popped.length + 2 ^ k.val
  | .written item head =>
      head = s.ring.head ∧ s.pushed.length < s.popped.length + 2 ^ k.val ∧
        s.ring.buffer (slot k head) = item

/-- What the consumer knows: its copy of `tail_` is good throughout, and once it has
passed the check there is an item until it stores. -/
def ConsumerKnows (s : Threads α k) : Prop :=
  match s.consumer with
  | .idle => True
  | .loaded tail => tail = s.ring.tail
  | .passed tail => tail = s.ring.tail ∧ s.popped.length < s.pushed.length
  | .taken tail item => tail = s.ring.tail ∧ s.pushed[s.popped.length]? = some item

/-- The invariant of the states between steps. -/
structure Inv (s : Threads α k) : Prop where
  head : s.ring.head = BitVec.ofNat 64 s.pushed.length
  tail : s.ring.tail = BitVec.ofNat 64 s.popped.length
  fifo : s.popped <+: s.pushed
  bounded : s.pushed.length ≤ s.popped.length + 2 ^ k.val
  contents : ∀ i, s.removed ≤ i → i < s.pushed.length →
    s.pushed[i]? = some (s.ring.buffer (slot k (BitVec.ofNat 64 i)))
  producer : s.ProducerKnows
  consumer : s.ConsumerKnows

/-- Slots of indices that are less than the capacity apart are different. -/
theorem slot_ne {i j : ℕ} (h : i < j) (hlt : j < i + 2 ^ k.val) :
    slot k (BitVec.ofNat 64 i) ≠ slot k (BitVec.ofNat 64 j) := by
  intro heq
  have hval := congrArg Fin.val heq
  simp only [slot, capacity, Counter.toNat_mask_ofNat k.isLt] at hval
  exact Counter.mod_ne_of_lt h hlt hval

theorem two_pow_lt (k : Fin 64) : 2 ^ k.val < 2 ^ 64 := Nat.pow_lt_pow_right (by omega) k.isLt

namespace Inv

theorem length_le (h : s.Inv) : s.popped.length ≤ s.pushed.length := h.fifo.length_le

/-- The check of `try_push` is exact, whatever the counters. -/
theorem full_iff (h : s.Inv) :
    s.ring.head - s.ring.tail = capacity k ↔ s.pushed.length = s.popped.length + 2 ^ k.val := by
  have hbounded := h.bounded
  have hpow := two_pow_lt k
  rw [h.head, h.tail, capacity]
  exact Counter.ofNat_sub_eq_iff h.length_le (by omega) hpow

/-- The check of `try_pop` is exact, whatever the counters. -/
theorem empty_iff (h : s.Inv) :
    s.ring.tail = s.ring.head ↔ s.pushed.length = s.popped.length := by
  have hbounded := h.bounded
  have hpow := two_pow_lt k
  rw [h.head, h.tail]
  exact Counter.ofNat_inj_of_lt h.length_le (by omega)

theorem le_removed (s : Threads α k) : s.popped.length ≤ s.removed := by
  unfold removed
  split
  · exact Nat.le_succ _
  · exact Nat.le_refl _

/-- The items that are in their slots, when none is on its way out. -/
theorem contents_of (h : s.Inv) (hr : s.removed = s.popped.length) :
    ∀ i, s.popped.length ≤ i → i < s.pushed.length →
      s.pushed[i]? = some (s.ring.buffer (slot k (BitVec.ofNat 64 i))) :=
  fun i hi => h.contents i (Nat.le_trans (Nat.le_of_eq hr) hi)

theorem start (buffer : Fin (2 ^ k.val) → α) : (start buffer).Inv where
  head := rfl
  tail := rfl
  fifo := List.prefix_rfl
  bounded := Nat.zero_le _
  contents := fun i _ hi => absurd hi (Nat.not_lt_zero i)
  producer := trivial
  consumer := trivial

/-- The producer writes a slot that holds no item. -/
theorem pushWrite (h : s.Inv) {item : α} {head : SizeT} (hp : s.producer = .passed item head) :
    Inv { s with
      ring := { s.ring with buffer := Function.update s.ring.buffer (slot k head) item }
      producer := .written item head } := by
  have hknows := h.producer
  rw [ProducerKnows, hp] at hknows
  obtain ⟨rfl, hroom⟩ := hknows
  refine ⟨h.head, h.tail, h.fifo, h.bounded, ?_, ?_, h.consumer⟩
  · intro i hi hlt
    have hle := le_removed s
    have hne : slot k (BitVec.ofNat 64 i) ≠ slot k s.ring.head := by
      rw [h.head]
      have hge : s.popped.length ≤ i := Nat.le_trans hle hi
      exact slot_ne hlt (Nat.lt_of_lt_of_le hroom (Nat.add_le_add_right hge _))
    show s.pushed[i]? = some (Function.update s.ring.buffer (slot k s.ring.head) item _)
    rw [Function.update_of_ne hne]
    exact h.contents i hi hlt
  · exact ⟨rfl, hroom, Function.update_self ..⟩

/-- The item that has been written becomes visible. -/
theorem pushStore (h : s.Inv) {item : α} {head : SizeT} (hp : s.producer = .written item head) :
    Inv { s with
      ring := { s.ring with head := head + 1 }
      producer := .idle
      pushed := s.pushed ++ [item] } := by
  have hknows := h.producer
  rw [ProducerKnows, hp] at hknows
  obtain ⟨rfl, hroom, hslot⟩ := hknows
  refine ⟨?_, h.tail, h.fifo.trans (List.prefix_append _ _), ?_, ?_, trivial, ?_⟩
  · show s.ring.head + 1 = BitVec.ofNat 64 (s.pushed ++ [item]).length
    rw [h.head, List.length_append, BitVec.ofNat_add]
    rfl
  · show (s.pushed ++ [item]).length ≤ _
    rw [List.length_append, List.length_singleton]
    exact hroom
  · intro i hi hlt
    show (s.pushed ++ [item])[i]? = _
    rw [List.length_append, List.length_singleton] at hlt
    rcases Nat.lt_or_ge i s.pushed.length with hold | hnew
    · rw [List.getElem?_append_left hold]
      exact h.contents i hi hold
    · -- the new item is in the slot that was written
      obtain rfl : i = s.pushed.length := by omega
      rw [List.getElem?_concat_length, ← hslot, h.head]
  · have hknows := h.consumer
    unfold ConsumerKnows at hknows ⊢
    cases hc : s.consumer with
    | idle => trivial
    | loaded tail =>
      rw [hc] at hknows
      exact hknows
    | passed tail =>
      rw [hc] at hknows
      refine ⟨hknows.1, ?_⟩
      show s.popped.length < (s.pushed ++ [item]).length
      rw [List.length_append]
      exact Nat.lt_add_right _ hknows.2
    | taken tail x =>
      rw [hc] at hknows
      refine ⟨hknows.1, ?_⟩
      show (s.pushed ++ [item])[s.popped.length]? = some x
      rw [List.getElem?_append_left (List.getElem?_eq_some_iff.mp hknows.2).1]
      exact hknows.2

/-- The consumer takes the oldest item, and the slot that the producer may have written
is another one. -/
theorem popMove (h : s.Inv) {tail : SizeT} (residue : α) (hc : s.consumer = .passed tail) :
    Inv { s with
      ring := { s.ring with buffer := Function.update s.ring.buffer (slot k tail) residue }
      consumer := .taken tail (s.ring.buffer (slot k tail)) } := by
  have hknows := h.consumer
  have hremoved : s.removed = s.popped.length := by rw [removed, hc]
  rw [ConsumerKnows, hc] at hknows
  obtain ⟨rfl, hsome⟩ := hknows
  have hbounded := h.bounded
  refine ⟨h.head, h.tail, h.fifo, h.bounded, ?_, ?_, rfl, ?_⟩
  · intro i hi hlt
    have hgt : s.popped.length < i := hi
    have hne : slot k (BitVec.ofNat 64 i) ≠ slot k s.ring.tail := by
      rw [h.tail]
      have hnear : i < s.popped.length + 2 ^ k.val := Nat.lt_of_lt_of_le hlt hbounded
      exact (slot_ne hgt hnear).symm
    show s.pushed[i]? = some (Function.update s.ring.buffer (slot k s.ring.tail) residue _)
    rw [Function.update_of_ne hne]
    exact h.contents i (by rw [hremoved]; omega) hlt
  · have hp := h.producer
    unfold ProducerKnows at hp ⊢
    cases hprod : s.producer with
    | idle => trivial
    | loaded item head =>
      rw [hprod] at hp
      exact hp
    | passed item head =>
      rw [hprod] at hp
      exact hp
    | written item head =>
      rw [hprod] at hp
      obtain ⟨rfl, hroom, hslot⟩ := hp
      have hne : slot k s.ring.head ≠ slot k s.ring.tail := by
        rw [h.head, h.tail]
        exact (slot_ne hsome hroom).symm
      refine ⟨rfl, hroom, ?_⟩
      show Function.update s.ring.buffer (slot k s.ring.tail) residue _ = item
      rw [Function.update_of_ne hne]
      exact hslot
  · show s.pushed[s.popped.length]? = some (s.ring.buffer (slot k s.ring.tail))
    rw [h.contents s.popped.length (by rw [hremoved]) hsome, h.tail]

/-- The item that has been taken has been popped. -/
theorem popStore (h : s.Inv) {tail : SizeT} {item : α} (hc : s.consumer = .taken tail item) :
    Inv { s with
      ring := { s.ring with tail := tail + 1 }
      consumer := .idle
      popped := s.popped ++ [item] } := by
  have hknows := h.consumer
  have hremoved : s.removed = s.popped.length + 1 := by rw [removed, hc]
  have hlen : (s.popped ++ [item]).length = s.popped.length + 1 := by
    rw [List.length_append, List.length_singleton]
  rw [ConsumerKnows, hc] at hknows
  obtain ⟨rfl, hitem⟩ := hknows
  have hbounded := h.bounded
  refine ⟨h.head, ?_, ?_, ?_, ?_, ?_, trivial⟩
  · show s.ring.tail + 1 = BitVec.ofNat 64 (s.popped ++ [item]).length
    rw [hlen, BitVec.ofNat_add, h.tail]
    rfl
  · -- the first items pushed, one more than before
    show s.popped ++ [item] <+: s.pushed
    have htake : s.popped ++ [item] = s.pushed.take (s.popped.length + 1) := by
      rw [List.take_add_one, hitem, ← List.prefix_iff_eq_take.mp h.fifo]
      rfl
    rw [htake]
    exact List.take_prefix _ _
  · show s.pushed.length ≤ (s.popped ++ [item]).length + 2 ^ k.val
    omega
  · intro i hi hlt
    apply h.contents i _ hlt
    rw [hremoved, ← hlen]
    exact hi
  · have hp := h.producer
    unfold ProducerKnows at hp ⊢
    cases hprod : s.producer with
    | idle => trivial
    | loaded item' head =>
      rw [hprod] at hp
      exact hp
    | passed item' head =>
      rw [hprod] at hp
      refine ⟨hp.1, ?_⟩
      show s.pushed.length < (s.popped ++ [item]).length + 2 ^ k.val
      have hroom := hp.2
      omega
    | written item' head =>
      rw [hprod] at hp
      refine ⟨hp.1, ?_, hp.2.2⟩
      show s.pushed.length < (s.popped ++ [item]).length + 2 ^ k.val
      have hroom := hp.2.1
      omega

/-- **A step keeps the invariant.** -/
theorem step (h : s.Inv) {e : RingStep α} {reply : Option (Reply α)}
    (hs : s.step e = some (s', reply)) : s'.Inv := by
  cases steps hs with
  | pushLoadHead item hp =>
    exact ⟨h.head, h.tail, h.fifo, h.bounded, h.contents, rfl, h.consumer⟩
  | pushFull hp hfull =>
    exact ⟨h.head, h.tail, h.fifo, h.bounded, h.contents, trivial, h.consumer⟩
  | pushPass hp hroom =>
    -- the copy of `tail_` that was compared may get old, but room only grows
    have hknows := h.producer
    rw [ProducerKnows, hp] at hknows
    refine ⟨h.head, h.tail, h.fifo, h.bounded, h.contents, ⟨hknows, ?_⟩, h.consumer⟩
    rw [hknows] at hroom
    exact Nat.lt_of_le_of_ne h.bounded fun heq => hroom (h.full_iff.mpr heq)
  | pushWrite hp => exact h.pushWrite hp
  | pushStore hp => exact h.pushStore hp
  | popLoadTail hc =>
    exact ⟨h.head, h.tail, h.fifo, h.bounded, h.contents_of (by rw [removed, hc]), h.producer, rfl⟩
  | popEmpty hc hempty =>
    exact ⟨h.head, h.tail, h.fifo, h.bounded, h.contents_of (by rw [removed, hc]), h.producer,
      trivial⟩
  | popPass hc hsome =>
    have hknows := h.consumer
    rw [ConsumerKnows, hc] at hknows
    refine ⟨h.head, h.tail, h.fifo, h.bounded, h.contents_of (by rw [removed, hc]), h.producer,
      hknows, ?_⟩
    rw [hknows] at hsome
    exact Nat.lt_of_le_of_ne h.length_le fun heq => hsome (h.empty_iff.mpr heq.symm)
  | popMove residue hc => exact h.popMove residue hc
  | popStore hc => exact h.popStore hc

/-- **A run keeps the invariant**, however long it is and however the steps of the
threads fall. -/
theorem run {steps : List (RingStep α)} (h : s.Inv) (hrun : s.run steps = some s') : s'.Inv := by
  refine foldlM_some_invariant (P := fun _ t => t.Inv) ?_ steps s h hrun
  intro e es t t' ht hstep _
  obtain ⟨⟨t₁, reply⟩, hs, rfl⟩ := Option.map_eq_some_iff.mp hstep
  exact ht.step hs

end Inv

end Threads

/-! ### What the buffer is for -/

namespace BoundedQueue

variable {α : Type}

/-- An item is added at the end, if there is room. -/
def push (n : ℕ) (q : List α) (item : α) : Bool × List α :=
  if q.length = n then (false, q) else (true, q ++ [item])

/-- The first item is taken off, if there is one. -/
def pop : List α → Option α × List α
  | [] => (none, [])
  | item :: q => (some item, q)

/-- A step of an implementation and the queue: nothing happens, or a call takes effect
and returns what the queue returns. -/
inductive Linearized (n : ℕ) : List α → Option (Reply α) → List α → Prop
  | silent (q : List α) : Linearized n q none q
  | push {q q' : List α} {item : α} {ok : Bool} (h : BoundedQueue.push n q item = (ok, q')) :
      Linearized n q (some (.push item ok)) q'
  | pop {q q' : List α} {result : Option α} (h : BoundedQueue.pop q = (result, q')) :
      Linearized n q (some (.pop result)) q'

end BoundedQueue

/-- The slot index of a producer that is between its check and its store. -/
def Producer.accessing {α : Type} : Producer α → Option SizeT
  | .passed _ head => some head
  | .written _ head => some head
  | _ => none

/-- The slot index of a consumer that is between its check and its store. -/
def Consumer.accessing {α : Type} : Consumer α → Option SizeT
  | .passed tail => some tail
  | .taken tail _ => some tail
  | _ => none

namespace Threads

variable {α : Type} {k : Fin 64} {s s' : Threads α k}

/-- The items that have been pushed and not popped. -/
def items (s : Threads α k) : List α := s.pushed.drop s.popped.length

namespace Inv

theorem length_items (s : Threads α k) :
    s.items.length = s.pushed.length - s.popped.length := List.length_drop ..

/-- A push that is refused finds the buffer full at its load of `tail_`. -/
theorem full (h : s.Inv) {item : α} {head : SizeT} (hp : s.producer = .loaded item head)
    (hfull : head - s.ring.tail = capacity k) :
    s.pushed.length = s.popped.length + 2 ^ k.val := by
  have hknows := h.producer
  rw [ProducerKnows, hp] at hknows
  rw [hknows] at hfull
  exact h.full_iff.mp hfull

/-- A pop that is refused finds the buffer empty at its load of `head_`. -/
theorem empty (h : s.Inv) {tail : SizeT} (hc : s.consumer = .loaded tail)
    (hempty : tail = s.ring.head) : s.pushed.length = s.popped.length := by
  have hknows := h.consumer
  rw [ConsumerKnows, hc] at hknows
  rw [hknows] at hempty
  exact h.empty_iff.mp hempty

/-- **A step carries out at most one call of the queue**: a push takes effect when it
stores `head_` or finds the buffer full, and a pop when it stores `tail_` or finds the
buffer empty. -/
theorem linearized (h : s.Inv) {e : RingStep α} {reply : Option (Reply α)}
    (hs : s.step e = some (s', reply)) :
    BoundedQueue.Linearized (2 ^ k.val) s.items reply s'.items := by
  have hle := h.length_le
  have hlen := length_items s
  cases steps hs with
  | pushLoadHead item hp => exact .silent _
  | pushFull hp hfull =>
    have heq := h.full hp hfull
    exact .push (if_pos (by omega))
  | pushPass hp hroom => exact .silent _
  | pushWrite hp => exact .silent _
  | @pushStore item head hp =>
    have hknows := h.producer
    rw [ProducerKnows, hp] at hknows
    have hroom := hknows.2.1
    have hitems : (s.pushed ++ [item]).drop s.popped.length = s.items ++ [item] :=
      List.drop_append_of_le_length hle
    apply BoundedQueue.Linearized.push
    show BoundedQueue.push (2 ^ k.val) s.items item
      = (true, (s.pushed ++ [item]).drop s.popped.length)
    rw [BoundedQueue.push, if_neg (by omega), hitems]
  | popLoadTail hc => exact .silent _
  | popEmpty hc hempty =>
    have heq := h.empty hc hempty
    have hnil : s.items = [] := List.eq_nil_of_length_eq_zero (by omega)
    apply BoundedQueue.Linearized.pop
    show BoundedQueue.pop s.items = (none, s.items)
    rw [hnil]
    rfl
  | popPass hc hsome => exact .silent _
  | popMove residue hc => exact .silent _
  | @popStore tail item hc =>
    have hknows := h.consumer
    rw [ConsumerKnows, hc] at hknows
    obtain ⟨hlt, hitem⟩ := List.getElem?_eq_some_iff.mp hknows.2
    have hcons : s.items = item :: s.pushed.drop (s.popped.length + 1) := by
      rw [items, List.drop_eq_getElem_cons hlt, hitem]
    apply BoundedQueue.Linearized.pop
    rw [hcons, items, List.length_append]
    rfl

/-- The two threads never access the same slot between their checks and their stores. -/
theorem slots_ne (h : s.Inv) {head tail : SizeT} (hp : s.producer.accessing = some head)
    (hc : s.consumer.accessing = some tail) : slot k head ≠ slot k tail := by
  have hroom : head = s.ring.head ∧ s.pushed.length < s.popped.length + 2 ^ k.val := by
    have hknows := h.producer
    unfold ProducerKnows at hknows
    cases hprod : s.producer with
    | idle => rw [hprod] at hp; exact absurd hp (by simp [Producer.accessing])
    | loaded item head' => rw [hprod] at hp; exact absurd hp (by simp [Producer.accessing])
    | passed item head' =>
      rw [hprod] at hp hknows
      obtain rfl := Option.some.inj hp
      exact hknows
    | written item head' =>
      rw [hprod] at hp hknows
      obtain rfl := Option.some.inj hp
      exact ⟨hknows.1, hknows.2.1⟩
  have hsome : tail = s.ring.tail ∧ s.popped.length < s.pushed.length := by
    have hknows := h.consumer
    unfold ConsumerKnows at hknows
    cases hcons : s.consumer with
    | idle => rw [hcons] at hc; exact absurd hc (by simp [Consumer.accessing])
    | loaded tail' => rw [hcons] at hc; exact absurd hc (by simp [Consumer.accessing])
    | passed tail' =>
      rw [hcons] at hc hknows
      obtain rfl := Option.some.inj hc
      exact hknows
    | taken tail' item =>
      rw [hcons] at hc hknows
      obtain rfl := Option.some.inj hc
      exact ⟨hknows.1, (List.getElem?_eq_some_iff.mp hknows.2).1⟩
  rw [hroom.1, hsome.1, h.head, h.tail]
  exact (slot_ne hsome.2 hroom.2).symm

end Inv

end Threads

/-- **The buffer is a bounded queue, first in, first out.**  For every capacity `2 ^ k`
with `k < 64`, every sequence of steps of the two threads and the state it leads to: what
has been popped is a prefix of what has been pushed; at most `2 ^ k` items have been
pushed and not popped; the threads do not access the same slot between their checks and
their stores; a push returns `false` only at a load of `tail_` at which the buffer is
full, and a pop returns nothing only at a load of `head_` at which it is empty; and the
next step, whichever it is, does nothing to the queue of the items or carries out one
call of it.  The counters wrap as often as the run is long. -/
theorem spsc_fifo {α : Type} {k : Fin 64} (buffer : Fin (2 ^ k.val) → α)
    (steps : List (RingStep α)) {s : Threads α k}
    (hrun : (Threads.start buffer).run steps = some s) :
    s.popped <+: s.pushed ∧ s.pushed.length ≤ s.popped.length + 2 ^ k.val ∧
    (∀ head tail, s.producer.accessing = some head → s.consumer.accessing = some tail →
      slot k head ≠ slot k tail) ∧
    (∀ e s' item, s.step e = some (s', some (.push item false)) →
      e = .pushLoadTail ∧ s.pushed.length = s.popped.length + 2 ^ k.val) ∧
    (∀ e s', s.step e = some (s', some (.pop none)) →
      e = .popLoadHead ∧ s.pushed.length = s.popped.length) ∧
    ∀ e s' reply, s.step e = some (s', reply) →
      BoundedQueue.Linearized (2 ^ k.val) s.items reply s'.items := by
  have hinv : s.Inv := (Threads.Inv.start buffer).run hrun
  refine ⟨hinv.fifo, hinv.bounded, fun head tail => hinv.slots_ne, ?_, ?_, ?_⟩
  · intro e s' item hs
    cases Threads.steps hs with
    | pushFull hp hfull => exact ⟨rfl, hinv.full hp hfull⟩
  · intro e s' hs
    cases Threads.steps hs with
    | popEmpty hc hempty => exact ⟨rfl, hinv.empty hc hempty⟩
  · exact fun e s' reply hs => hinv.linearized hs

/-- A pop that loads `head_` before a push has stored it, and a second one. -/
def racingSteps : List (RingStep ℕ) :=
  [.pushLoadHead 7, .popLoadTail, .pushLoadTail, .pushWrite, .popLoadHead, .pushStore, .popLoadTail,
    .popLoadHead, .popMove 0, .popStore]

theorem spsc_fifo_racing :
    ∃ s, (Threads.start (k := 1) fun _ => 0).run racingSteps = some s ∧ s.popped = [7] ∧
      s.popped <+: s.pushed := by
  have heval : ((Threads.start (k := 1) fun _ => 0).run racingSteps).map Threads.popped
      = some [7] := by decide
  obtain ⟨s, hs, hpopped⟩ := Option.map_eq_some_iff.mp heval
  exact ⟨s, hs, hpopped, (spsc_fifo _ _ hs).1⟩

end Exchange
