import Exchange.Order
import Exchange.SPSCRingBuffer
import Mathlib.Data.Set.Subsingleton

/-!
# The queue with a lock

`thread_safe_queue.hpp`, which the ring buffers have replaced.  Any number of threads push and
pop.  A pop looks at the size before it takes the lock, and does not look again when it has it:
between the two another pop may have emptied the queue, and then the front of an empty queue is
moved from.  Where all pops are of one thread this cannot happen, and the queue is one.

A step is atomic, and a thread takes its steps in the order of the program.  The size is a
64-bit counter that wraps.

## Main definitions

* `QueueCall` — where a thread is in `push` or `try_pop`.
* `ThreadSafeQueue`, `ThreadSafeQueue.step`, `ThreadSafeQueue.run` — the queue with its
  threads, and their runs.
* `ThreadSafeQueue.IsFifo` — what the queue is for.
* `ThreadSafeQueue.Inv` — the invariant of all states between steps, with one consumer.

## Main results

* `ThreadSafeQueue.Inv.step`, `ThreadSafeQueue.Inv.run` — steps and runs keep the invariant.
* `fifo_iff_one_consumer` — it is a queue exactly when there is at most one consumer.
-/

namespace Exchange

/-- Where a thread is in `push` or `try_pop`. -/
inductive QueueCall (α : Type)
  | idle
  /-- `push` has the lock. -/
  | pushLocked (item : α)
  /-- The item is in the queue. -/
  | pushQueued
  /-- The item is counted. -/
  | pushCounted
  /-- `try_pop` has seen a size that is not zero. -/
  | popPassed
  /-- `try_pop` has the lock. -/
  | popLocked
  /-- The front has been moved from. -/
  | popMoved (value : α)
  /-- The front has been removed. -/
  | popRemoved (value : α)
  /-- The size is that without the front. -/
  | popCounted (value : α)

namespace QueueCall

variable {α : Type}

/-- The thread has the lock. -/
def inside : QueueCall α → Bool
  | .idle | .popPassed => false
  | _ => true

/-- The thread is in `try_pop`. -/
def pops : QueueCall α → Bool
  | .popPassed | .popLocked | .popMoved _ | .popRemoved _ | .popCounted _ => true
  | _ => false

end QueueCall

/-- The steps of a thread. -/
inductive QueueStep (α : Type)
  | pushLock (item : α)
  | pushQueue
  | pushCount
  | pushUnlock
  | popLoad
  | popLock
  /-- The front is left with `residue`. -/
  | popMove (residue : α)
  | popRemove
  | popCount
  | popUnlock

/-- The queue and its threads.  `pushed` and `popped` are ghosts: the items in the order in
which they have been put into the queue and taken out of it. -/
structure ThreadSafeQueue (α ι : Type) where
  queue : List α
  mutex : Option ι
  size : SizeT
  call : ι → QueueCall α
  pushed : List α
  popped : List α

namespace ThreadSafeQueue

variable {α ι : Type}

/-- A new queue. -/
def start : ThreadSafeQueue α ι := ⟨[], none, 0, fun _ => .idle, [], []⟩

/-- Only these threads call `try_pop`. -/
def ConsumedBy (consumers : Set ι) (steps : List (ι × QueueStep α)) : Prop :=
  ∀ e ∈ steps, e.2 = .popLoad → e.1 ∈ consumers

section Step

variable [DecidableEq ι]

/-- A step of the thread `i`, if it is there in its program and is not blocked. -/
def step (s : ThreadSafeQueue α ι) (i : ι) :
    QueueStep α → Option (Except Fault (ThreadSafeQueue α ι))
  | .pushLock item =>
      match s.call i, s.mutex with
      | .idle, none =>
          some (.ok { s with
            mutex := some i
            call := Function.update s.call i (.pushLocked item) })
      | _, _ => none
  | .pushQueue =>
      match s.call i with
      | .pushLocked item =>
          some (.ok { s with
            queue := s.queue ++ [item]
            call := Function.update s.call i .pushQueued
            pushed := s.pushed ++ [item] })
      | _ => none
  | .pushCount =>
      match s.call i with
      | .pushQueued =>
          some (.ok { s with
            size := s.size + 1
            call := Function.update s.call i .pushCounted })
      | _ => none
  | .pushUnlock =>
      match s.call i with
      | .pushCounted =>
          some (.ok { s with
            mutex := none
            call := Function.update s.call i .idle })
      | _ => none
  | .popLoad =>
      match s.call i with
      | .idle =>
          if s.size = 0 then some (.ok s)
          else some (.ok { s with call := Function.update s.call i .popPassed })
      | _ => none
  | .popLock =>
      match s.call i, s.mutex with
      | .popPassed, none =>
          some (.ok { s with
            mutex := some i
            call := Function.update s.call i .popLocked })
      | _, _ => none
  | .popMove residue =>
      match s.call i, s.queue with
      | .popLocked, value :: rest =>
          some (.ok { s with
            queue := residue :: rest
            call := Function.update s.call i (.popMoved value) })
      | .popLocked, [] => some (.error .undefinedBehaviour)
      | _, _ => none
  | .popRemove =>
      match s.call i, s.queue with
      | .popMoved value, _ :: rest =>
          some (.ok { s with
            queue := rest
            call := Function.update s.call i (.popRemoved value)
            popped := s.popped ++ [value] })
      | .popMoved _, [] => some (.error .undefinedBehaviour)
      | _, _ => none
  | .popCount =>
      match s.call i with
      | .popRemoved value =>
          some (.ok { s with
            size := s.size - 1
            call := Function.update s.call i (.popCounted value) })
      | _ => none
  | .popUnlock =>
      match s.call i with
      | .popCounted _ =>
          some (.ok { s with
            mutex := none
            call := Function.update s.call i .idle })
      | _ => none

/-- A run of the threads, as long as it is defined. -/
def run (s : ThreadSafeQueue α ι) (steps : List (ι × QueueStep α)) :
    Option (ThreadSafeQueue α ι) :=
  steps.foldlM (fun s e => (s.step e.1 e.2).bind Except.toOption) s

/-- What the queue is for: what comes out is what went in, in order; nothing is lost between
calls; the next step, whichever it is, is defined; and a `try_pop` that returns nothing has
found nothing but, at most, the item of a `push` that has not yet counted it. -/
structure IsFifo (consumers : Set ι) (s : ThreadSafeQueue α ι) : Prop where
  fifo : s.popped <+: s.pushed
  kept : s.mutex = none → s.pushed = s.popped ++ s.queue
  defined : ∀ i e f, s.step i e ≠ some (.error f)
  nothing : ∀ i ∈ consumers, s.step i .popLoad = some (.ok s) → s.queue.length < 2 ^ 64 →
    s.queue = [] ∨ ∃ j item, s.call j = .pushQueued ∧ s.queue = [item]

/-! ### What one step does -/

/-- What a defined step does, said once. -/
inductive QueueSteps (s : ThreadSafeQueue α ι) (i : ι) :
    QueueStep α → ThreadSafeQueue α ι → Prop
  | pushLock (item : α) (hcall : s.call i = .idle) (hfree : s.mutex = none) :
      QueueSteps s i (.pushLock item)
        { s with
          mutex := some i
          call := Function.update s.call i (.pushLocked item) }
  | pushQueue {item : α} (hcall : s.call i = .pushLocked item) :
      QueueSteps s i .pushQueue
        { s with
          queue := s.queue ++ [item]
          call := Function.update s.call i .pushQueued
          pushed := s.pushed ++ [item] }
  | pushCount (hcall : s.call i = .pushQueued) :
      QueueSteps s i .pushCount
        { s with
          size := s.size + 1
          call := Function.update s.call i .pushCounted }
  | pushUnlock (hcall : s.call i = .pushCounted) :
      QueueSteps s i .pushUnlock
        { s with
          mutex := none
          call := Function.update s.call i .idle }
  | popNothing (hcall : s.call i = .idle) (hsize : s.size = 0) : QueueSteps s i .popLoad s
  | popPass (hcall : s.call i = .idle) (hsize : s.size ≠ 0) :
      QueueSteps s i .popLoad { s with call := Function.update s.call i .popPassed }
  | popLock (hcall : s.call i = .popPassed) (hfree : s.mutex = none) :
      QueueSteps s i .popLock
        { s with
          mutex := some i
          call := Function.update s.call i .popLocked }
  | popMove {value : α} {rest : List α} (residue : α) (hcall : s.call i = .popLocked)
      (hqueue : s.queue = value :: rest) :
      QueueSteps s i (.popMove residue)
        { s with
          queue := residue :: rest
          call := Function.update s.call i (.popMoved value) }
  | popRemove {value front : α} {rest : List α} (hcall : s.call i = .popMoved value)
      (hqueue : s.queue = front :: rest) :
      QueueSteps s i .popRemove
        { s with
          queue := rest
          call := Function.update s.call i (.popRemoved value)
          popped := s.popped ++ [value] }
  | popCount {value : α} (hcall : s.call i = .popRemoved value) :
      QueueSteps s i .popCount
        { s with
          size := s.size - 1
          call := Function.update s.call i (.popCounted value) }
  | popUnlock {value : α} (hcall : s.call i = .popCounted value) :
      QueueSteps s i .popUnlock
        { s with
          mutex := none
          call := Function.update s.call i .idle }

variable {s s' : ThreadSafeQueue α ι} {i : ι} {e : QueueStep α}

theorem steps (hs : s.step i e = some (.ok s')) : QueueSteps s i e s' := by
  cases e with
  | pushLock item =>
    simp only [step] at hs
    split at hs
    · next hcall hfree =>
      obtain rfl := Except.ok.inj (Option.some.inj hs)
      exact .pushLock item hcall hfree
    · exact absurd hs (by simp)
  | pushQueue =>
    simp only [step] at hs
    split at hs
    · next hcall =>
      obtain rfl := Except.ok.inj (Option.some.inj hs)
      exact .pushQueue hcall
    · exact absurd hs (by simp)
  | pushCount =>
    simp only [step] at hs
    split at hs
    · next hcall =>
      obtain rfl := Except.ok.inj (Option.some.inj hs)
      exact .pushCount hcall
    · exact absurd hs (by simp)
  | pushUnlock =>
    simp only [step] at hs
    split at hs
    · next hcall =>
      obtain rfl := Except.ok.inj (Option.some.inj hs)
      exact .pushUnlock hcall
    · exact absurd hs (by simp)
  | popLoad =>
    simp only [step] at hs
    split at hs
    · next hcall =>
      split at hs
      · next hsize =>
        obtain rfl := Except.ok.inj (Option.some.inj hs)
        exact .popNothing hcall hsize
      · next hsize =>
        obtain rfl := Except.ok.inj (Option.some.inj hs)
        exact .popPass hcall hsize
    · exact absurd hs (by simp)
  | popLock =>
    simp only [step] at hs
    split at hs
    · next hcall hfree =>
      obtain rfl := Except.ok.inj (Option.some.inj hs)
      exact .popLock hcall hfree
    · exact absurd hs (by simp)
  | popMove residue =>
    simp only [step] at hs
    split at hs
    · next hcall hqueue =>
      obtain rfl := Except.ok.inj (Option.some.inj hs)
      exact .popMove residue hcall hqueue
    · exact absurd hs (by simp)
    · exact absurd hs (by simp)
  | popRemove =>
    simp only [step] at hs
    split at hs
    · next hcall hqueue =>
      obtain rfl := Except.ok.inj (Option.some.inj hs)
      exact .popRemove hcall hqueue
    · exact absurd hs (by simp)
    · exact absurd hs (by simp)
  | popCount =>
    simp only [step] at hs
    split at hs
    · next hcall =>
      obtain rfl := Except.ok.inj (Option.some.inj hs)
      exact .popCount hcall
    · exact absurd hs (by simp)
  | popUnlock =>
    simp only [step] at hs
    split at hs
    · next hcall =>
      obtain rfl := Except.ok.inj (Option.some.inj hs)
      exact .popUnlock hcall
    · exact absurd hs (by simp)

/-- A step that is not defined is at the front of an empty queue. -/
theorem empty_of_undefined {f : Fault} (hs : s.step i e = some (.error f)) :
    (s.call i = .popLocked ∨ ∃ value, s.call i = .popMoved value) ∧ s.queue = [] := by
  cases e with
  | popMove residue =>
    simp only [step] at hs
    split at hs
    · exact absurd hs (by simp)
    · next hcall hqueue => exact ⟨Or.inl hcall, hqueue⟩
    · exact absurd hs (by simp)
  | popRemove =>
    simp only [step] at hs
    split at hs
    · exact absurd hs (by simp)
    · next hcall hqueue => exact ⟨Or.inr ⟨_, hcall⟩, hqueue⟩
    · exact absurd hs (by simp)
  | popLoad =>
    simp only [step] at hs
    split at hs
    · split at hs
      · exact absurd hs (by simp)
      · exact absurd hs (by simp)
    · exact absurd hs (by simp)
  | _ =>
    simp only [step] at hs
    split at hs
    · exact absurd hs (by simp)
    · exact absurd hs (by simp)

end Step

/-! ### The invariant with one consumer -/

/-- The place of the thread that has the lock. -/
def holder (s : ThreadSafeQueue α ι) : QueueCall α := (s.mutex.map s.call).getD .idle

/-- What is known of the queue, given the place of the thread that has the lock. -/
def Sound (s : ThreadSafeQueue α ι) : QueueCall α → Prop
  | .pushQueued => s.size + 1 = BitVec.ofNat 64 s.queue.length ∧ s.queue ≠ [] ∧
      s.pushed = s.popped ++ s.queue
  | .popMoved value => s.size = BitVec.ofNat 64 s.queue.length ∧
      ∃ front rest, s.queue = front :: rest ∧ s.pushed = s.popped ++ value :: rest
  | .popRemoved _ => s.size = BitVec.ofNat 64 (s.queue.length + 1) ∧ s.pushed = s.popped ++ s.queue
  | _ => s.size = BitVec.ofNat 64 s.queue.length ∧ s.pushed = s.popped ++ s.queue

/-- The invariant of all states between steps. -/
structure Inv (consumers : Set ι) (s : ThreadSafeQueue α ι) : Prop where
  inside : ∀ i, (s.call i).inside = true ↔ s.mutex = some i
  consumer : ∀ i, (s.call i).pops = true → i ∈ consumers
  sound : s.Sound s.holder
  front : ∀ i, s.call i = .popPassed ∨ s.call i = .popLocked → s.queue ≠ []

theorem inv_start (consumers : Set ι) : (start : ThreadSafeQueue α ι).Inv consumers where
  inside := fun _ => ⟨fun h => absurd h Bool.false_ne_true, fun h => absurd h (by simp [start])⟩
  consumer := fun _ h => absurd h Bool.false_ne_true
  sound := ⟨rfl, rfl⟩
  front := fun _ h => absurd h (by simp [start])

namespace Inv

variable {consumers : Set ι} {s s' : ThreadSafeQueue α ι} {i : ι} {c : QueueCall α}

theorem holder_eq (hmutex : s.mutex = some i) : s.holder = s.call i := by
  rw [holder, hmutex]
  rfl

theorem sound_holder (hmutex : s.mutex = some i) (hcall : s.call i = c) (h : s.Sound c) :
    s.Sound s.holder := by
  rw [holder_eq hmutex, hcall]
  exact h

/-- What is known while no thread has the lock. -/
theorem sound_of_free (h : s.Inv consumers) (hfree : s.mutex = none) : s.Sound .idle := by
  have hsound := h.sound
  rw [holder, hfree] at hsound
  exact hsound

/-- A thread that has the lock knows what the queue is like. -/
theorem sound_of (h : s.Inv consumers) (hin : (s.call i).inside = true) : s.Sound (s.call i) := by
  rw [← holder_eq ((h.inside i).mp hin)]
  exact h.sound

/-- With one consumer, the lock is not with a thread in `try_pop` while it is at another
place. -/
theorem not_pops_holder (h : s.Inv consumers) (hone : consumers.Subsingleton)
    (hi : i ∈ consumers) (hout : (s.call i).inside = false) : s.holder.pops = false := by
  cases hmutex : s.mutex with
  | none =>
    rw [holder, hmutex]
    rfl
  | some j =>
    rw [holder_eq hmutex]
    by_contra hpops
    have hj := h.consumer j (Bool.eq_true_of_not_eq_false hpops)
    have hin := (h.inside j).mpr hmutex
    rw [hone hj hi, hout] at hin
    exact Bool.false_ne_true hin

/-- Where no front is being taken out, a size that is not zero is that of a queue that is not
empty. -/
theorem ne_nil_of_size (h : s.Inv consumers) (hpops : s.holder.pops = false) (hsize : s.size ≠ 0) :
    s.queue ≠ [] := by
  have hsound := h.sound
  cases hc : s.holder with
  | pushQueued =>
    rw [hc] at hsound
    exact hsound.2.1
  | popMoved value => rw [hc] at hpops; exact absurd hpops (by simp [QueueCall.pops])
  | popRemoved value => rw [hc] at hpops; exact absurd hpops (by simp [QueueCall.pops])
  | _ =>
    rw [hc] at hsound
    intro hnil
    apply hsize
    rw [hsound.1, hnil]
    rfl

/-- What has been pushed is what has been popped and what is left. -/
theorem popped_isPrefix (h : s.Inv consumers) : s.popped <+: s.pushed := by
  have hsound := h.sound
  cases hc : s.holder with
  | pushQueued =>
    rw [hc] at hsound
    exact ⟨_, hsound.2.2.symm⟩
  | popMoved value =>
    rw [hc] at hsound
    obtain ⟨-, front, rest, -, hpushed⟩ := hsound
    exact ⟨_, hpushed.symm⟩
  | _ =>
    rw [hc] at hsound
    exact ⟨_, hsound.2.symm⟩

/-- Nothing is found where there is nothing that has been counted. -/
theorem nothing_found (h : s.Inv consumers) (hpops : s.holder.pops = false) (hsize : s.size = 0)
    (hlen : s.queue.length < 2 ^ 64) :
    s.queue = [] ∨ ∃ j item, s.call j = .pushQueued ∧ s.queue = [item] := by
  have hsound := h.sound
  cases hc : s.holder with
  | pushQueued =>
    rw [hc] at hsound
    right
    obtain ⟨j, hmutex⟩ : ∃ j, s.mutex = some j := by
      cases hmutex : s.mutex with
      | none =>
        rw [holder, hmutex] at hc
        exact absurd hc (by simp)
      | some j => exact ⟨j, rfl⟩
    have hone : BitVec.ofNat 64 s.queue.length = BitVec.ofNat 64 1 := by
      rw [← hsound.1, hsize]
      rfl
    have hpos := List.length_pos_iff.mpr hsound.2.1
    have hlen := ((Counter.ofNat_inj_of_lt hpos (by omega)).mp hone.symm)
    obtain ⟨item, hitem⟩ := List.length_eq_one_iff.mp hlen
    exact ⟨j, item, by rw [← holder_eq hmutex, hc], hitem⟩
  | popMoved value => rw [hc] at hpops; exact absurd hpops (by simp [QueueCall.pops])
  | popRemoved value => rw [hc] at hpops; exact absurd hpops (by simp [QueueCall.pops])
  | _ =>
    rw [hc] at hsound
    left
    have hzero : BitVec.ofNat 64 s.queue.length = BitVec.ofNat 64 0 := by
      rw [← hsound.1, hsize]
      rfl
    exact List.eq_nil_of_length_eq_zero
      ((Counter.ofNat_inj_of_lt (Nat.zero_le _) (by omega)).mp hzero.symm)

variable [DecidableEq ι]

/-- A thread that has the lock goes on with it. -/
theorem goes_inside (h : s.Inv consumers) (hin : (s.call i).inside = true)
    (hc : c.inside = true) (j : ι) :
    (Function.update s.call i c j).inside = true ↔ s.mutex = some j := by
  by_cases hj : j = i
  · rw [hj, Function.update_self]
    exact iff_of_true hc ((h.inside i).mp hin)
  · rw [Function.update_of_ne hj]
    exact h.inside j

/-- A thread takes the lock. -/
theorem goes_in (h : s.Inv consumers) (hfree : s.mutex = none) (hc : c.inside = true) (j : ι) :
    (Function.update s.call i c j).inside = true ↔ some i = some j := by
  by_cases hj : j = i
  · rw [hj, Function.update_self]
    exact iff_of_true hc rfl
  · rw [Function.update_of_ne hj, h.inside j, hfree]
    exact iff_of_false (by simp) fun heq => hj (Option.some.inj heq).symm

/-- A thread gives the lock back. -/
theorem goes_out (h : s.Inv consumers) (hin : (s.call i).inside = true) (j : ι) :
    (Function.update s.call i .idle j).inside = true ↔ (none : Option ι) = some j := by
  refine iff_of_false ?_ (by simp)
  by_cases hj : j = i
  · rw [hj, Function.update_self]
    exact Bool.false_ne_true
  · rw [Function.update_of_ne hj, h.inside j, (h.inside i).mp hin]
    exact fun heq => hj (Option.some.inj heq).symm

/-- A thread without the lock goes on without it. -/
theorem stays_out (h : s.Inv consumers) (hout : (s.call i).inside = false)
    (hc : c.inside = false) (j : ι) :
    (Function.update s.call i c j).inside = true ↔ s.mutex = some j := by
  rw [← h.inside j]
  by_cases hj : j = i
  · rw [hj, Function.update_self, hout, hc]
  · rw [Function.update_of_ne hj]

/-- The lock stays where it is. -/
theorem holder_of_out (h : s.Inv consumers) (hout : (s.call i).inside = false) :
    ({ s with call := Function.update s.call i c } : ThreadSafeQueue α ι).holder = s.holder := by
  cases hmutex : s.mutex with
  | none =>
    rw [holder, holder, hmutex]
    rfl
  | some j =>
    have hne : j ≠ i := by
      rintro rfl
      exact absurd (((h.inside j).mpr hmutex).symm.trans hout) (by simp)
    rw [holder_eq hmutex]
    exact Function.update_of_ne hne ..

/-- The threads in `try_pop` are consumers. -/
theorem goes_consumer (h : s.Inv consumers) (hc : c.pops = true → i ∈ consumers) (j : ι)
    (hj : (Function.update s.call i c j).pops = true) : j ∈ consumers := by
  by_cases hij : j = i
  · rw [hij, Function.update_self] at hj
    rw [hij]
    exact hc hj
  · rw [Function.update_of_ne hij] at hj
    exact h.consumer j hj

/-- The front stays for those who have seen a size. -/
theorem goes_front (h : s.Inv consumers) (hc : c = .popPassed ∨ c = .popLocked → s.queue ≠ [])
    (j : ι) (hj : Function.update s.call i c j = .popPassed ∨
      Function.update s.call i c j = .popLocked) : s.queue ≠ [] := by
  by_cases hij : j = i
  · rw [hij, Function.update_self] at hj
    exact hc hj
  · rw [Function.update_of_ne hij] at hj
    exact h.front j hj

/-- **A step keeps the invariant**, with one consumer. -/
theorem step (h : s.Inv consumers) (hone : consumers.Subsingleton) {e : QueueStep α}
    (he : e = .popLoad → i ∈ consumers) (hs : s.step i e = some (.ok s')) : s'.Inv consumers := by
  -- what a thread with the lock knows, and that a thread in `try_pop` is a consumer
  have hlocked : ∀ {c : QueueCall α}, s.call i = c → c.inside = true →
      (s.call i).inside = true ∧ s.mutex = some i ∧ s.Sound c := by
    intro c hcall hc
    have hin : (s.call i).inside = true := by rw [hcall]; exact hc
    refine ⟨hin, (h.inside i).mp hin, ?_⟩
    rw [← hcall]
    exact h.sound_of hin
  have hpopper : ∀ {c : QueueCall α}, s.call i = c → c.pops = true → i ∈ consumers := by
    intro c hcall hc
    exact h.consumer i (by rw [hcall]; exact hc)
  cases steps hs with
  | pushLock item hcall hfree =>
    refine ⟨h.goes_in hfree rfl, h.goes_consumer (by simp [QueueCall.pops]), ?_,
      h.goes_front (by simp)⟩
    exact sound_holder rfl (Function.update_self ..) (h.sound_of_free hfree)
  | @pushQueue item hcall =>
    obtain ⟨hin, hmutex, hsize, hpushed⟩ := hlocked hcall rfl
    refine ⟨h.goes_inside hin rfl, h.goes_consumer (by simp [QueueCall.pops]), ?_,
      fun _ _ => by simp⟩
    refine sound_holder hmutex (Function.update_self ..) ⟨?_, by simp, ?_⟩
    · rw [hsize, List.length_append, List.length_singleton, BitVec.ofNat_add]
      rfl
    · rw [hpushed, List.append_assoc]
  | pushCount hcall =>
    obtain ⟨hin, hmutex, hsize, -, hpushed⟩ := hlocked hcall rfl
    refine ⟨h.goes_inside hin rfl, h.goes_consumer (by simp [QueueCall.pops]), ?_,
      h.goes_front (by simp)⟩
    exact sound_holder hmutex (Function.update_self ..) ⟨hsize, hpushed⟩
  | pushUnlock hcall =>
    obtain ⟨hin, -, hsound⟩ := hlocked hcall rfl
    exact ⟨h.goes_out hin, h.goes_consumer (by simp [QueueCall.pops]), hsound,
      h.goes_front (by simp)⟩
  | popNothing hcall hsize => exact h
  | popPass hcall hsize =>
    have hout : (s.call i).inside = false := by rw [hcall]; rfl
    have hi := he rfl
    refine ⟨h.stays_out hout rfl, h.goes_consumer fun _ => hi, ?_, ?_⟩
    · rw [h.holder_of_out hout]
      exact h.sound
    · exact h.goes_front fun _ => h.ne_nil_of_size (h.not_pops_holder hone hi hout) hsize
  | popLock hcall hfree =>
    refine ⟨h.goes_in hfree rfl, h.goes_consumer fun _ => hpopper hcall rfl, ?_,
      h.goes_front fun _ => h.front i (Or.inl hcall)⟩
    exact sound_holder rfl (Function.update_self ..) (h.sound_of_free hfree)
  | @popMove value rest residue hcall hqueue =>
    obtain ⟨hin, hmutex, hsize, hpushed⟩ := hlocked hcall rfl
    refine ⟨h.goes_inside hin rfl, h.goes_consumer fun _ => hpopper hcall rfl, ?_,
      fun _ _ => by simp⟩
    refine sound_holder hmutex (Function.update_self ..) ⟨?_, residue, rest, rfl, ?_⟩
    · rw [hsize, hqueue]
      rfl
    · rw [hpushed, hqueue]
  | @popRemove value front rest hcall hqueue =>
    obtain ⟨hin, hmutex, hsize, front', rest', hqueue', hpushed⟩ := hlocked hcall rfl
    obtain ⟨rfl, rfl⟩ := List.cons.inj (hqueue.symm.trans hqueue')
    have hi := hpopper hcall rfl
    refine ⟨h.goes_inside hin rfl, h.goes_consumer fun _ => hi, ?_, fun j hj => ?_⟩
    · refine sound_holder hmutex (Function.update_self ..) ⟨?_, ?_⟩
      · rw [hsize, hqueue]
        rfl
      · rw [hpushed, List.append_assoc]
        rfl
    · -- no other thread counts on the front
      exfalso
      have hpops : (Function.update s.call i (.popRemoved value) j).pops = true := by
        rcases hj with hj | hj
        · rw [show Function.update s.call i (.popRemoved value) j = .popPassed from hj]
          rfl
        · rw [show Function.update s.call i (.popRemoved value) j = .popLocked from hj]
          rfl
      obtain rfl := hone (h.goes_consumer (fun _ => hi) j hpops) hi
      simp at hj
  | @popCount value hcall =>
    obtain ⟨hin, hmutex, hsize, hpushed⟩ := hlocked hcall rfl
    refine ⟨h.goes_inside hin rfl, h.goes_consumer fun _ => hpopper hcall rfl, ?_,
      h.goes_front (by simp)⟩
    refine sound_holder hmutex (Function.update_self ..) ⟨?_, hpushed⟩
    rw [hsize, BitVec.ofNat_add]
    exact BitVec.add_sub_cancel ..
  | @popUnlock value hcall =>
    obtain ⟨hin, -, hsound⟩ := hlocked hcall rfl
    exact ⟨h.goes_out hin, h.goes_consumer (by simp [QueueCall.pops]), hsound,
      h.goes_front (by simp)⟩

/-- **A run keeps the invariant**, with one consumer. -/
theorem run {steps : List (ι × QueueStep α)} (hone : consumers.Subsingleton)
    (hconsumed : ConsumedBy consumers steps) (hrun : start.run steps = some s) :
    s.Inv consumers := by
  have hend := foldlM_some_invariant (P := fun rest (t : ThreadSafeQueue α ι) =>
    ConsumedBy consumers rest ∧ t.Inv consumers) ?_ steps _ ⟨hconsumed, inv_start consumers⟩ hrun
  · exact hend.2
  · rintro ⟨i, e⟩ rest t t' ⟨hrest, hinv⟩ hs -
    obtain ⟨r, hr, hok⟩ := Option.bind_eq_some_iff.mp hs
    cases r with
    | error f => exact absurd hok (by simp [Except.toOption])
    | ok t'' =>
      obtain rfl := Option.some.inj hok
      refine ⟨fun e' he' => hrest e' (List.mem_cons_of_mem _ he'), hinv.step hone ?_ hr⟩
      exact hrest (i, e) List.mem_cons_self

/-- With one consumer it is a queue. -/
theorem isFifo (h : s.Inv consumers) (hone : consumers.Subsingleton) : s.IsFifo consumers := by
  refine ⟨h.popped_isPrefix, fun hfree => (h.sound_of_free hfree).2, ?_, ?_⟩
  · intro i e f hs
    obtain ⟨hcall | ⟨value, hcall⟩, hnil⟩ := empty_of_undefined hs
    · exact h.front i (Or.inr hcall) hnil
    · have hsound := h.sound_of (i := i) (by rw [hcall]; rfl)
      rw [hcall] at hsound
      obtain ⟨-, front, rest, hqueue, -⟩ := hsound
      exact absurd (hnil.symm.trans hqueue) (by simp)
  · intro i hi hs hlen
    obtain ⟨hcall, hsize⟩ : s.call i = .idle ∧ s.size = 0 := by
      simp only [ThreadSafeQueue.step] at hs
      split at hs
      · next hcall =>
        split at hs
        · next hsize => exact ⟨hcall, hsize⟩
        · -- a thread that goes on is not idle
          have hcalls := congrArg ThreadSafeQueue.call (Except.ok.inj (Option.some.inj hs))
          have hself : Function.update s.call i .popPassed i = s.call i := congrFun hcalls i
          rw [hcall, Function.update_self] at hself
          exact absurd hself (by simp)
      · exact absurd hs (by simp)
    exact h.nothing_found (h.not_pops_holder hone hi (by rw [hcall]; rfl)) hsize hlen

end Inv

/-! ### Two consumers -/

/-- Two threads see the one item, and the first one takes it. -/
def racingPops (i j : ι) (item : α) : List (ι × QueueStep α) :=
  [(i, .pushLock item), (i, .pushQueue), (i, .pushCount), (i, .pushUnlock), (i, .popLoad),
    (j, .popLoad), (i, .popLock), (i, .popMove item), (i, .popRemove), (i, .popCount),
    (i, .popUnlock), (j, .popLock)]

/-- The second one then moves from the front of an empty queue. -/
theorem undefined_racingPops [DecidableEq ι] {i j : ι} (hne : i ≠ j) (item : α) :
    ∃ s, start.run (racingPops i j item) = some s ∧
      s.step j (.popMove item) = some (.error .undefinedBehaviour) := by
  have heval : (start.run (racingPops i j item)).bind (fun s => s.step j (.popMove item))
      = some (.error .undefinedBehaviour) := by
    simp [run, racingPops, step, start, Except.toOption, hne, hne.symm]
  exact Option.bind_eq_some_iff.mp heval

end ThreadSafeQueue

/-- **It is a queue exactly when there is at most one consumer.**  Let any number of threads
push and let only the given ones pop.  In all runs, however the steps of the threads follow
each other, items come out in the order in which they went in, none is lost, no step is
undefined and a pop finds nothing only where nothing has been counted, if and only if at most
one thread pops. -/
theorem fifo_iff_one_consumer {α ι : Type} [DecidableEq ι] [Inhabited α] (consumers : Set ι) :
    (∀ steps (s : ThreadSafeQueue α ι), ThreadSafeQueue.ConsumedBy consumers steps →
      ThreadSafeQueue.start.run steps = some s → s.IsFifo consumers) ↔
    consumers.Subsingleton := by
  constructor
  · intro h i hi j hj
    by_contra hne
    obtain ⟨s, hrun, hundefined⟩ := ThreadSafeQueue.undefined_racingPops hne (default : α)
    refine (h _ s ?_ hrun).defined j _ _ hundefined
    intro e he _
    simp only [ThreadSafeQueue.racingPops, List.mem_cons, List.not_mem_nil, or_false] at he
    rcases he with rfl | rfl | rfl | rfl | rfl | rfl | rfl | rfl | rfl | rfl | rfl | rfl
    all_goals assumption
  · intro hone steps s hconsumed hrun
    exact (ThreadSafeQueue.Inv.run hone hconsumed hrun).isFifo hone

end Exchange
