import Mathlib.Order.Defs.Unbundled
import Mathlib.Data.List.Basic
import Mathlib.Data.List.Pairwise
import Mathlib.Data.List.Perm.Basic

/-!
# Ordered maps of queues

An ordered map kept as the list of its entries, strictly increasing in the key.
The order is a parameter, so that one map type serves both a map sorted upwards
and one sorted downwards.  A map whose values are lists is also read as one
queue, the *flattened* map: its entries in key order, each value in its own
order, every element tagged with its key.

## Main definitions

* `SortedMap lt V` — the maps from `K` to `V` sorted by `lt`.
* `begin?`, `getD`, `modify`, `erase` — the first entry, the value under a key,
  the update of the value under a key (creating it when absent), the removal.
* `flatten` — the flattened map.
* `NoEmpty` — no key carries the empty list.
* `relabel` — the map with its keys and values renamed.

## Main results

* `flatten_split` — a key cuts the flattened map into what precedes the key,
  the value under the key and what follows; `modify` and `erase` act on the
  middle part alone.
* `flatten_sorted` — the flattened map never decreases in the key.
* `toList_modify_begin`, `toList_erase_begin` — `modify` and `erase` at the first
  key.
* `NoEmpty.ext` — without empty values, a map is what it is flattened to.
-/

/-- An ordered map: its entries, strictly increasing in the key. -/
@[ext]
structure SortedMap {K : Type*} (lt : K → K → Prop) (V : Type*) where
  /-- The entries, in key order. -/
  toList : List (K × V)
  /-- The keys increase strictly. -/
  sorted : toList.Pairwise fun a b => lt a.1 b.1

namespace SortedMap

variable {K V β : Type*} {lt : K → K → Prop}

/-! ### The operations -/

/-- The map with no entry. -/
def empty : SortedMap lt V := ⟨[], List.Pairwise.nil⟩

/-- The first entry. -/
def begin? (m : SortedMap lt V) : Option (K × V) := m.toList.head?

/-- The number of entries. -/
def size (m : SortedMap lt V) : ℕ := m.toList.length

section Operations

variable [DecidableEq K]

/-- The value under a key, `d` when there is none. -/
def getD (m : SortedMap lt V) (k : K) (d : V) : V :=
  ((m.toList.find? fun e => e.1 = k).map Prod.snd).getD d

/-- The map without the entry of a key. -/
def erase (m : SortedMap lt V) (k : K) : SortedMap lt V :=
  ⟨m.toList.filter fun e => e.1 ≠ k, m.sorted.filter _⟩

theorem toList_erase (m : SortedMap lt V) (k : K) :
    (m.erase k).toList = m.toList.filter fun e => e.1 ≠ k := rfl

variable [DecidableRel lt]

/-- `modify` on the list of entries. -/
def modifyList (lt : K → K → Prop) [DecidableRel lt] (k : K) (d : V) (f : V → V) :
    List (K × V) → List (K × V)
  | [] => [(k, f d)]
  | e :: l =>
      if lt k e.1 then (k, f d) :: e :: l
      else if k = e.1 then (k, f e.2) :: l
      else e :: modifyList lt k d f l

theorem mem_modifyList {k : K} {d : V} {f : V → V} {x : K × V} :
    ∀ {l : List (K × V)}, x ∈ modifyList lt k d f l → x.1 = k ∨ x ∈ l := by
  intro l
  induction l with
  | nil =>
    intro h
    rw [modifyList, List.mem_singleton] at h
    exact Or.inl (by rw [h])
  | cons e l ih =>
    intro h
    rw [modifyList] at h
    split at h
    · rcases List.mem_cons.mp h with rfl | h
      · exact Or.inl rfl
      · exact Or.inr h
    · split at h
      · rcases List.mem_cons.mp h with rfl | h
        · exact Or.inl rfl
        · exact Or.inr (List.mem_cons_of_mem _ h)
      · rcases List.mem_cons.mp h with rfl | h
        · exact Or.inr List.mem_cons_self
        · rcases ih h with h | h
          · exact Or.inl h
          · exact Or.inr (List.mem_cons_of_mem _ h)

variable [IsStrictTotalOrder K lt]

theorem pairwise_modifyList (k : K) (d : V) (f : V → V) : ∀ {l : List (K × V)},
    (l.Pairwise fun a b => lt a.1 b.1) →
      (modifyList lt k d f l).Pairwise fun a b => lt a.1 b.1 := by
  intro l
  induction l with
  | nil => intro _; exact List.pairwise_singleton _ _
  | cons e l ih =>
    intro h
    obtain ⟨he, hl⟩ := List.pairwise_cons.mp h
    rw [modifyList]
    split
    -- the key is before the first entry, at it, or behind it
    · next hk =>
      refine List.pairwise_cons.mpr ⟨fun x hx => ?_, h⟩
      rcases List.mem_cons.mp hx with rfl | hx
      · exact hk
      · exact trans_of lt hk (he x hx)
    · next hk =>
      split
      · next hke =>
        subst hke
        exact List.pairwise_cons.mpr ⟨he, hl⟩
      · next hke =>
        refine List.pairwise_cons.mpr ⟨fun x hx => ?_, ih hl⟩
        rcases mem_modifyList hx with hx | hx
        · rw [hx]
          rcases trichotomous_of lt k e.1 with h | h | h
          · exact absurd h hk
          · exact absurd h hke
          · exact h
        · exact he x hx

/-- Update the value under a key; an absent key is first given the value `d`. -/
def modify (m : SortedMap lt V) (k : K) (d : V) (f : V → V) : SortedMap lt V :=
  ⟨modifyList lt k d f m.toList, pairwise_modifyList k d f m.sorted⟩

theorem toList_modify (m : SortedMap lt V) (k : K) (d : V) (f : V → V) :
    (m.modify k d f).toList = modifyList lt k d f m.toList := rfl

/-- Erasing a key undoes any update under it. -/
theorem erase_modify (m : SortedMap lt V) (k : K) (d : V) (f : V → V) :
    (m.modify k d f).erase k = m.erase k := by
  have key : ∀ l : List (K × V), ((modifyList lt k d f l).filter fun e => e.1 ≠ k)
      = l.filter fun e => e.1 ≠ k := by
    intro l
    induction l with
    | nil => simp [modifyList]
    | cons e l ih =>
      rw [modifyList]
      split
      · rw [List.filter_cons_of_neg (by simp)]
      · split
        · next h =>
          subst h
          rw [List.filter_cons_of_neg (by simp), List.filter_cons_of_neg (by simp)]
        · rw [List.filter_cons, List.filter_cons, ih]
  ext1
  rw [toList_erase, toList_erase, toList_modify]
  exact key m.toList

end Operations

/-! ### The flattened map -/

/-- The entries of a list of queues as one queue of tagged elements. -/
def flattenList (l : List (K × List β)) : List (K × β) :=
  l.flatMap fun e => e.2.map fun x => (e.1, x)

/-- The flattened map: all the elements in key order, tagged with their key. -/
def flatten (m : SortedMap lt (List β)) : List (K × β) := flattenList m.toList

/-- No key carries the empty list. -/
def NoEmpty (m : SortedMap lt (List β)) : Prop := ∀ e ∈ m.toList, e.2 ≠ []

@[simp] theorem flattenList_nil : flattenList ([] : List (K × List β)) = [] := rfl

@[simp] theorem flattenList_cons (e : K × List β) (l : List (K × List β)) :
    flattenList (e :: l) = (e.2.map fun x => (e.1, x)) ++ flattenList l := rfl

@[simp] theorem flatten_empty : (empty : SortedMap lt (List β)).flatten = [] := rfl

theorem noEmpty_empty : (empty : SortedMap lt (List β)).NoEmpty := by
  intro e he
  exact absurd he List.not_mem_nil

theorem mem_flattenList {l : List (K × List β)} {k : K} {x : β} :
    (k, x) ∈ flattenList l ↔ ∃ v, (k, v) ∈ l ∧ x ∈ v := by
  simp only [flattenList, List.mem_flatMap, List.mem_map, Prod.mk.injEq]
  constructor
  · rintro ⟨e, he, y, hy, rfl, rfl⟩
    exact ⟨e.2, he, hy⟩
  · rintro ⟨v, hv, hx⟩
    exact ⟨(k, v), hv, x, hx, rfl, rfl⟩

theorem mem_flatten {m : SortedMap lt (List β)} {k : K} {x : β} :
    (k, x) ∈ m.flatten ↔ ∃ v, (k, v) ∈ m.toList ∧ x ∈ v := mem_flattenList

/-- Without empty values, the first key is the key of the first element. -/
theorem NoEmpty.begin_map_fst {m : SortedMap lt (List β)} (h : m.NoEmpty) :
    m.begin?.map Prod.fst = m.flatten.head?.map Prod.fst := by
  rw [begin?, flatten]
  rcases hl : m.toList with _ | ⟨⟨k, v⟩, l⟩
  · rfl
  · cases v with
    | nil => exact absurd rfl (h (k, []) (by rw [hl]; exact List.mem_cons_self))
    | cons x v => rfl

/-- Every key of a flattened list of queues is a key of the list. -/
theorem fst_mem_of_mem_flattenList {l : List (K × List β)} {a : K × β} (h : a ∈ flattenList l) :
    ∃ e ∈ l, e.1 = a.1 := by
  obtain ⟨v, hv, -⟩ := mem_flattenList.mp h
  exact ⟨(a.1, v), hv, rfl⟩

theorem flattenList_append (l l' : List (K × List β)) :
    flattenList (l ++ l') = flattenList l ++ flattenList l' := by
  simp [flattenList]

/-- The value under an absent key is the default. -/
theorem getD_of_forall_ne [DecidableEq K] {m : SortedMap lt V} {k : K} {d : V}
    (h : ∀ e ∈ m.toList, e.1 ≠ k) : m.getD k d = d := by
  have hnone : (m.toList.find? fun e => e.1 = k) = none := by
    rw [List.find?_eq_none]
    intro e he
    simpa using h e he
  rw [getD, hnone]
  rfl

/-- The value under a key that has an entry. -/
theorem getD_of_mem [DecidableEq K] [IsStrictTotalOrder K lt] {m : SortedMap lt V} {k : K}
    {v d : V} (h : (k, v) ∈ m.toList) : m.getD k d = v := by
  obtain ⟨pre, post, hl⟩ := List.append_of_mem h
  have hpre : (pre.find? fun e => e.1 = k) = none := by
    rw [List.find?_eq_none]
    intro e he
    have hlt : lt e.1 k := by
      have hs := m.sorted
      rw [hl, List.pairwise_append] at hs
      exact hs.2.2 e he (k, v) List.mem_cons_self
    intro hk
    rw [decide_eq_true_eq] at hk
    rw [hk] at hlt
    exact irrefl_of lt k hlt
  rw [getD, hl, List.find?_append, hpre]
  simp

section Split

variable [DecidableEq K] [DecidableRel lt] [IsStrictTotalOrder K lt]

/-- **A key splits the map**: the entries before the key, the value under it and
the entries after it, and what `modify` and `erase` make of them. -/
theorem toList_split (m : SortedMap lt (List β)) (k : K) :
    ∃ pre post : List (K × List β), (∀ e ∈ pre, lt e.1 k) ∧ (∀ e ∈ post, lt k e.1) ∧
      (m.toList = pre ++ (k, m.getD k []) :: post ∨ m.toList = pre ++ post ∧ m.getD k [] = []) ∧
      (∀ f, (m.modify k [] f).toList = pre ++ (k, f (m.getD k [])) :: post) ∧
      (m.erase k).toList = pre ++ post := by
  -- the induction is on the list of entries, with the lookup replaced by its result
  have key : ∀ l : List (K × List β), (l.Pairwise fun a b => lt a.1 b.1) →
      ∃ pre post : List (K × List β), ∃ v, (∀ e ∈ pre, lt e.1 k) ∧ (∀ e ∈ post, lt k e.1) ∧
        (l = pre ++ (k, v) :: post ∨ l = pre ++ post ∧ v = []) ∧
        (∀ f, modifyList lt k [] f l = pre ++ (k, f v) :: post) ∧
        (l.filter fun e => e.1 ≠ k) = pre ++ post := by
    intro l
    induction l with
    | nil =>
      intro _
      exact ⟨[], [], [], by simp, by simp, Or.inr ⟨rfl, rfl⟩, fun f => rfl, rfl⟩
    | cons e l ih =>
      intro h
      obtain ⟨he, hl⟩ := List.pairwise_cons.mp h
      rcases trichotomous_of lt k e.1 with hlt | heq | hgt
      · -- the key falls before the first entry
        have hpost : ∀ x ∈ e :: l, lt k x.1 := by
          intro x hx
          rcases List.mem_cons.mp hx with rfl | hx
          · exact hlt
          · exact trans_of lt hlt (he x hx)
        refine ⟨[], e :: l, [], by simp, hpost, Or.inr ⟨rfl, rfl⟩, fun f => ?_, ?_⟩
        · rw [modifyList, if_pos hlt]; rfl
        · rw [List.nil_append, List.filter_eq_self]
          intro x hx
          have hne : x.1 ≠ k := fun hxk => irrefl_of lt k (hxk ▸ hpost x hx)
          simpa using hne
      · -- the key is the first entry's
        subst heq
        refine ⟨[], l, e.2, by simp, he, Or.inl rfl, fun f => ?_, ?_⟩
        · rw [modifyList, if_neg (irrefl_of lt _), if_pos rfl]; rfl
        · rw [List.filter_cons_of_neg (by simp), List.nil_append, List.filter_eq_self]
          intro x hx
          have hne : x.1 ≠ e.1 := fun hxk => irrefl_of lt e.1 (hxk ▸ he x hx)
          simpa using hne
      · -- the key falls behind the first entry
        have hne : e.1 ≠ k := fun hk => irrefl_of lt k (hk ▸ hgt)
        have hnlt : ¬ lt k e.1 := fun hk => irrefl_of lt k (trans_of lt hk hgt)
        obtain ⟨pre, post, v, hpre, hpost, hcase, hmod, herase⟩ := ih hl
        refine ⟨e :: pre, post, v, ?_, hpost, ?_, fun f => ?_, ?_⟩
        · intro x hx
          rcases List.mem_cons.mp hx with rfl | hx
          · exact hgt
          · exact hpre x hx
        · rcases hcase with hcase | ⟨hcase, hv⟩
          · exact Or.inl (by rw [hcase]; rfl)
          · exact Or.inr ⟨by rw [hcase]; rfl, hv⟩
        · rw [modifyList, if_neg hnlt, if_neg (Ne.symm hne), hmod f]; rfl
        · rw [List.filter_cons_of_pos (by simpa using hne), herase]; rfl
  obtain ⟨pre, post, v, hpre, hpost, hcase, hmod, herase⟩ := key m.toList m.sorted
  have hv : m.getD k [] = v := by
    rcases hcase with hcase | ⟨hcase, hv⟩
    · exact getD_of_mem (by rw [hcase]; exact List.mem_append_right _ List.mem_cons_self)
    · rw [hv]
      apply getD_of_forall_ne
      intro e he
      rw [hcase, List.mem_append] at he
      intro hk
      rcases he with he | he
      · exact irrefl_of lt k (hk ▸ hpre e he)
      · exact irrefl_of lt k (hk ▸ hpost e he)
  refine ⟨pre, post, hpre, hpost, ?_, fun f => ?_, herase⟩
  · rw [hv]; exact hcase
  · rw [hv]; exact hmod f

/-- **A key splits the flattened map** into what precedes the key, the value
under the key and what follows the key; `modify` changes the middle part alone,
`erase` drops it. -/
theorem flatten_split (m : SortedMap lt (List β)) (k : K) :
    ∃ A B : List (K × β), (∀ a ∈ A, lt a.1 k) ∧ (∀ b ∈ B, lt k b.1) ∧
      m.flatten = A ++ ((m.getD k []).map fun x => (k, x)) ++ B ∧
      (∀ f, (m.modify k [] f).flatten = A ++ ((f (m.getD k [])).map fun x => (k, x)) ++ B) ∧
      (m.erase k).flatten = A ++ B := by
  obtain ⟨pre, post, hpre, hpost, hcase, hmod, herase⟩ := m.toList_split k
  refine ⟨flattenList pre, flattenList post, ?_, ?_, ?_, fun f => ?_, ?_⟩
  · intro a ha
    obtain ⟨e, he, hea⟩ := fst_mem_of_mem_flattenList ha
    exact hea ▸ hpre e he
  · intro b hb
    obtain ⟨e, he, heb⟩ := fst_mem_of_mem_flattenList hb
    exact heb ▸ hpost e he
  · rcases hcase with hcase | ⟨hcase, hv⟩
    · rw [flatten, hcase, flattenList_append, flattenList_cons, List.append_assoc]
    · rw [flatten, hcase, flattenList_append, hv, List.map_nil, List.append_nil]
  · rw [flatten, hmod, flattenList_append, flattenList_cons, List.append_assoc]
  · rw [flatten, herase, flattenList_append]

/-- What a flattened map holds under a key. -/
theorem filter_flatten (m : SortedMap lt (List β)) (k : K) :
    (m.flatten.filter fun a => a.1 = k) = (m.getD k []).map fun x => (k, x) := by
  obtain ⟨A, B, hA, hB, hm, -, -⟩ := m.flatten_split k
  have hA' : (A.filter fun a => a.1 = k) = [] := by
    rw [List.filter_eq_nil_iff]
    intro a ha h
    rw [decide_eq_true_eq] at h
    exact irrefl_of lt k (h ▸ hA a ha)
  have hB' : (B.filter fun a => a.1 = k) = [] := by
    rw [List.filter_eq_nil_iff]
    intro b hb h
    rw [decide_eq_true_eq] at h
    exact irrefl_of lt k (h ▸ hB b hb)
  rw [hm, List.filter_append, List.filter_append, hA', hB', List.nil_append, List.append_nil,
    List.filter_eq_self]
  intro a ha
  obtain ⟨x, -, rfl⟩ := List.mem_map.mp ha
  simp

omit [DecidableRel lt] in
/-- The first entry heads the list of entries. -/
theorem exists_toList_of_begin {m : SortedMap lt V} {e : K × V} (h : m.begin? = some e) :
    ∃ l, m.toList = e :: l ∧ ∀ d, m.getD e.1 d = e.2 := by
  rw [begin?] at h
  rcases hl : m.toList with _ | ⟨e', l⟩
  · rw [hl] at h
    exact absurd h (by simp)
  · rw [hl, List.head?_cons] at h
    obtain rfl := Option.some.inj h
    exact ⟨l, rfl, fun d => getD_of_mem (by rw [hl]; exact List.mem_cons_self)⟩

/-- `modify` at the first key. -/
theorem toList_modify_begin {m : SortedMap lt V} {k : K} {v d : V} {l : List (K × V)}
    (h : m.toList = (k, v) :: l) (f : V → V) : (m.modify k d f).toList = (k, f v) :: l := by
  rw [toList_modify, h, modifyList, if_neg (irrefl_of lt k), if_pos rfl]

omit [DecidableRel lt] in
/-- `erase` at the first key. -/
theorem toList_erase_begin {m : SortedMap lt V} {k : K} {v : V} {l : List (K × V)}
    (h : m.toList = (k, v) :: l) : (m.erase k).toList = l := by
  have hs := m.sorted
  rw [h, List.pairwise_cons] at hs
  rw [toList_erase, h, List.filter_cons_of_neg (by simp), List.filter_eq_self]
  intro e he
  have hne : e.1 ≠ k := fun hk => irrefl_of lt k (hk ▸ hs.1 e he)
  simpa using hne

/-- `modify` keeps the map free of empty values when the new value is not empty. -/
theorem NoEmpty.modify {m : SortedMap lt (List β)} (h : m.NoEmpty) (k : K) {f : List β → List β}
    (hf : f (m.getD k []) ≠ []) : (m.modify k [] f).NoEmpty := by
  obtain ⟨pre, post, -, -, hcase, hmod, -⟩ := m.toList_split k
  intro e he
  rw [hmod f, List.mem_append, List.mem_cons] at he
  have hmem : e ∈ pre ∨ e ∈ post → e ∈ m.toList := by
    intro h
    rcases hcase with hcase | ⟨hcase, -⟩ <;> rw [hcase] <;> simp only [List.mem_append,
      List.mem_cons] <;> tauto
  rcases he with he | rfl | he
  · exact h e (hmem (Or.inl he))
  · exact hf
  · exact h e (hmem (Or.inr he))

end Split

/-- `erase` keeps the map free of empty values. -/
theorem NoEmpty.erase [DecidableEq K] {m : SortedMap lt (List β)} {k : K}
    (h : ∀ e ∈ m.toList, e.1 ≠ k → e.2 ≠ []) : (m.erase k).NoEmpty := by
  intro e he
  rw [toList_erase, List.mem_filter] at he
  exact h e he.1 (by simpa using he.2)

/-- The flattened map never decreases in the key. -/
theorem flatten_sorted [IsStrictTotalOrder K lt] (m : SortedMap lt (List β)) :
    m.flatten.Pairwise fun a b => ¬ lt b.1 a.1 := by
  have key : ∀ l : List (K × List β), (l.Pairwise fun a b => lt a.1 b.1) →
      (flattenList l).Pairwise fun a b => ¬ lt b.1 a.1 := by
    intro l
    induction l with
    | nil => intro _; exact List.Pairwise.nil
    | cons e l ih =>
      intro h
      obtain ⟨he, hl⟩ := List.pairwise_cons.mp h
      rw [flattenList_cons, List.pairwise_append]
      refine ⟨?_, ih hl, ?_⟩
      -- within a key all keys are equal; across keys they increase
      · rw [List.pairwise_map]
        exact List.pairwise_of_forall fun _ _ => irrefl_of lt e.1
      · intro a ha b hb hlt
        obtain ⟨x, -, rfl⟩ := List.mem_map.mp ha
        obtain ⟨e', he', hb'⟩ := fst_mem_of_mem_flattenList hb
        exact irrefl_of lt e.1 (trans_of lt (he e' he') (hb' ▸ hlt))
  exact key m.toList m.sorted

/-- Without empty values, the first key is the least key of an element. -/
theorem NoEmpty.begin_eq_some_iff [IsStrictTotalOrder K lt] {m : SortedMap lt (List β)}
    (h : m.NoEmpty) {k : K} :
    m.begin?.map Prod.fst = some k ↔
      (∃ x, (k, x) ∈ m.flatten) ∧ ∀ a ∈ m.flatten, ¬ lt a.1 k := by
  rw [h.begin_map_fst]
  have hs := m.flatten_sorted
  rcases hq : m.flatten with _ | ⟨a, q⟩
  · simp
  · rw [hq, List.pairwise_cons] at hs
    have hfirst : ∀ b ∈ a :: q, ¬ lt b.1 a.1 := by
      intro b hb
      rcases List.mem_cons.mp hb with rfl | hb
      · exact irrefl_of lt b.1
      · exact hs.1 b hb
    simp only [List.head?_cons, Option.map_some, Option.some.injEq]
    constructor
    · rintro rfl
      exact ⟨⟨a.2, List.mem_cons_self⟩, hfirst⟩
    · rintro ⟨⟨x, hx⟩, hall⟩
      -- neither key is before the other
      rcases trichotomous_of lt a.1 k with hlt | heq | hlt
      · exact absurd hlt (hall a List.mem_cons_self)
      · exact heq
      · exact absurd hlt (hfirst (k, x) hx)

/-- Without empty values, only the map with no element has no first key. -/
theorem NoEmpty.begin_eq_none_iff {m : SortedMap lt (List β)} (h : m.NoEmpty) :
    m.begin?.map Prod.fst = none ↔ m.flatten = [] := by
  rw [h.begin_map_fst, Option.map_eq_none_iff, List.head?_eq_none_iff]

/-- Without empty values, an entry is a key with the elements under it. -/
theorem NoEmpty.mem_toList_iff [DecidableEq K] [IsStrictTotalOrder K lt]
    {m : SortedMap lt (List β)} (h : m.NoEmpty) {e : K × List β} :
    e ∈ m.toList ↔ e.2 ≠ [] ∧ m.getD e.1 [] = e.2 := by
  constructor
  · exact fun he => ⟨h e he, getD_of_mem he⟩
  · rintro ⟨hne, hget⟩
    by_contra hnot
    -- a key with elements has an entry, and the entry holds them
    have hex : ∃ e' ∈ m.toList, e'.1 = e.1 := by
      by_contra hall
      rw [not_exists] at hall
      refine hne (hget.symm.trans (getD_of_forall_ne fun e' he' hk => ?_))
      exact hall e' ⟨he', hk⟩
    obtain ⟨⟨k, v⟩, he', hk⟩ := hex
    obtain rfl : k = e.1 := hk
    have hv : v = e.2 := (getD_of_mem he').symm.trans hget
    rw [hv] at he'
    exact hnot he'

/-- **Without empty values, a map is what it is flattened to.** -/
theorem NoEmpty.ext [DecidableEq K] [DecidableRel lt] [IsStrictTotalOrder K lt]
    {m m' : SortedMap lt (List β)} (h : m.NoEmpty) (h' : m'.NoEmpty)
    (hflat : m.flatten = m'.flatten) : m = m' := by
  have hget : ∀ k, m.getD k [] = m'.getD k [] := by
    intro k
    have hk := m.filter_flatten k
    rw [hflat, m'.filter_flatten k] at hk
    exact (List.map_injective_iff.mpr (fun _ _ hx => (Prod.mk.inj hx).2) hk).symm
  have hnodup : ∀ m : SortedMap lt (List β), m.toList.Nodup := by
    intro m
    refine m.sorted.imp ?_
    rintro a b hlt rfl
    exact irrefl_of lt a.1 hlt
  have hperm : m.toList.Perm m'.toList := by
    rw [List.perm_ext_iff_of_nodup (hnodup m) (hnodup m')]
    intro e
    rw [h.mem_toList_iff, h'.mem_toList_iff, hget]
  -- two sorted lists with the same entries are equal
  ext1
  refine hperm.eq_of_pairwise (fun a b _ _ hab hba => ?_) m.sorted m'.sorted
  exact absurd (trans_of lt hab hba) (irrefl_of lt a.1)

/-! ### Renaming -/

section Relabel

variable {K' W γ : Type*} {lt' : K' → K' → Prop} (keep : K → Bool) (f : K → K')
  (hf : ∀ a b, keep a = true → keep b = true → lt a b → lt' (f a) (f b))

/-- The map with its keys and values renamed, without the keys that are not kept; on the
others the renaming respects the orders. -/
def relabel (m : SortedMap lt V) (g : V → W) : SortedMap lt' W where
  toList := (m.toList.filter fun e => keep e.1).map fun e => (f e.1, g e.2)
  sorted := by
    rw [List.pairwise_map]
    refine List.Pairwise.imp_of_mem (fun ha hb hlt => ?_) (m.sorted.filter _)
    exact hf _ _ (List.mem_filter.mp ha).2 (List.mem_filter.mp hb).2 hlt

/-- When the keys of all elements are kept, so are the elements. -/
theorem flatten_relabel {m : SortedMap lt (List β)} (h : ∀ a ∈ m.flatten, keep a.1 = true)
    (g : β → γ) :
    (m.relabel keep f hf (List.map g)).flatten = m.flatten.map fun a => (f a.1, g a.2) := by
  have key : ∀ l : List (K × List β), (∀ a ∈ flattenList l, keep a.1 = true) →
      flattenList ((l.filter fun e => keep e.1).map fun e => (f e.1, e.2.map g))
        = (flattenList l).map fun a => (f a.1, g a.2) := by
    intro l
    induction l with
    | nil => intro _; rfl
    | cons e l ih =>
      intro hl
      rw [flattenList_cons] at hl
      have hrest := ih fun a ha => hl a (List.mem_append_right _ ha)
      cases hk : keep e.1 with
      | true =>
        rw [List.filter_cons_of_pos (by simpa using hk), List.map_cons, flattenList_cons, hrest,
          flattenList_cons, List.map_append]
        simp
      | false =>
        -- a key that is not kept has no elements
        have hnil : e.2 = [] := by
          refine List.eq_nil_iff_forall_not_mem.mpr fun x hx => ?_
          have hkept := hl (e.1, x) (List.mem_append_left _ (List.mem_map.mpr ⟨x, hx, rfl⟩))
          rw [hk] at hkept
          exact Bool.false_ne_true hkept
        rw [List.filter_cons_of_neg (by simp [hk]), hrest, flattenList_cons, hnil]
        rfl
  exact key m.toList h

theorem NoEmpty.relabel {m : SortedMap lt (List β)} (h : m.NoEmpty) (g : β → γ) :
    (m.relabel keep f hf (List.map g)).NoEmpty := by
  intro e he
  obtain ⟨e', he', rfl⟩ := List.mem_map.mp he
  simpa using h e' (List.mem_filter.mp he').1

end Relabel

end SortedMap
