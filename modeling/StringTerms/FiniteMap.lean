/-!
# Finite maps

A finite map is a list of pairs with pairwise distinct keys, the most recent insertion first.
Looking up is a search of the list, inserting replaces an older pair of the same key, and `filter`
drops the pairs that fail a test without disturbing the order of the others; `erase` drops the pair
of a key, and `eraseAll` those of several keys in turn.  Each operation is characterized by what it
does to `get?`, and undoing an insertion by a filter gives back the very list that the filter left
before.
-/

namespace StringTerms

/-- A list of pairs in which every key occurs at most once. -/
structure FiniteMap (α β : Type) where
  entries : List (α × β)
  nodup : (entries.map Prod.fst).Nodup
deriving DecidableEq

namespace FiniteMap

variable {α β : Type}

/-- The map without pairs. -/
def empty : FiniteMap α β := ⟨[], List.nodup_nil⟩

instance : EmptyCollection (FiniteMap α β) := ⟨empty⟩

instance : Inhabited (FiniteMap α β) := ⟨empty⟩

/-- The number of pairs. -/
def size (m : FiniteMap α β) : Nat := m.entries.length

/-- Whether there are no pairs. -/
def isEmpty (m : FiniteMap α β) : Bool := m.entries.isEmpty

/-- The pairs that pass the test. -/
def filter (p : α → β → Bool) (m : FiniteMap α β) : FiniteMap α β where
  entries := m.entries.filter fun e => p e.1 e.2
  nodup := m.nodup.sublist (List.filter_sublist.map Prod.fst)

/-- Tests that agree on the pairs keep the same pairs. -/
theorem filter_congr {m : FiniteMap α β} {p q : α → β → Bool}
    (h : ∀ e ∈ m.entries, p e.1 e.2 = q e.1 e.2) :
  m.filter p = m.filter q
  := by
  simp only [filter, FiniteMap.mk.injEq]
  apply List.filter_congr h

/-- Two tests in turn are one test. -/
theorem filter_filter (m : FiniteMap α β) (p q : α → β → Bool) :
  (m.filter p).filter q = m.filter fun a b => q a b && p a b
  := by
  simp only [filter, List.filter_filter]

/-- A filter followed by a stricter one is the stricter one. -/
theorem filter_filter_of_imp {m : FiniteMap α β} {p q : α → β → Bool}
    (h : ∀ a b, q a b = true → p a b = true) :
  (m.filter p).filter q = m.filter q
  := by
  rw [filter_filter]
  apply filter_congr
  intro e _
  simpa only [Bool.and_eq_left_iff_imp] using h e.1 e.2

/-- Dropping nothing changes nothing. -/
theorem filter_eq_self {m : FiniteMap α β} {p : α → β → Bool}
    (h : ∀ e ∈ m.entries, p e.1 e.2 = true) :
  m.filter p = m
  := by
  obtain ⟨entries, nodup⟩ := m
  simp only [filter, FiniteMap.mk.injEq, List.filter_eq_self]
  exact h

variable [DecidableEq α]

/-- The value of a key. -/
def get? (m : FiniteMap α β) (a : α) : Option β := m.entries.lookup a

/-- The map in which `a` has the value `b` and every other key has its former value. -/
def insert (a : α) (b : β) (m : FiniteMap α β) : FiniteMap α β where
  entries := (a, b) :: m.entries.filter fun e => e.1 ≠ a
  nodup := by
    have others := m.nodup.sublist
      ((List.filter_sublist (p := fun e => decide (e.1 ≠ a))).map Prod.fst)
    simpa using others

/-- The map without the pair of `a`. -/
def erase (a : α) (m : FiniteMap α β) : FiniteMap α β := m.filter fun c _ => c ≠ a

/-- The map without the pairs of the keys, which are erased one after the other. -/
def eraseAll (as : List α) (m : FiniteMap α β) : FiniteMap α β :=
  as.foldl (fun m a => m.erase a) m

@[simp]
theorem get?_empty (a : α) :
  (∅ : FiniteMap α β).get? a = none
  := rfl

/-- A key has a value exactly when the pair of the two is in the list. -/
theorem get?_eq_some_iff {m : FiniteMap α β} {a : α} {b : β} :
  m.get? a = some b ↔ (a, b) ∈ m.entries
  := by
  obtain ⟨entries, nodup⟩ := m
  simp only [get?]
  induction entries with
  | nil => simp
  | cons e others ih =>
    obtain ⟨c, d⟩ := e
    simp only [List.map_cons, List.nodup_cons] at nodup
    by_cases h : a = c
    · subst h
      have absent : (a, b) ∉ others := fun mem => nodup.1 (List.mem_map_of_mem mem)
      simp [absent, eq_comm]
    · have differ : (a == c) = false := beq_eq_false_iff_ne.mpr h
      simp [List.lookup_cons, differ, h, ih nodup.2]

/-- An inserted pair is found, and every other key keeps its value. -/
theorem get?_insert (m : FiniteMap α β) (a c : α) (b : β) :
  (m.insert a b).get? c = if c = a then some b else m.get? c
  := by
  split
  case isTrue h => simp [get?_eq_some_iff, insert, h]
  case isFalse h =>
    apply Option.ext
    intro d
    simp [get?_eq_some_iff, insert, h]

/-- A key keeps its value exactly when the pair passes the test. -/
theorem get?_filter (m : FiniteMap α β) (p : α → β → Bool) (a : α) :
  (m.filter p).get? a = (m.get? a).filter (p a)
  := by
  apply Option.ext
  intro d
  simp [Option.filter_eq_some_iff, get?_eq_some_iff, filter]

/-- Erasing keys in turn drops the pairs of all of them, and leaves the others in their order. -/
theorem eraseAll_eq_filter (as : List α) (m : FiniteMap α β) :
  m.eraseAll as = m.filter fun a _ => a ∉ as
  := by
  induction as generalizing m with
  | nil => exact (filter_eq_self fun e _ => by simp).symm
  | cons c as ih =>
    calc m.eraseAll (c :: as)
      _ = (m.erase c).filter fun a _ => a ∉ as := ih (m.erase c)
      _ = m.filter fun a _ => a ∉ c :: as := by
        rw [erase, filter_filter]
        apply filter_congr
        intro e _
        simp [Bool.and_comm]

/-- What is found after erasing keys is what was found before, at another key. -/
theorem get?_eraseAll_eq_some_iff {m : FiniteMap α β} {as : List α} {a : α} {b : β} :
  (m.eraseAll as).get? a = some b ↔ m.get? a = some b ∧ a ∉ as
  := by
  rw [eraseAll_eq_filter, get?_filter, Option.filter_eq_some_iff, decide_eq_true_eq]

/-- An inserted pair that fails a test is dropped by it, if it replaces no pair that passes. -/
theorem filter_insert {m : FiniteMap α β} {p : α → β → Bool} {a : α} {b : β}
    (none : (m.filter p).get? a = none) (fails : p a b = false) :
  (m.insert a b).filter p = m.filter p
  := by
  have other : ∀ e ∈ m.entries, p e.1 e.2 = true → e.1 ≠ a := by
    rintro ⟨c, d⟩ mem passes rfl
    have found : (m.filter p).get? c = some d := by
      rw [get?_eq_some_iff]
      simp [filter, mem, passes]
    simp [none] at found
  obtain ⟨entries, nodup⟩ := m
  simp only [filter, insert, List.filter_cons, fails, FiniteMap.mk.injEq, List.filter_filter]
  apply List.filter_congr
  intro e mem
  simpa using other e mem

/-- A pair that passes a test is in every map that has the same pairs passing the test. -/
theorem get?_of_filter {m m' : FiniteMap α β} {p : α → β → Bool}
    (same : m'.filter p = m.filter p) {a : α} {b : β} (known : m.get? a = some b)
    (passes : p a b = true) :
  m'.get? a = some b
  := by
  have kept : (m'.filter p).get? a = some b := by
    rw [same, get?_filter, known, Option.filter_some, if_pos passes]
  rw [get?_filter, Option.filter_eq_some_iff] at kept
  apply kept.1

end FiniteMap

end StringTerms
