import StringTerms.Kind

/-!
# Search and replacement

An occurrence of a string in another is a position from which the first is a prefix of the second.
`occurrence?` finds the least one; containment, the index of a string, and the replacement of one
or of all occurrences are defined from it.  The empty string occurs at every position, the end
included.
-/

namespace StringTerms.ByteString

/-- The least position at which `sub` occurs in a string. -/
def occurrence? (sub : ByteString) : ByteString → Option Nat
  | [] => if sub.isEmpty then some 0 else none
  | c :: s =>
    if sub.isPrefixOf (c :: s) then some 0 else (occurrence? sub s).map (· + 1)

/-- Whether `sub` occurs in `s`. -/
def contains (sub s : ByteString) : Bool := (occurrence? sub s).isSome

/-- Whether `s` starts with `sub`. -/
def startsWith (sub s : ByteString) : Bool := sub.isPrefixOf s

/-- Whether `s` ends with `sub`. -/
def endsWith (sub s : ByteString) : Bool := sub.isSuffixOf s

/-- The least position from `start` on at which `sub` occurs in `s`, or -1 when there is none or
`start` is neither a position nor the end of `s`. -/
def indexOfFrom (s sub : ByteString) (start : Int) : Int :=
  if 0 ≤ start ∧ start ≤ s.length then
    match occurrence? sub (List.drop start.toNat s) with
    | some i => start + i
    | none => -1
  else
    -1

/-- The least position at which `sub` occurs in `s`, or -1. -/
def indexOf (s sub : ByteString) : Int := indexOfFrom s sub 0

/-- Replaces the first occurrence of `old`; the empty string is replaced at the start. -/
def replaceFirst (s old new : ByteString) : ByteString :=
  match occurrence? old s with
  | some i => List.take i s ++ new ++ List.drop (i + old.length) s
  | none => s

theorem occurrence?_nil_left (s : ByteString) :
  occurrence? [] s = some 0
  := by
  cases s <;> rfl

/-- An occurrence lies within the string. -/
theorem occurrence?_add_length_le {sub s : ByteString} {i : Nat} (h : occurrence? sub s = some i) :
  i + sub.length ≤ s.length
  := by
  induction s generalizing i with
  | nil =>
    unfold occurrence? at h
    split at h
    case isTrue empty =>
      cases h
      simp [List.isEmpty_iff.mp empty]
    case isFalse => cases h
  | cons c s ih =>
    unfold occurrence? at h
    split at h
    case isTrue starts =>
      cases h
      rw [Nat.zero_add]
      exact (List.isPrefixOf_iff_prefix.mp starts).length_le
    case isFalse =>
      obtain ⟨j, found, rfl⟩ := Option.map_eq_some_iff.mp h
      have bound := ih found
      simp only [List.length_cons]
      omega

/-- Replaces every occurrence of `old` from left to right, where the search goes on behind each
replaced occurrence.  The empty string is nowhere replaced. -/
def replaceAll (s old new : ByteString) : ByteString :=
  if _nonempty : 0 < old.length then
    match _found : occurrence? old s with
    | some i => List.take i s ++ new ++ replaceAll (List.drop (i + old.length) s) old new
    | none => s
  else
    s
termination_by s.length
decreasing_by
  have bound := occurrence?_add_length_le _found
  simp only [List.length_drop]
  omega

/-- A string occurs at the position found. -/
theorem prefix_drop_of_occurrence? {sub s : ByteString} {i : Nat}
    (h : occurrence? sub s = some i) :
  sub <+: List.drop i s
  := by
  induction s generalizing i with
  | nil =>
    unfold occurrence? at h
    split at h
    case isTrue empty => simp [List.isEmpty_iff.mp empty]
    case isFalse => cases h
  | cons c s ih =>
    unfold occurrence? at h
    split at h
    case isTrue starts =>
      cases h
      exact List.isPrefixOf_iff_prefix.mp starts
    case isFalse =>
      obtain ⟨j, found, rfl⟩ := Option.map_eq_some_iff.mp h
      exact ih found

/-- No position before the one found is an occurrence, and none is when nothing was found. -/
theorem not_prefix_drop_of_occurrence? {sub s : ByteString} {j : Nat} (inside : j ≤ s.length)
    (before : ∀ i, occurrence? sub s = some i → j < i) :
  ¬ sub <+: List.drop j s
  := by
  induction s generalizing j with
  | nil =>
    intro starts
    have empty : sub = [] := by simpa using starts
    subst empty
    exact absurd (before 0 rfl) (Nat.not_lt_zero j)
  | cons c s ih =>
    intro starts
    have later : ¬ sub <+: c :: s := by
      intro here
      have zero : occurrence? sub (c :: s) = some 0 := by
        rw [occurrence?, if_pos (List.isPrefixOf_iff_prefix.mpr here)]
      exact absurd (before 0 zero) (Nat.not_lt_zero j)
    have unfolded : occurrence? sub (c :: s) = (occurrence? sub s).map (· + 1) := by
      rw [occurrence?, if_neg (by simpa using later)]
    cases j with
    | zero => exact later starts
    | succ j =>
      refine ih (Nat.le_of_succ_le_succ inside) ?_ starts
      intro i found
      have bound := before (i + 1) (by rw [unfolded, found]; rfl)
      omega

end StringTerms.ByteString
