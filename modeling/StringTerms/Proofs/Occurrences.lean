import Mathlib.Order.Bounds.Basic
import StringTerms.ByteString.Slice
import StringTerms.Proofs.Strings

/-!
# Occurrences

A string occurs in another one at the positions from which it is a prefix of the rest, the end
included.  The index of a string from an offset on is the least of these positions that is not
before the offset, where there is one.  Containment, the index, and the replacement of the first
occurrence speak of the same occurrences.
-/

namespace StringTerms.ByteString

variable {s sub new : ByteString} {start i : Int} {k : Nat}

/-- The positions of `s`, from `start` on and with the end, at which `sub` occurs. -/
def occurrences (s sub : ByteString) (start : Int) : Set Int :=
  {i | start ≤ i ∧ i ≤ s.length ∧ sub <+: drop i s}

/-- What is left of a string behind a position is left of its part behind an earlier one. -/
theorem drop_eq_drop_drop (nonneg : 0 ≤ start) (later : start ≤ i) :
  drop i s = List.drop (i - start).toNat (drop start s)
  := by
  have sum : start.toNat + (i - start).toNat = i.toNat := by omega
  rw [drop, drop, List.drop_drop, sum]

/-- The positions from a position on at which a string occurs are those at which it occurs in the
part from this position on. -/
theorem mem_occurrences_iff (nonneg : 0 ≤ start) (inside : start ≤ s.length) :
  i ∈ occurrences s sub start
    ↔ start ≤ i ∧ (i - start).toNat ≤ (drop start s).length
      ∧ sub <+: List.drop (i - start).toNat (drop start s)
  := by
  have length : (drop start s).length = s.length - start.toNat := List.length_drop
  constructor
  · rintro ⟨later, before, occurs⟩
    rw [drop_eq_drop_drop nonneg later] at occurs
    refine ⟨later, ?_, occurs⟩
    omega
  · rintro ⟨later, before, occurs⟩
    rw [← drop_eq_drop_drop nonneg later] at occurs
    refine ⟨later, ?_, occurs⟩
    omega

/-- What is found from a position on is the least occurrence. -/
theorem isLeast_occurrences (nonneg : 0 ≤ start) (inside : start ≤ s.length)
    (found : occurrence? sub (drop start s) = some k) :
  IsLeast (occurrences s sub start) (start + k)
  := by
  have steps : (start + k - start).toNat = k := by omega
  constructor
  · rw [mem_occurrences_iff nonneg inside, steps]
    have bound := occurrence?_add_length_le found
    refine ⟨?_, ?_, prefix_drop_of_occurrence? found⟩ <;> omega
  · intro i mem
    obtain ⟨later, before, occurs⟩ := (mem_occurrences_iff nonneg inside).mp mem
    by_contra earlier
    apply not_prefix_drop_of_occurrence? before _ occurs
    intro j found'
    rw [found] at found'
    cases found'
    omega

/-- Where nothing is found there is no occurrence. -/
theorem occurrences_eq_empty (nonneg : 0 ≤ start) (inside : start ≤ s.length)
    (missing : occurrence? sub (drop start s) = none) :
  occurrences s sub start = ∅
  := by
  rw [Set.eq_empty_iff_forall_notMem]
  intro i mem
  obtain ⟨-, before, occurs⟩ := (mem_occurrences_iff nonneg inside).mp mem
  apply not_prefix_drop_of_occurrence? before _ occurs
  intro j found
  rw [missing] at found
  cases found

/-! ### The index -/

/-- The index is the least occurrence from the offset on, or else there is none, or the offset is
not within the string, and then the index is -1. -/
theorem indexOfFrom_cases (s sub : ByteString) (start : Int) :
  0 ≤ start ∧ start ≤ s.length ∧ IsLeast (occurrences s sub start) (indexOfFrom s sub start)
  ∨ (start < 0 ∨ s.length < start ∨ occurrences s sub start = ∅) ∧ indexOfFrom s sub start = -1
  := by
  by_cases within : 0 ≤ start ∧ start ≤ s.length
  · obtain ⟨nonneg, inside⟩ := within
    rw [indexOfFrom, if_pos ⟨nonneg, inside⟩]
    cases found : occurrence? sub (List.drop start.toNat s) with
    | some k => exact Or.inl ⟨nonneg, inside, isLeast_occurrences nonneg inside found⟩
    | none => exact Or.inr ⟨Or.inr (Or.inr (occurrences_eq_empty nonneg inside found)), rfl⟩
  · rw [indexOfFrom, if_neg within]
    right
    constructor
    · omega
    · rfl

theorem indexOf_of_found (found : occurrence? sub s = some k) :
  indexOf s sub = k
  := by
  simp [indexOf, indexOfFrom, found]

theorem indexOf_of_missing (missing : occurrence? sub s = none) :
  indexOf s sub = -1
  := by
  simp [indexOf, indexOfFrom, missing]

/-! ### Containment and replacement -/

/-- What occurs in a string is a part of it. -/
theorem contains_iff_exists_append :
  contains sub s = true ↔ ∃ u v, s = u ++ sub ++ v
  := by
  rw [contains]
  constructor
  · intro occurs
    obtain ⟨k, found⟩ := Option.isSome_iff_exists.mp occurs
    obtain ⟨v, rest⟩ := prefix_drop_of_occurrence? found
    use List.take k s, v
    rw [List.append_assoc, rest, List.take_append_drop]
  · rintro ⟨u, v, rfl⟩
    by_contra missing
    have nothing := Option.not_isSome_iff_eq_none.mp missing
    have inside : u.length ≤ (u ++ sub ++ v).length := by
      simp only [List.length_append]
      omega
    have occurs : sub <+: List.drop u.length (u ++ sub ++ v) := by
      rw [List.append_assoc, List.drop_left]
      apply List.prefix_append
    apply not_prefix_drop_of_occurrence? inside _ occurs
    intro i found
    rw [nothing] at found
    cases found

theorem contains_iff_indexOf_ne :
  contains sub s = true ↔ indexOf s sub ≠ -1
  := by
  rw [contains]
  cases found : occurrence? sub s with
  | none => simp [indexOf_of_missing found]
  | some k =>
      rw [indexOf_of_found found]
      simp

theorem startsWith_iff_exists_append :
  startsWith sub s = true ↔ ∃ v, s = sub ++ v
  := by
  rw [startsWith, List.isPrefixOf_iff_prefix]
  simp only [List.IsPrefix, eq_comm]

theorem endsWith_iff_exists_append :
  endsWith sub s = true ↔ ∃ u, s = u ++ sub
  := by
  rw [endsWith, List.isSuffixOf_iff_suffix]
  simp only [List.IsSuffix, eq_comm]

/-- The part at the index is replaced, where there is one. -/
theorem replaceFirst_eq_ite (s sub new : ByteString) :
  replaceFirst s sub new
    = if indexOf s sub = -1 then s
      else take (indexOf s sub) s ++ new ++ drop (indexOf s sub + sub.length) s
  := by
  rw [replaceFirst]
  cases found : occurrence? sub s with
  | none => rw [if_pos (indexOf_of_missing found)]
  | some k =>
      have position : ((k : Int) + sub.length).toNat = k + sub.length := by omega
      have nonneg : (k : Int) ≠ -1 := by omega
      rw [indexOf_of_found found, if_neg nonneg, take, drop, position, Int.toNat_natCast]

/-- The index from an offset on, containment, and replacement agree on where a string occurs, and so
do what starts and what ends a string. -/
theorem searches_agree (s sub new : ByteString) (start : Int) :
  (0 ≤ start ∧ start ≤ s.length ∧ IsLeast (occurrences s sub start) (indexOfFrom s sub start)
    ∨ (start < 0 ∨ s.length < start ∨ occurrences s sub start = ∅)
      ∧ indexOfFrom s sub start = -1)
  ∧ (contains sub s = true ↔ ∃ u v, s = u ++ sub ++ v)
  ∧ (contains sub s = true ↔ indexOf s sub ≠ -1)
  ∧ (startsWith sub s = true ↔ ∃ v, s = sub ++ v)
  ∧ (endsWith sub s = true ↔ ∃ u, s = u ++ sub)
  ∧ (replaceFirst s sub new
    = if indexOf s sub = -1 then s
      else take (indexOf s sub) s ++ new ++ drop (indexOf s sub + sub.length) s)
  ∧ replaceFirst s [] new = new ++ s
  := ⟨indexOfFrom_cases s sub start, contains_iff_exists_append, contains_iff_indexOf_ne,
    startsWith_iff_exists_append, endsWith_iff_exists_append, replaceFirst_eq_ite s sub new,
    Strings.replaceFirst_nil s new⟩

end StringTerms.ByteString
