import StringTerms.Kind

/-!
# Slices of a string

Positions, offsets and lengths are unbounded integers, so each function says what happens to the
left of a string and past its end.  `charAt?` and `slice?` are undefined there, `take` and `drop`
clamp to the string, and `slice` follows the total `str.substr` of SMT-LIB 2.
-/

namespace StringTerms.ByteString

/-- Every offset and every length that can select characters is below this bound, the first number
that takes more than 64 bits. -/
def indexBound : Int := 0x10000000000000000

/-- The character at position `i`, if `i` is a position of the string. -/
def charAt? (s : ByteString) (i : Int) : Option UInt8 :=
  if 0 ≤ i then s[i.toNat]? else none

/-- The slice of length `l` at offset `o`, if all of it lies in the string. -/
def slice? (s : ByteString) (o l : Int) : Option ByteString :=
  if 0 ≤ o ∧ 0 ≤ l ∧ o + l ≤ s.length then
    some ((List.drop o.toNat s).take l.toNat)
  else
    none

/-- The part of the slice of length `l` at offset `o` that lies in the string.  Nothing is
selected by a negative offset, by a length that is not positive, or by a length that is not below
the index bound. -/
def slice (s : ByteString) (o l : Int) : ByteString :=
  if 0 ≤ o ∧ 0 < l ∧ l < indexBound then
    (List.drop o.toNat s).take l.toNat
  else
    []

/-- The first `i` characters: none for a negative `i`, all past the end. -/
def take (i : Int) (s : ByteString) : ByteString := List.take i.toNat s

/-- All but the first `i` characters: all for a negative `i`, none past the end. -/
def drop (i : Int) (s : ByteString) : ByteString := List.drop i.toNat s

/-- Cutting a string loses nothing. -/
theorem take_append_drop_self (i : Int) (s : ByteString) :
  take i s ++ drop i s = s
  := List.take_append_drop i.toNat s

theorem length_take_eq (i : Int) (s : ByteString) :
  ((take i s).length : Int) = min (max i 0) s.length
  := by
  simp only [take, List.length_take]
  omega

/-- A slice is defined exactly when its offset and its length are not negative and its end is not
past the end of the string. -/
theorem slice?_isSome_iff (s : ByteString) (o l : Int) :
  (slice? s o l).isSome ↔ 0 ≤ o ∧ 0 ≤ l ∧ o + l ≤ s.length
  := by
  unfold slice?
  split <;> simp_all

/-- A slice has the length that was asked for. -/
theorem length_of_slice? {s r : ByteString} {o l : Int} (h : slice? s o l = some r) :
  (r.length : Int) = l
  := by
  unfold slice? at h
  split at h
  case isTrue inside =>
    cases h
    simp only [List.length_take, List.length_drop]
    omega
  case isFalse => simp at h

/-- Where a slice below the index bound is defined, `slice` agrees with it. -/
theorem slice_eq_of_slice? {s r : ByteString} {o l : Int}
    (h : slice? s o l = some r) (bounded : l < indexBound) :
  slice s o l = r
  := by
  unfold slice? at h
  split at h
  case isTrue inside =>
    cases h
    unfold slice
    by_cases positive : 0 < l
    · simp [inside.1, positive, bounded]
    · have zero : l = 0 := by omega
      simp [zero]
  case isFalse => simp at h

/-- The character at a position is the only one of the slice of length one there. -/
theorem charAt?_eq_some_iff (s : ByteString) (i : Int) (c : UInt8) :
  charAt? s i = some c ↔ slice? s i 1 = some [c]
  := by
  unfold charAt? slice?
  by_cases nonneg : 0 ≤ i
  · by_cases inside : i.toNat < s.length
    · have fits : i + 1 ≤ (s.length : Int) := by omega
      have one : (List.drop i.toNat s).take 1 = [s[i.toNat]] := by
        rw [List.drop_eq_getElem_cons inside]
        rfl
      simp [nonneg, fits, inside, one]
    · have outside : ¬ i + 1 ≤ (s.length : Int) := by omega
      simp [outside, inside]
  · simp [nonneg]

end StringTerms.ByteString
