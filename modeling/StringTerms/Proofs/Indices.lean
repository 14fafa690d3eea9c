import StringTerms.ByteString.Slice

/-!
# Indices of 64 bits

A string shorter than the index bound can be sliced with indices of 64 bits.  An integer that is no
index is negative or past the end, sums of two indices may leave the 64 bits, and a part of a string
is given by two indices only if they are in order and not past the end.  The slicing functions are
computed in this way, without leaving the string, for all integers.
-/

namespace StringTerms.ByteString

variable {s r : ByteString} {i n o l : Int} {a b : UInt64}

/-! ### Indices -/

/-- The index that is equal to an integer, if there is one. -/
def index? (n : Int) : Option UInt64 :=
  if 0 ≤ n ∧ n < indexBound then some (UInt64.ofNat n.toNat) else none

/-- The length of a string that is shorter than the index bound. -/
def size (s : ByteString) : UInt64 := UInt64.ofNat s.length

/-- The sum of two indices, if it is an index. -/
def checkedSum (a b : UInt64) : Option UInt64 :=
  if a.toNat + b.toNat < UInt64.size then some (a + b) else none

/-- The sum of two indices, or the greatest index if the sum is none. -/
def saturatedSum (a b : UInt64) : UInt64 := (checkedSum a b).getD (UInt64.ofNat (UInt64.size - 1))

/-- The part of a string from an index up to another one, if these are in order and the string is
not shorter. -/
def part? (s : ByteString) (a b : UInt64) : Option ByteString :=
  if a.toNat ≤ b.toNat ∧ b.toNat ≤ s.length then
    some ((List.drop a.toNat s).take (b.toNat - a.toNat))
  else
    none

/-- An integer is an index, or it is negative or not below the bound. -/
theorem index?_cases (n : Int) :
  (∃ a, index? n = some a ∧ (a.toNat : Int) = n) ∨ index? n = none ∧ (n < 0 ∨ indexBound ≤ n)
  := by
  rw [index?]
  split
  case isTrue inside =>
    have below : n.toNat < UInt64.size := by
      have bound : indexBound = UInt64.size := rfl
      omega
    left
    refine ⟨_, rfl, ?_⟩
    rw [UInt64.toNat_ofNat_of_lt' below]
    omega
  case isFalse outside =>
    right
    refine ⟨rfl, ?_⟩
    omega

theorem toNat_size (short : s.length < indexBound) :
  (size s).toNat = s.length
  := by
  have bound : indexBound = UInt64.size := rfl
  apply UInt64.toNat_ofNat_of_lt'
  omega

theorem toNat_min (a b : UInt64) :
  (min a b).toNat = min a.toNat b.toNat
  := by
  have choice : min a b = if a ≤ b then a else b := rfl
  rw [choice]
  split
  case isTrue before => rw [Nat.min_eq_left (UInt64.le_iff_toNat_le.mp before)]
  case isFalse behind =>
    rw [UInt64.le_iff_toNat_le] at behind
    omega

theorem checkedSum_cases (a b : UInt64) :
  (∃ c, checkedSum a b = some c ∧ c.toNat = a.toNat + b.toNat)
    ∨ checkedSum a b = none ∧ UInt64.size ≤ a.toNat + b.toNat
  := by
  rw [checkedSum]
  split
  case isTrue fits =>
    left
    refine ⟨_, rfl, ?_⟩
    rw [UInt64.toNat_add, Nat.mod_eq_of_lt fits]
  case isFalse past => exact Or.inr ⟨rfl, Nat.le_of_not_lt past⟩

theorem toNat_saturatedSum (a b : UInt64) :
  (saturatedSum a b).toNat = min (a.toNat + b.toNat) (UInt64.size - 1)
  := by
  rw [saturatedSum]
  obtain ⟨c, sum, value⟩ | ⟨overflow, large⟩ := checkedSum_cases a b
  · have fits : c.toNat < UInt64.size := c.toNat_lt
    rw [sum, Option.getD_some]
    omega
  · rw [overflow, Option.getD_none, UInt64.toNat_ofNat_of_lt' (by decide)]
    omega

/-! ### Slices by indices -/

namespace Indexed

/-- The character at an integer that is an index. -/
def charAt? (s : ByteString) (i : Int) : Option UInt8 := do
  let a ← index? i
  s[a.toNat]?

/-- The slice whose offset, length and end are indices. -/
def slice? (s : ByteString) (o l : Int) : Option ByteString := do
  let a ← index? o
  let b ← index? l
  let stop ← checkedSum a b
  part? s a stop

/-- The total slice; there is no result if it is not a part of the string. -/
def slice (s : ByteString) (o l : Int) : Option ByteString :=
  match index? o, index? l with
  | some a, some b =>
    if size s ≤ a ∨ b = 0 then some [] else part? s a (min (saturatedSum a b) (size s))
  | _, _ => some []

/-- The part up to a number; there is no result if it is not a part of the string. -/
def take (i : Int) (s : ByteString) : Option ByteString :=
  match index? i with
  | some a => part? s 0 (min a (size s))
  | none => if i < 0 then some [] else some s

/-- The part from a number on; there is no result if it is not a part of the string. -/
def drop (i : Int) (s : ByteString) : Option ByteString :=
  match index? i with
  | some a => part? s (min a (size s)) (size s)
  | none => if i < 0 then some s else some []

theorem charAt?_eq (short : s.length < indexBound) :
  Indexed.charAt? s i = ByteString.charAt? s i
  := by
  rw [Indexed.charAt?, ByteString.charAt?]
  obtain ⟨a, index, rfl⟩ | ⟨none, outside⟩ := index?_cases i
  · rw [index, if_pos (Int.natCast_nonneg _), Int.toNat_natCast]
    rfl
  · rw [none]
    split
    case isTrue nonneg =>
      have past : s.length ≤ i.toNat := by omega
      rw [List.getElem?_eq_none past]
      rfl
    case isFalse => rfl

theorem slice?_eq (short : s.length < indexBound) :
  Indexed.slice? s o l = ByteString.slice? s o l
  := by
  have bound : indexBound = UInt64.size := rfl
  rw [Indexed.slice?, ByteString.slice?]
  obtain ⟨a, offset, rfl⟩ | ⟨none, outside⟩ := index?_cases o
  · obtain ⟨b, length, rfl⟩ | ⟨none, outside⟩ := index?_cases l
    · obtain ⟨c, sum, value⟩ | ⟨overflow, large⟩ := checkedSum_cases a b
      · simp only [offset, length, sum, Option.bind_eq_bind, Option.bind_some, part?, value]
        have count : a.toNat + b.toNat - a.toNat = b.toNat := by omega
        have same : a.toNat ≤ a.toNat + b.toNat ∧ a.toNat + b.toNat ≤ s.length
            ↔ 0 ≤ (a.toNat : Int) ∧ 0 ≤ (b.toNat : Int) ∧ (a.toNat : Int) + b.toNat ≤ s.length := by
          omega
        simp only [count, same, Int.toNat_natCast]
      · have past : ¬ (0 ≤ (a.toNat : Int) ∧ 0 ≤ (b.toNat : Int)
            ∧ (a.toNat : Int) + b.toNat ≤ s.length) := by omega
        simp only [offset, length, overflow, Option.bind_eq_bind, Option.bind_some, Option.bind_none]
        rw [if_neg past]
    · have past : ¬ (0 ≤ (a.toNat : Int) ∧ 0 ≤ l ∧ (a.toNat : Int) + l ≤ s.length) := by omega
      simp only [offset, none, Option.bind_eq_bind, Option.bind_some, Option.bind_none]
      rw [if_neg past]
  · have past : ¬ (0 ≤ o ∧ 0 ≤ l ∧ o + l ≤ s.length) := by omega
    simp only [none, Option.bind_eq_bind, Option.bind_none]
    rw [if_neg past]

/-- The end of a slice that starts within the string is clamped to the end of the string. -/
theorem part?_clamped (short : s.length < indexBound) (inside : a.toNat ≤ s.length) :
  part? s a (min (saturatedSum a b) (size s)) = some (List.take b.toNat (List.drop a.toNat s))
  := by
  have bound : indexBound = UInt64.size := rfl
  have stop : (min (saturatedSum a b) (size s)).toNat = min (a.toNat + b.toNat) s.length := by
    rw [toNat_min, toNat_saturatedSum, toNat_size short]
    omega
  have count : min (a.toNat + b.toNat) s.length - a.toNat
      = min b.toNat (List.drop a.toNat s).length := by
    rw [List.length_drop]
    omega
  have lies : a.toNat ≤ min (a.toNat + b.toNat) s.length
      ∧ min (a.toNat + b.toNat) s.length ≤ s.length := by
    omega
  rw [part?, stop, if_pos lies, count, ← List.take_eq_take_min]

theorem slice_eq (short : s.length < indexBound) :
  Indexed.slice s o l = some (ByteString.slice s o l)
  := by
  rw [Indexed.slice, ByteString.slice]
  obtain ⟨a, offset, rfl⟩ | ⟨none, outside⟩ := index?_cases o
  · obtain ⟨b, length, rfl⟩ | ⟨none, outside⟩ := index?_cases l
    · have full : b = 0 ↔ b.toNat = 0 := UInt64.toNat_inj.symm
      have bounded : (b.toNat : Int) < indexBound := Int.ofNat_lt.mpr b.toNat_lt
      simp only [offset, length, UInt64.le_iff_toNat_le, toNat_size short, full, Int.toNat_natCast]
      split
      case isTrue nothing =>
        split
        case isTrue valid =>
          have past : s.length ≤ a.toNat := by omega
          rw [List.drop_of_length_le past, List.take_nil]
        case isFalse => rfl
      case isFalse something =>
        rw [part?_clamped short (by omega), if_pos (by omega)]
    · have nothing : ¬ (0 ≤ (a.toNat : Int) ∧ 0 < l ∧ l < indexBound) := by omega
      simp only [offset, none]
      rw [if_neg nothing]
  · simp only [none]
    split
    case isTrue valid =>
      have past : s.length ≤ o.toNat := by omega
      rw [List.drop_of_length_le past, List.take_nil]
    case isFalse => rfl

theorem take_eq (short : s.length < indexBound) :
  Indexed.take i s = some (ByteString.take i s)
  := by
  rw [Indexed.take, ByteString.take]
  obtain ⟨a, index, rfl⟩ | ⟨none, outside⟩ := index?_cases i
  · have stop : (min a (size s)).toNat = min a.toNat s.length := by rw [toNat_min, toNat_size short]
    have lies : (0 : UInt64).toNat ≤ min a.toNat s.length ∧ min a.toNat s.length ≤ s.length := by
      exact ⟨Nat.zero_le _, Nat.min_le_right _ _⟩
    simp only [index, part?, stop, Int.toNat_natCast]
    rw [if_pos lies, List.take_eq_take_min (i := a.toNat)]
    rfl
  · simp only [none]
    split
    case isTrue negative => rw [Int.toNat_of_nonpos (by omega), List.take_zero]
    case isFalse => rw [List.take_of_length_le (by omega)]

theorem drop_eq (short : s.length < indexBound) :
  Indexed.drop i s = some (ByteString.drop i s)
  := by
  rw [Indexed.drop, ByteString.drop]
  obtain ⟨a, index, rfl⟩ | ⟨none, outside⟩ := index?_cases i
  · have start : (min a (size s)).toNat = min a.toNat s.length := by
      rw [toNat_min, toNat_size short]
    have lies : min a.toNat s.length ≤ s.length ∧ s.length ≤ s.length := by omega
    simp only [index, part?, start, toNat_size short, Int.toNat_natCast]
    have count : s.length - min a.toNat s.length
        = (List.drop (min a.toNat s.length) s).length := List.length_drop.symm
    rw [if_pos lies, count, List.take_length]
    by_cases inside : a.toNat ≤ s.length
    · rw [Nat.min_eq_left inside]
    · have past : s.length ≤ a.toNat := by omega
      rw [Nat.min_eq_right past, List.drop_length, List.drop_of_length_le past]
  · simp only [none]
    split
    case isTrue negative => rw [Int.toNat_of_nonpos (by omega), List.drop_zero]
    case isFalse => rw [List.drop_of_length_le (by omega)]

end Indexed

/-! ### Laws of slicing -/

/-- A slice lies between what is taken before it and what is left behind it. -/
theorem take_append_slice?_append_drop (found : slice? s o l = some r) :
  take o s ++ r ++ drop (o + l) s = s
  := by
  unfold slice? at found
  split at found
  case isTrue inside =>
    cases found
    have stop : (o + l).toNat = o.toNat + l.toNat := by omega
    rw [take, drop, stop, List.append_assoc, ← List.drop_drop, List.take_append_drop,
      List.take_append_drop]
  case isFalse => cases found

/-- Taking and dropping split a string, a slice is defined where it lies in the string and splits it
too, a character is a slice of length one, and the computation with indices of 64 bits has the same
results, without leaving the string. -/
theorem slicing_laws (short : s.length < indexBound) (i o l : Int) :
  (take i s ++ drop i s = s ∧ ((take i s).length : Int) = min (max i 0) s.length)
  ∧ ((slice? s o l).isSome ↔ 0 ≤ o ∧ 0 ≤ l ∧ o + l ≤ s.length)
  ∧ (∀ r, slice? s o l = some r →
    (r.length : Int) = l ∧ take o s ++ r ++ drop (o + l) s = s ∧ slice s o l = r)
  ∧ (∀ c, charAt? s i = some c ↔ slice? s i 1 = some [c])
  ∧ Indexed.take i s = some (take i s) ∧ Indexed.drop i s = some (drop i s)
  ∧ Indexed.charAt? s i = charAt? s i ∧ Indexed.slice? s o l = slice? s o l
  ∧ Indexed.slice s o l = some (slice s o l)
  := by
  refine ⟨⟨take_append_drop_self i s, length_take_eq i s⟩, slice?_isSome_iff s o l, ?_,
    charAt?_eq_some_iff s i, Indexed.take_eq short, Indexed.drop_eq short,
    Indexed.charAt?_eq short, Indexed.slice?_eq short, Indexed.slice_eq short⟩
  intro r found
  have length := length_of_slice? found
  have inside := (slice?_isSome_iff s o l).mp (by rw [found]; rfl)
  refine ⟨length, take_append_slice?_append_drop found, slice_eq_of_slice? found ?_⟩
  omega

/-- Taking more characters than an index can count, and a slice up to the end. -/
theorem slicing_laws_past_end :
  ([97, 98, 99] : ByteString).length < indexBound
  ∧ Indexed.take (2 * indexBound) [97, 98, 99] = some [97, 98, 99]
  ∧ slice? [97, 98, 99] 1 2 = some [98, 99]
  ∧ slice [97, 98, 99] 1 2 = [98, 99]
  := by
  have short : ([97, 98, 99] : ByteString).length < indexBound := by decide
  have found : slice? [97, 98, 99] 1 2 = some [98, 99] := by decide
  obtain ⟨-, -, laws, -, taken, -⟩ := slicing_laws short (2 * indexBound) 1 2
  refine ⟨short, ?_, found, (laws _ found).2.2⟩
  rw [taken]
  decide

end StringTerms.ByteString
