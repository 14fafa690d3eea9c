import Mathlib.Algebra.BigOperators.Fin
import StringTerms.ByteString.Numeral

/-!
# Decimal numerals and their values

The value of a string of digits is positional: each digit counts a power of ten that is given by the
number of digits behind it.  Every natural number is the value of exactly one numeral without
leading zeros, and this is the numeral that it is written as.  So reading takes back writing, and
writing takes back reading where the numeral that is read has no leading zeros.
-/

namespace StringTerms.ByteString

variable {s t : ByteString} {c : UInt8} {n d k : Nat}

/-! ### The value of a string of digits -/

/-- Reading digits from a value on shifts this value. -/
theorem foldl_digits (s : ByteString) (n : Nat) :
  s.foldl (fun value c => 10 * value + (c.toNat - 48)) n = n * 10 ^ s.length + digitsValue s
  := by
  -- Both sides read the string, from `n` on and from zero on, so the start has to be general.
  induction s generalizing n with
  | nil => simp [digitsValue]
  | cons c s ih =>
      rw [digitsValue, List.foldl_cons, List.foldl_cons, ih, ih (10 * 0 + _), List.length_cons,
        Nat.pow_succ]
      grind

theorem digitsValue_cons (c : UInt8) (s : ByteString) :
  digitsValue (c :: s) = (c.toNat - 48) * 10 ^ s.length + digitsValue s
  := by
  rw [digitsValue, List.foldl_cons, Nat.mul_zero, Nat.zero_add, foldl_digits]

theorem digitsValue_append (s t : ByteString) :
  digitsValue (s ++ t) = digitsValue s * 10 ^ t.length + digitsValue t
  := by
  rw [digitsValue, List.foldl_append, foldl_digits]
  rfl

/-- The positional value of a string of digits. -/
def positionalValue (s : ByteString) : Nat :=
  ∑ i : Fin s.length, (s[i].toNat - 48) * 10 ^ (s.length - 1 - i)

theorem digitsValue_eq_positionalValue (s : ByteString) :
  digitsValue s = positionalValue s
  := by
  induction s with
  | nil => rfl
  | cons c s ih =>
      have split : positionalValue (c :: s)
          = ∑ i : Fin (s.length + 1), ((c :: s)[i].toNat - 48) * 10 ^ (s.length - i) := rfl
      rw [digitsValue_cons, ih, split, Fin.sum_univ_succ, positionalValue]
      congr 1
      apply Finset.sum_congr rfl
      intro i _
      have shifted : s.length - 1 - i.val = s.length - i.succ.val := by
        rw [Fin.val_succ]
        omega
      rw [shifted]
      rfl

/-! ### Numerals -/

/-- A string of digits that is not empty. -/
structure Numeral (s : ByteString) : Prop where
  nonempty : s ≠ []
  digits : ∀ c ∈ s, 48 ≤ c ∧ c ≤ 57

/-- A numeral that is the digit zero or does not start with it. -/
structure Shortest (s : ByteString) : Prop extends Numeral s where
  leading : s = [48] ∨ s.head? ≠ some 48

theorem isNumeral_iff :
  isNumeral s = true ↔ Numeral s
  := by
  have digits : s.all isDigit = true ↔ ∀ c ∈ s, 48 ≤ c ∧ c ≤ 57 := by simp [isDigit]
  have nonempty : (!s.isEmpty) = true ↔ s ≠ [] := by simp
  rw [isNumeral, Bool.and_eq_true_iff, nonempty, digits]
  exact ⟨fun h => ⟨h.1, h.2⟩, fun h => ⟨h.nonempty, h.digits⟩⟩

theorem not_numeral_iff :
  ¬ Numeral s ↔ s = [] ∨ ∃ c ∈ s, c < 48 ∨ 57 < c
  := by
  constructor
  · intro other
    by_contra none
    rw [not_or] at none
    apply other ⟨none.1, _⟩
    intro c mem
    by_contra outside
    rw [not_and_or, UInt8.not_le, UInt8.not_le] at outside
    exact none.2 ⟨c, mem, outside⟩
  · rintro (rfl | ⟨c, mem, below | above⟩) numeral
    · exact numeral.nonempty rfl
    · exact UInt8.not_le.mpr below (numeral.digits c mem).1
    · exact UInt8.not_le.mpr above (numeral.digits c mem).2

theorem Numeral.append (hs : Numeral s) (ht : Numeral t) :
  Numeral (s ++ t)
  where
    nonempty := by simp [hs.nonempty]
    digits c mem := (List.mem_append.mp mem).elim (hs.digits c) (ht.digits c)

/-! ### Writing -/

/-- The character of a digit. -/
def digit (d : Nat) : UInt8 := UInt8.ofNat (48 + d)

theorem toNat_digit (small : d < 10) :
  (digit d).toNat = 48 + d
  := by
  apply UInt8.toNat_ofNat_of_lt'
  have size : UInt8.size = 256 := rfl
  omega

theorem digit_bounds (small : d < 10) :
  48 ≤ digit d ∧ digit d ≤ 57
  := by
  rw [UInt8.le_iff_toNat_le, UInt8.le_iff_toNat_le, toNat_digit small]
  have zero : (48 : UInt8).toNat = 48 := rfl
  have nine : (57 : UInt8).toNat = 57 := rfl
  omega

theorem exists_digit (bounds : 48 ≤ c ∧ c ≤ 57) :
  ∃ d < 10, c = digit d
  := by
  have lower : 48 ≤ c.toNat := UInt8.le_iff_toNat_le.mp bounds.1
  have upper : c.toNat ≤ 57 := UInt8.le_iff_toNat_le.mp bounds.2
  refine ⟨c.toNat - 48, by omega, ?_⟩
  apply UInt8.toNat_inj.mp
  rw [toNat_digit (by omega)]
  omega

theorem ofInt_natCast (n : Nat) :
  ofInt n = (Nat.toDigits 10 n).map fun c => c.toNat.toUInt8
  := by
  rw [ofInt, if_neg (by omega), Int.toNat_natCast]

theorem ofInt_of_lt_ten (small : d < 10) :
  ofInt d = [digit d]
  := by
  rw [ofInt_natCast, Nat.toDigits_of_lt_base small, List.map_singleton,
    Nat.toNat_digitChar_of_lt_ten small]
  rfl

/-- The last digit of a number is written last. -/
theorem ofInt_ten_mul_add (positive : 0 < n) (small : d < 10) :
  ofInt ((10 * n + d : Nat) : Int) = ofInt n ++ [digit d]
  := by
  rw [← ofInt_of_lt_ten small, ofInt_natCast, ofInt_natCast, ofInt_natCast,
    ← Nat.toDigits_append_toDigits (by decide) positive small, List.map_append]

theorem digitsValue_digit (small : d < 10) :
  digitsValue [digit d] = d
  := by
  rw [digitsValue_cons, toNat_digit small]
  simp [digitsValue]

/-- A number is the value of the numeral that it is written as. -/
theorem digitsValue_ofInt (n : Nat) :
  digitsValue (ofInt n) = n
  := by
  induction n using Nat.base_induction 10 (by decide) with
  | single d small => rw [ofInt_of_lt_ten small, digitsValue_digit small]
  | digit n d small positive ih =>
      rw [ofInt_ten_mul_add positive small, digitsValue_append, ih, digitsValue_digit small]
      simp [Nat.mul_comm]

theorem numeral_ofInt (n : Nat) :
  Numeral (ofInt n)
  := by
  induction n using Nat.base_induction 10 (by decide) with
  | single d small =>
      rw [ofInt_of_lt_ten small]
      exact ⟨by simp, by simpa using digit_bounds small⟩
  | digit n d small positive ih =>
      rw [ofInt_ten_mul_add positive small]
      exact ih.append ⟨by simp, by simpa using digit_bounds small⟩

/-- A positive number is written without leading zeros. -/
theorem head?_ofInt (positive : 0 < n) :
  (ofInt n).head? ≠ some 48
  := by
  induction n using Nat.base_induction 10 (by decide) with
  | single d small =>
      rw [ofInt_of_lt_ten small, List.head?_cons, ne_eq, Option.some_inj]
      intro zero
      have value := toNat_digit small
      rw [zero] at value
      have code : (48 : UInt8).toNat = 48 := rfl
      omega
  | digit m d small nonzero ih =>
      rw [ofInt_ten_mul_add nonzero small,
        List.head?_append_of_ne_nil _ (numeral_ofInt m).nonempty]
      exact ih nonzero

theorem shortest_ofInt (n : Nat) :
  Shortest (ofInt n)
  := by
  refine ⟨numeral_ofInt n, ?_⟩
  obtain rfl | positive := Nat.eq_zero_or_pos n
  · exact Or.inl rfl
  · exact Or.inr (head?_ofInt positive)

/-- Digits behind the numeral of a positive number are the last digits of another number. -/
theorem ofInt_append (positive : 0 < n) (digits : ∀ c ∈ s, 48 ≤ c ∧ c ≤ 57) :
  ofInt n ++ s = ofInt ((n * 10 ^ s.length + digitsValue s : Nat) : Int)
  := by
  induction s generalizing n with
  | nil => simp [digitsValue]
  | cons c s ih =>
      obtain ⟨d, small, rfl⟩ := exists_digit (digits c List.mem_cons_self)
      have rest := fun c mem => digits c (List.mem_cons_of_mem _ mem)
      have value : (10 * n + d) * 10 ^ s.length + digitsValue s
          = n * 10 ^ (digit d :: s).length + digitsValue (digit d :: s) := by
        rw [digitsValue_cons, toNat_digit small, List.length_cons, Nat.pow_succ]
        grind
      rw [← value, ← ih (by omega) rest, ofInt_ten_mul_add positive small, List.append_assoc,
        List.singleton_append]

/-- A numeral without leading zeros is the one that its value is written as. -/
theorem Shortest.ofInt_digitsValue (shortest : Shortest s) :
  ofInt (digitsValue s) = s
  := by
  obtain rfl | head := shortest.leading
  · rfl
  cases s with
  | nil => exact absurd rfl shortest.nonempty
  | cons c s =>
      obtain ⟨d, small, rfl⟩ := exists_digit (shortest.digits c List.mem_cons_self)
      have rest := fun c mem => shortest.digits c (List.mem_cons_of_mem _ mem)
      have positive : 0 < d := by
        apply Nat.pos_of_ne_zero
        rintro rfl
        exact head rfl
      rw [digitsValue_cons, toNat_digit small, Nat.add_sub_cancel_left,
        ← ofInt_append positive rest, ofInt_of_lt_ten small, List.singleton_append]

/-! ### Reading -/

theorem toInt_of_numeral (numeral : Numeral s) :
  toInt s = positionalValue s
  := by
  rw [toInt, if_pos (isNumeral_iff.mpr numeral), digitsValue_eq_positionalValue]

theorem toInt_of_not_numeral (other : ¬ Numeral s) :
  toInt s = -1
  := by
  rw [toInt, if_neg (fun is => other (isNumeral_iff.mp is))]

theorem toInt_eq_neg_one_iff :
  toInt s = -1 ↔ ¬ Numeral s
  := by
  constructor
  · intro none numeral
    rw [toInt_of_numeral numeral] at none
    omega
  · exact toInt_of_not_numeral

theorem toInt_append (hs : Numeral s) (ht : Numeral t) :
  toInt (s ++ t) = toInt s * 10 ^ t.length + toInt t
  := by
  rw [toInt_of_numeral hs, toInt_of_numeral ht, toInt_of_numeral (hs.append ht),
    ← digitsValue_eq_positionalValue, digitsValue_append, digitsValue_eq_positionalValue,
    digitsValue_eq_positionalValue]
  simp

theorem ofInt_of_neg {n : Int} (negative : n < 0) :
  ofInt n = []
  := if_pos negative

/-- Reading takes back writing. -/
theorem toInt_ofInt (n : Nat) :
  toInt (ofInt n) = n
  := by
  rw [toInt_of_numeral (numeral_ofInt n), ← digitsValue_eq_positionalValue, digitsValue_ofInt]

/-- Writing takes back reading where nothing is read, or a numeral without leading zeros. -/
theorem ofInt_toInt_iff :
  ofInt (toInt s) = s ↔ s = [] ∨ Shortest s
  := by
  constructor
  · intro same
    by_cases numeral : Numeral s
    · rw [toInt_of_numeral numeral] at same
      exact Or.inr (same ▸ shortest_ofInt _)
    · rw [toInt_of_not_numeral numeral, ofInt_of_neg (by decide)] at same
      exact Or.inl same.symm
  · rintro (rfl | shortest)
    · rfl
    · rw [toInt_of_numeral shortest.toNumeral, ← digitsValue_eq_positionalValue,
        shortest.ofInt_digitsValue]

/-- A number has at most as many digits as the power of ten that it is below has zeros. -/
theorem length_ofInt_le_iff (positive : 0 < k) :
  (ofInt n).length ≤ k ↔ n < 10 ^ k
  := by
  rw [ofInt_natCast, List.length_map, Nat.length_toDigits_le_iff (by decide) positive]

theorem length_ofInt_eq_iff (n : Int) (several : 2 ≤ k) :
  (ofInt n).length = k ↔ 10 ^ (k - 1) ≤ n ∧ n < 10 ^ k
  := by
  obtain negative | ⟨m, rfl⟩ := (Int.lt_or_le n 0).imp_right Int.eq_ofNat_of_zero_le
  · have power : (0 : Int) < 10 ^ (k - 1) := Int.pow_pos (by decide)
    rw [ofInt_of_neg negative, List.length_nil]
    omega
  · have shorter := length_ofInt_le_iff (n := m) (k := k - 1) (by omega)
    have within := length_ofInt_le_iff (n := m) (k := k) (by omega)
    norm_cast
    omega

/-! ### Other printers and readers -/

/-- A printer writes every natural number as the numeral without leading zeros whose positional
value it is, and a reader gives the positional value of every numeral.  Nothing is said about what
the reader makes of other strings, such as those with a sign. -/
structure Exact (print : Int → ByteString) (read : ByteString → Option Int) : Prop where
  print_shortest : ∀ n : Nat, Shortest (print n)
  print_value : ∀ n : Nat, positionalValue (print n) = n
  read_numeral : ∀ s, Numeral s → read s = some (positionalValue s)

namespace Exact

variable {print : Int → ByteString} {read : ByteString → Option Int}

theorem ofInt_eq (exact : Exact print read) (n : Int) :
  ofInt n = if n < 0 then [] else print n
  := by
  split
  case isTrue negative => exact ofInt_of_neg negative
  case isFalse nonneg =>
    obtain ⟨m, rfl⟩ := Int.eq_ofNat_of_zero_le (Int.not_lt.mp nonneg)
    rw [← (exact.print_shortest m).ofInt_digitsValue, digitsValue_eq_positionalValue,
      exact.print_value]

theorem toInt_eq (exact : Exact print read) (s : ByteString) :
  toInt s = if s.isEmpty || !s.all isDigit then -1 else (read s).getD (-1)
  := by
  have guard : (s.isEmpty || !s.all isDigit) = !isNumeral s := by simp [isNumeral]
  rw [guard]
  by_cases numeral : Numeral s
  · rw [toInt_of_numeral numeral, isNumeral_iff.mpr numeral, exact.read_numeral s numeral]
    rfl
  · have other : isNumeral s = false := by
      rw [← Bool.not_eq_true, isNumeral_iff]
      exact numeral
    rw [toInt_of_not_numeral numeral, other]
    rfl

end Exact

/-- Reading takes back writing, and writing takes back reading from numerals without leading zeros;
what is read is positional, and the number of digits that are written is given by powers of ten.
Exact printers and readers behave in this way behind a test for numerals. -/
theorem decimals_round_trip :
  (∀ n : Int, 0 ≤ n ∧ toInt (ofInt n) = n ∨ n < 0 ∧ ofInt n = [] ∧ toInt (ofInt n) = -1)
  ∧ (∀ s, toInt s = -1 ↔ s = [] ∨ ∃ c ∈ s, c < 48 ∨ 57 < c)
  ∧ (∀ s, Numeral s → toInt s = positionalValue s)
  ∧ (∀ s t, Numeral s → Numeral t → toInt (s ++ t) = toInt s * 10 ^ t.length + toInt t)
  ∧ (∀ s, ofInt (toInt s) = s ↔ s = [] ∨ Shortest s)
  ∧ (∀ (n : Int) (k : Nat), 2 ≤ k →
    ((ofInt n).length = k ↔ 10 ^ (k - 1) ≤ n ∧ n < 10 ^ k))
  ∧ ∀ print read, Exact print read →
    (∀ n, ofInt n = if n < 0 then [] else print n)
    ∧ ∀ s, toInt s = if s.isEmpty || !s.all isDigit then -1 else (read s).getD (-1)
  := by
  refine ⟨?_, fun s => toInt_eq_neg_one_iff.trans not_numeral_iff, fun s => toInt_of_numeral,
    fun s t => toInt_append, fun s => ofInt_toInt_iff, fun n k => length_ofInt_eq_iff n, ?_⟩
  · intro n
    obtain negative | ⟨m, rfl⟩ := (Int.lt_or_le n 0).imp_right Int.eq_ofNat_of_zero_le
    · right
      rw [ofInt_of_neg negative]
      exact ⟨negative, rfl, rfl⟩
    · exact Or.inl ⟨Int.natCast_nonneg m, toInt_ofInt m⟩
  · intro print read exact
    exact ⟨exact.ofInt_eq, exact.toInt_eq⟩

/-- A reader that skips a plus sign in front. -/
def readSigned : ByteString → Option Int
  | 43 :: s => some (positionalValue s)
  | s => some (positionalValue s)

/-- Such a reader is exact, but a sign is not accepted. -/
theorem decimals_round_trip_sign :
  Exact ofInt readSigned
  ∧ readSigned [43, 53] = some 5 ∧ toInt [43, 53] = -1
  ∧ Numeral [48, 52, 50] ∧ readSigned [48, 52, 50] = some 42 ∧ toInt [48, 52, 50] = 42
  := by
  have exact : Exact ofInt readSigned := by
    refine ⟨shortest_ofInt, ?_, ?_⟩
    · intro n
      rw [← digitsValue_eq_positionalValue, digitsValue_ofInt]
    · intro s numeral
      unfold readSigned
      split
      case h_1 s =>
        have sign := (numeral.digits 43 List.mem_cons_self).1
        exact absurd sign (by decide)
      case h_2 => rfl
  have numeral : Numeral [48, 52, 50] := isNumeral_iff.mp rfl
  have behind := (decimals_round_trip.2.2.2.2.2.2 _ _ exact).2
  have signed : toInt [43, 53] = -1 := (behind [43, 53]).trans (by decide +kernel)
  have plain : toInt [48, 52, 50] = 42 := (behind [48, 52, 50]).trans (by decide +kernel)
  exact ⟨exact, by decide +kernel, signed, numeral, by decide +kernel, plain⟩

end StringTerms.ByteString
