/-!
# Fixed-point text of a double

A finite double is a quotient of two integers, and its text with one decimal place is that of the
nearest multiple of a tenth; of two nearest multiples the one with the even last digit is taken.
-/

namespace StringTerms.FixedPoint

/-- The integer nearest to a quotient of natural numbers; a tie goes to the even neighbour. -/
def roundHalfEven (num den : Nat) : Nat :=
  let below := num / den
  let rest := 2 * (num % den)
  if rest < den then below
  else if den < rest then below + 1
  else below + below % 2

/-- A non-negative finite double as a quotient, read off its exponent and its significand. -/
def fraction (x : Float) : Nat × Nat :=
  let bits := x.toBits.toNat
  let exponent := (bits >>> 52) % (1 <<< 11)
  let mantissa := bits % (1 <<< 52)
  let significand := if exponent = 0 then mantissa else (1 <<< 52) + mantissa
  let scale := max exponent 1
  (significand <<< (scale - 1075), 1 <<< (1075 - scale))

/-- The text of a non-negative finite double with one decimal place. -/
def oneDecimal (x : Float) : String :=
  let (num, den) := fraction x
  let tenths := roundHalfEven (10 * num) den
  toString (tenths / 10) ++ "." ++ toString (tenths % 10)

/-- Rounding moves a quotient by at most one half. -/
theorem roundHalfEven_near (num den : Nat) (h : 0 < den) :
  2 * (den * roundHalfEven num den) ≤ 2 * num + den
    ∧ 2 * num ≤ 2 * (den * roundHalfEven num den) + den
  := by
  have split := Nat.div_add_mod num den
  have small := Nat.mod_lt num h
  have even : num / den % 2 < 2 := Nat.mod_lt _ (by decide)
  unfold roundHalfEven
  simp only []
  split
  case isTrue => omega
  case isFalse =>
    split
    case isTrue =>
      rw [Nat.mul_add]
      omega
    case isFalse =>
      obtain even | odd : num / den % 2 = 0 ∨ num / den % 2 = 1 := by omega
      · rw [even, Nat.add_zero]
        omega
      · rw [odd, Nat.mul_add]
        omega

end StringTerms.FixedPoint
