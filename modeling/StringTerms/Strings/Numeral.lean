import StringTerms.ByteString.Numeral
import StringTerms.Strings.Basic

/-!
# Numerals and character codes

The value of a numeral, the numeral of a number, the code of a character, and the test for a
decimal digit, which compares the code.
-/

namespace StringTerms.Strings

/-- The value of a numeral, and -1 for every other string. -/
def toInt (s : Value .string) : Builder (Value .int) :=
  compute .toInt (.one s) fun (.one cs) => some (ByteString.toInt cs)

/-- The numeral of a natural number, and the empty string for a negative number. -/
def ofInt (n : Value .int) : Builder (Value .string) :=
  compute .ofInt (.one n) fun (.one x) => some (ByteString.ofInt x)

/-- The code of a character. -/
def code (c : Value .char) : Builder (Value .int) :=
  compute .code (.one c) fun (.one x) => some x.toNat

/-- Whether a character is a decimal digit of ASCII. -/
def isDigit (c : Value .char) : Builder (Value .bool) := do
  let n ← code c
  let low ← Arithmetic.atLeast n (.int 48)
  let high ← Arithmetic.atMost n (.int 57)
  Logic.conjoin low high

end StringTerms.Strings
