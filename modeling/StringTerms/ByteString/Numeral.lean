import StringTerms.Kind

/-!
# Decimal numerals

`ofInt` writes a natural number as the string of its decimal digits, and `toInt` reads any
non-empty string of decimal digits, leading zeros included.  A string that is not a numeral has the
value -1, and a negative number has the empty string.
-/

namespace StringTerms.ByteString

/-- Whether a character is one of the ten decimal digits of ASCII. -/
def isDigit (c : UInt8) : Bool := 48 ≤ c && c ≤ 57

/-- Whether a string is a non-empty string of digits. -/
def isNumeral (s : ByteString) : Bool := !s.isEmpty && s.all isDigit

/-- The value of a string of digits, the most significant one first. -/
def digitsValue (s : ByteString) : Nat :=
  s.foldl (fun value c => 10 * value + (c.toNat - 48)) 0

/-- The value of a numeral, and -1 for every other string. -/
def toInt (s : ByteString) : Int :=
  if isNumeral s then digitsValue s else -1

/-- The shortest numeral of a natural number, and the empty string for a negative number. -/
def ofInt (n : Int) : ByteString :=
  if n < 0 then [] else (Nat.toDigits 10 n.toNat).map fun c => c.toNat.toUInt8

end StringTerms.ByteString
