import StringTerms.Literal

/-!
# Text of literals

The SMT-LIB 2 text of a literal.  A string is written between quotes; a quote in it is doubled, and
a backslash or a character that is not printable ASCII is written as `\u{..}` with its code in
hexadecimal digits, so the text is ASCII and no content can end it.
-/

namespace StringTerms.Smtlib

/-- Whether a character is printable ASCII. -/
def printable (c : UInt8) : Bool := 32 ≤ c && c ≤ 126

/-- The text of a character inside a string literal. -/
def escapeChar (c : UInt8) : List Char :=
  if c = 34 then
    ['"', '"']
  else if printable c && c ≠ 92 then
    [Char.ofNat c.toNat]
  else
    ['\\', 'u', '\x7b'] ++ Nat.toDigits 16 c.toNat ++ ['\x7d']

/-- The text of a string between the quotes of a string literal. -/
def escape (s : ByteString) : String := String.ofList (s.flatMap escapeChar)

/-- The text of an integer; SMT-LIB 2 has no negative numerals. -/
def integer (n : Int) : String :=
  if n < 0 then "(- " ++ toString n.natAbs ++ ")" else toString n.natAbs

/-- The text of a character: a bit vector of two hexadecimal digits. -/
def character (c : UInt8) : String :=
  String.ofList ['#', 'x', (c.toNat / 16).digitChar, (c.toNat % 16).digitChar]

/-- The text of a literal. -/
def literal : Literal → String
  | .bool b => if b then "true" else "false"
  | .int n => integer n
  | .char c => character c
  | .string s => "\"" ++ escape s ++ "\""

end StringTerms.Smtlib
