import StringTerms.Emulation
import StringTerms.Strings.Slice

/-!
# Characters of a string

No operator gives the character at a position of a string, so the character is emulated: a new
variable `c` stands for it, and the assertion

    (or (not (and (<= 0 i) (< i (str.len s)))) (= (seq.unit c) (str.substr s i 1)))

ties it to the string.  Where `i` is not a position the assertion holds for every `c`, so the
character is unspecified there and the terms stay satisfiable.
-/

namespace StringTerms.Strings

/-- Whether `i` is a position of `s`. -/
def isPosition (s : Value .string) (i : Value .int) : Builder (Value .bool) := do
  let nonNegative ← Arithmetic.atMost (.int 0) i
  let n ← length s
  let below ← Arithmetic.lessThan i n
  Logic.conjoin nonNegative below

/-- The condition that `c` is the character at position `i`, if `i` is a position of `s`. -/
def characterCondition (s : Value .string) (i : Value .int) (c : Value .char) :
    Builder (Value .bool) := do
  let unit ← singleton c
  let there ← sliceAt s i
  let same ← Logic.equal unit there
  let inside ← isPosition s i
  let outside ← Logic.negate inside
  Logic.disjoin outside same

/-- The variable that stands for the character at position `i` of `s`. -/
def extract (s : Value .string) (i : Value .int) : Builder (Value .char) := do
  let string ← s.handle
  let position ← i.handle
  Emulation.introduce .char .charAt [string, position] (characterCondition s i)

/-- The character at position `i` of `s`; unspecified where `i` is not a position. -/
def charAt (s : Value .string) (i : Value .int) : Builder (Value .char) := do
  let ss ← get
  let found : Option UInt8 := do ByteString.charAt? (← s.known? ss) (← i.known? ss)
  match found with
  | some c => return .known c
  | none => extract s i

/-- The first character of `s`; unspecified for the empty string. -/
def first (s : Value .string) : Builder (Value .char) := charAt s (.int 0)

end StringTerms.Strings
