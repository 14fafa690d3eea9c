import StringTerms.Kind

/-!
# Operators

The operators are those of the core theory, of the integers and of the strings of SMT-LIB 2.  Each
has a symbol, the kinds of its operands and the kind of its result.  Equality and the conditional
work at every kind, so the last two are given at an instance `k` of which every other operator is
independent.
-/

namespace StringTerms

/-- An operator that can head a term. -/
inductive Operator where
  /-- Equality of two operands of one kind. -/
  | eq
  | not
  | and
  | or
  /-- The choice between two operands of one kind. -/
  | ite
  | add
  | sub
  | le
  | lt
  | ge
  | gt
  /-- The number of characters. -/
  | length
  | append
  /-- The slice of length one at a position. -/
  | charAt
  /-- The slice of a given length at a given offset. -/
  | slice
  /-- Whether the second string occurs in the first. -/
  | contains
  /-- Whether the second string starts with the first. -/
  | startsWith
  /-- Whether the second string ends with the first. -/
  | endsWith
  | replaceFirst
  | replaceAll
  /-- The position of the second string in the first, from a given position on. -/
  | indexOf
  /-- The value of a numeral. -/
  | toInt
  /-- The numeral of a number. -/
  | ofInt
  /-- The string of one character. -/
  | unit
  /-- The code of a character. -/
  | code
deriving DecidableEq, Repr, Inhabited

namespace Operator

/-- The function symbol in SMT-LIB 2 text. -/
def symbol : Operator → String
  | .eq => "="
  | .not => "not"
  | .and => "and"
  | .or => "or"
  | .ite => "ite"
  | .add => "+"
  | .sub => "-"
  | .le => "<="
  | .lt => "<"
  | .ge => ">="
  | .gt => ">"
  | .length => "str.len"
  | .append => "str.++"
  | .charAt => "str.at"
  | .slice => "str.substr"
  | .contains => "str.contains"
  | .startsWith => "str.prefixof"
  | .endsWith => "str.suffixof"
  | .replaceFirst => "str.replace"
  | .replaceAll => "str.replace_all"
  | .indexOf => "str.indexof"
  | .toInt => "str.to_int"
  | .ofInt => "str.from_int"
  | .unit => "seq.unit"
  | .code => "bv2nat"

/-- The kinds of the operands, at the instance `k`. -/
@[reducible] def operandKinds (k : Kind) : Operator → List Kind
  | .eq => [k, k]
  | .not => [.bool]
  | .and | .or => [.bool, .bool]
  | .ite => [.bool, k, k]
  | .add | .sub | .le | .lt | .ge | .gt => [.int, .int]
  | .length | .toInt => [.string]
  | .append | .contains | .startsWith | .endsWith => [.string, .string]
  | .charAt => [.string, .int]
  | .slice => [.string, .int, .int]
  | .replaceFirst | .replaceAll => [.string, .string, .string]
  | .indexOf => [.string, .string, .int]
  | .ofInt => [.int]
  | .unit | .code => [.char]

/-- The kind of the result, at the instance `k`. -/
@[reducible] def kindAt (k : Kind) : Operator → Kind
  | .ite => k
  | .eq | .not | .and | .or | .le | .lt | .ge | .gt => .bool
  | .contains | .startsWith | .endsWith => .bool
  | .add | .sub | .length | .indexOf | .toInt | .code => .int
  | .append | .charAt | .slice | .replaceFirst | .replaceAll | .ofInt | .unit => .string

end Operator

end StringTerms
