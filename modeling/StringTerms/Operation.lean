import StringTerms.Strings.Character
import StringTerms.Strings.Numeral
import StringTerms.Strings.Search

/-!
# Operations

The operations on values, each with the kinds of its operands and of its result.  `Operation.build`
performs an operation in a session.
-/

namespace StringTerms

/-- An operation on values, indexed by the kinds of its operands and of its result. -/
inductive Operation : List Kind → Kind → Type where
  | equal (k : Kind) : Operation [k, k] .bool
  | distinct (k : Kind) : Operation [k, k] .bool
  | choose (k : Kind) : Operation [.bool, k, k] k
  | negate : Operation [.bool] .bool
  | conjoin : Operation [.bool, .bool] .bool
  | disjoin : Operation [.bool, .bool] .bool
  | add : Operation [.int, .int] .int
  | subtract : Operation [.int, .int] .int
  | atMost : Operation [.int, .int] .bool
  | lessThan : Operation [.int, .int] .bool
  | atLeast : Operation [.int, .int] .bool
  | greaterThan : Operation [.int, .int] .bool
  | empty : Operation [] .string
  | length : Operation [.string] .int
  | isEmpty : Operation [.string] .bool
  | first : Operation [.string] .char
  | rest : Operation [.string] .string
  | singleton : Operation [.char] .string
  | sliceAt : Operation [.string, .int] .string
  | charAt : Operation [.string, .int] .char
  | extract : Operation [.string, .int] .char
  | ofChars (n : Nat) : Operation (List.replicate n .char) .string
  | append : Operation [.string, .string] .string
  | join (n : Nat) : Operation (List.replicate n .string) .string
  | contains : Operation [.string, .string] .bool
  | startsWith : Operation [.string, .string] .bool
  | endsWith : Operation [.string, .string] .bool
  | take : Operation [.int, .string] .string
  | drop : Operation [.int, .string] .string
  | slice : Operation [.string, .int, .int] .string
  | replaceFirst : Operation [.string, .string, .string] .string
  | replaceAll : Operation [.string, .string, .string] .string
  | indexOf : Operation [.string, .string] .int
  | indexOfFrom : Operation [.string, .string, .int] .int
  | toInt : Operation [.string] .int
  | ofInt : Operation [.int] .string
  | code : Operation [.char] .int
  | isDigit : Operation [.char] .bool

/-- Performs an operation. -/
def Operation.build {ks : List Kind} {r : Kind} :
    Operation ks r → Operands Value ks → Builder (Value r)
  | .equal _, .two a b => Logic.equal a b
  | .distinct _, .two a b => Logic.distinct a b
  | .choose _, .three c t e => Logic.choose c t e
  | .negate, .one a => Logic.negate a
  | .conjoin, .two a b => Logic.conjoin a b
  | .disjoin, .two a b => Logic.disjoin a b
  | .add, .two a b => Arithmetic.add a b
  | .subtract, .two a b => Arithmetic.subtract a b
  | .atMost, .two a b => Arithmetic.atMost a b
  | .lessThan, .two a b => Arithmetic.lessThan a b
  | .atLeast, .two a b => Arithmetic.atLeast a b
  | .greaterThan, .two a b => Arithmetic.greaterThan a b
  | .empty, .nil => return Strings.empty
  | .length, .one s => Strings.length s
  | .isEmpty, .one s => Strings.isEmpty s
  | .first, .one s => Strings.first s
  | .rest, .one s => Strings.rest s
  | .singleton, .one c => Strings.singleton c
  | .sliceAt, .two s i => Strings.sliceAt s i
  | .charAt, .two s i => Strings.charAt s i
  | .extract, .two s i => Strings.extract s i
  | .ofChars _, cs => Strings.ofChars cs.toList
  | .append, .two s t => Strings.append s t
  | .join _, ss => Strings.join ss.toList
  | .contains, .two sub s => Strings.contains sub s
  | .startsWith, .two sub s => Strings.startsWith sub s
  | .endsWith, .two sub s => Strings.endsWith sub s
  | .take, .two i s => Strings.take i s
  | .drop, .two i s => Strings.drop i s
  | .slice, .three s o l => Strings.slice s o l
  | .replaceFirst, .three s old new => Strings.replaceFirst s old new
  | .replaceAll, .three s old new => Strings.replaceAll s old new
  | .indexOf, .two s sub => Strings.indexOf s sub
  | .indexOfFrom, .three s sub start => Strings.indexOfFrom s sub start
  | .toInt, .one s => Strings.toInt s
  | .ofInt, .one n => Strings.ofInt n
  | .code, .one c => Strings.code c
  | .isDigit, .one c => Strings.isDigit c

end StringTerms
