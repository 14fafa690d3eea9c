import StringTerms.ByteString.Numeral
import StringTerms.ByteString.Search
import StringTerms.ByteString.Slice
import StringTerms.Error

/-!
# Operators on literals

The value of an operator at literal operands, as SMT-LIB 2 defines it; a slice that reaches out of
the string has the value that `ByteString.slice` gives it.  Operands of other kinds, which only an
ill-sorted term can have, are reported by position, and operands that are not needed for the value
are not looked at.
-/

namespace StringTerms.Operator

/-- The operand at a position as a host value of kind `k`. -/
def operand (op : Operator) (args : List Literal) (k : Kind) (position : Nat) :
    Except Error k.Carrier :=
  match args[position]?.bind (Literal.as? k) with
  | some v => .ok v
  | none => .error (.illSortedOperand op position)

/-- The value of an operator at literal operands. -/
def valueAt (op : Operator) (args : List Literal) : Except Error Literal :=
  let bool := op.operand args .bool
  let int := op.operand args .int
  let char := op.operand args .char
  let string := op.operand args .string
  match op with
  | .eq =>
    match args with
    | x :: y :: _ =>
      if x.kind = y.kind then .ok (.bool (decide (x = y))) else .error (.illSortedOperand op 1)
    | _ => .error (.illSortedOperand op 1)
  | .not => do return .bool (!(← bool 0))
  | .and => do if ← bool 0 then return .bool (← bool 1) else return .bool false
  | .or => do if ← bool 0 then return .bool true else return .bool (← bool 1)
  | .ite => do
    let position := if ← bool 0 then 1 else 2
    match args[position]? with
    | some v => return v
    | none => throw (.illSortedOperand op position)
  | .add => do return .int ((← int 0) + (← int 1))
  | .sub => do return .int ((← int 0) - (← int 1))
  | .le => do return .bool (decide ((← int 0) ≤ (← int 1)))
  | .lt => do return .bool (decide ((← int 0) < (← int 1)))
  | .ge => do return .bool (decide ((← int 0) ≥ (← int 1)))
  | .gt => do return .bool (decide ((← int 0) > (← int 1)))
  | .length => do return .int (← string 0).length
  | .append => do return .string ((← string 0) ++ (← string 1))
  | .charAt => do return .string (ByteString.slice (← string 0) (← int 1) 1)
  | .slice => do return .string (ByteString.slice (← string 0) (← int 1) (← int 2))
  | .contains => do
    let sub ← string 1
    let s ← string 0
    return .bool (ByteString.contains sub s)
  | .startsWith => do return .bool (ByteString.startsWith (← string 0) (← string 1))
  | .endsWith => do return .bool (ByteString.endsWith (← string 0) (← string 1))
  | .replaceFirst => do
    return .string (ByteString.replaceFirst (← string 0) (← string 1) (← string 2))
  | .replaceAll => do
    return .string (ByteString.replaceAll (← string 0) (← string 1) (← string 2))
  | .indexOf => do return .int (ByteString.indexOfFrom (← string 0) (← string 1) (← int 2))
  | .toInt => do return .int (ByteString.toInt (← string 0))
  | .ofInt => do return .string (ByteString.ofInt (← int 0))
  | .unit => do return .string [← char 0]
  | .code => do return .int (← char 0).toNat

end StringTerms.Operator
