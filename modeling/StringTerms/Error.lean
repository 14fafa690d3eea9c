import StringTerms.Node

/-!
# Errors

The causes for which a request to a session, or an evaluation, is refused, and their wording.
-/

namespace StringTerms

/-- Why a request was refused. -/
inductive Error where
  /-- An operand of an operator has another kind than the operator expects. -/
  | sortMismatch (operator : Operator) (expected found : Kind)
  /-- An operator expects another number of operands. -/
  | arityMismatch (operator : Operator) (expected found : Nat)
  /-- The handle names no node of the arena. -/
  | unknownHandle (handle : Handle)
  /-- A term that is asserted is not of kind Bool. -/
  | nonBooleanAssertion (kind : Kind)
  /-- A model gives a variable a value of another kind. -/
  | modelSortMismatch (handle : Handle) (expected found : Kind)
  /-- The value of an operand does not fit the operator that is evaluated. -/
  | illSortedOperand (operator : Operator) (position : Nat)
  /-- A term has a value, but not one of the kind that was asked for. -/
  | valueOfOtherKind (handle : Handle) (expected : Kind)
  /-- A definition of an emulated value gave up. -/
  | definitionFailed (reason : String)
  /-- A checkpoint has more nodes than the arena. -/
  | checkpointAhead (nodes size : Nat)
deriving DecidableEq, Repr, Inhabited

/-- The wording of an error. -/
def Error.message : Error → String
  | .sortMismatch op expected found =>
    "sort mismatch in `" ++ op.symbol ++ "`: expected " ++ expected.sort ++ ", found "
      ++ found.sort
  | .arityMismatch op expected found =>
    "arity mismatch in `" ++ op.symbol ++ "`: expected " ++ toString expected
      ++ " operands, found " ++ toString found
  | .unknownHandle h => "unknown handle " ++ h.text
  | .nonBooleanAssertion k => "cannot assert a term of sort " ++ k.sort
  | .modelSortMismatch h expected found =>
    "model assigns a " ++ found.sort ++ " value to " ++ h.text ++ ", which has sort "
      ++ expected.sort
  | .illSortedOperand op position =>
    "internal error: ill-sorted operand " ++ toString position ++ " of `" ++ op.symbol ++ "`"
  | .valueOfOtherKind h expected =>
    "internal error: " ++ h.text ++ " does not evaluate to a " ++ expected.sort
  | .definitionFailed reason => "internal error: " ++ reason
  | .checkpointAhead nodes size =>
    "checkpoint has " ++ toString nodes ++ " nodes, the arena has " ++ toString size

end StringTerms
