import StringTerms.Evaluation.Operator
import StringTerms.Model

/-!
# Evaluation

The value of a term under a model, where there is one: a term below which a variable is unassigned
may have no value.  An evaluator remembers what it found for each node, with or without a value, so
that shared terms are evaluated once; an error is not remembered.
-/

namespace StringTerms

namespace Evaluation

/-- What was found for each node so far. -/
abbrev Memo := FiniteMap Handle (Option Literal)

/-- A computation that evaluates terms and may meet an ill-sorted one. -/
abbrev Evaluator := ExceptT Error (StateM Memo)

/-- The value of a node, with the values of its operands given by `operand`.  A conditional has a
value as soon as its condition and the selected branch have one; every other application needs the
values of all its operands. -/
def node {m : Type → Type} [Monad m] [MonadExceptOf Error m] (M : Model) (h : Handle)
    (operand : Handle → m (Option Literal)) : Node → m (Option Literal)
  | .literal v => return some v
  | .var _ k =>
    match M.value? h with
    | some v =>
      if v.kind = k then return some v else throw (Error.modelSortMismatch h k v.kind)
    | none => return none
  | .application .ite [c, t, e] _ => do
    match ← operand c with
    | some (.bool true) => operand t
    | some (.bool false) => operand e
    | some _ => throw (Error.illSortedOperand .ite 0)
    | none => return none
  | .application .ite hs _ => throw (Error.illSortedOperand .ite hs.length)
  | .application op hs _ => do
    let found ← hs.mapM operand
    match found.mapM id with
    | some args =>
      match op.valueAt args with
      | .ok v => return some v
      | .error e => throw e
    | none => return none

/-- The value of a term.  The operands of a node precede it in the arena. -/
def term (ss : Session) (M : Model) (h : Handle) : Evaluator (Option Literal) := do
  match (← get).get? h with
  | some found => return found
  | none =>
    match ss.node? h with
    | none => throw (.unknownHandle h)
    | some n =>
      let found ← node M h
        (fun g => if _before : g.index < h.index then term ss M g else throw (.unknownHandle g)) n
      modify (·.insert h found)
      return found
termination_by h.index

/-- The host value of a value. -/
def value {k : Kind} (ss : Session) (M : Model) : Value k → Evaluator (Option k.Carrier)
  | .known v => return some v
  | .node h => do
    match ← term ss M h with
    | some l =>
      match l.as? k with
      | some v => return some v
      | none => throw (.valueOfOtherKind h k)
    | none => return none

/-- Whether all terms of a list are true, looking at them in order up to the first false one.
There is no answer when a term has no value and none is false. -/
def allTrue (ss : Session) (M : Model) : List Handle → Evaluator (Option Bool)
  | [] => return some true
  | h :: hs => do
    match ← term ss M h with
    | some (.bool true) => allTrue ss M hs
    | some (.bool false) => return some false
    | some v => throw (.nonBooleanAssertion v.kind)
    | none =>
      match ← allTrue ss M hs with
      | some false => return some false
      | _ => return none

/-- Whether the assertions of the session are true. -/
def assertions (ss : Session) (M : Model) : Evaluator (Option Bool) :=
  allTrue ss M (ss.assertions.toList.map Assertion.handle)

/-- The answer of an evaluator that has not evaluated anything before. -/
def Evaluator.answer {α : Type} (x : Evaluator α) : Except Error α := (x.run.run ∅).1

end Evaluation

namespace Session

/-- The value of a term under a model. -/
def evaluate (ss : Session) (M : Model) (h : Handle) : Except Error (Option Literal) :=
  (Evaluation.term ss M h).answer

/-- Whether a model makes every assertion true. -/
def satisfiedBy (ss : Session) (M : Model) : Except Error (Option Bool) :=
  (Evaluation.assertions ss M).answer

end Session

end StringTerms
