import StringTerms.Script.Answer
import StringTerms.Smtlib.Literal

/-!
# The state of a script

A script keeps, beside its session, the items and the checkpoints that have names, and a model.
This module has the computations of a script and finds the operands of its commands: as a value of
a given kind, or as a node.  An operand that cannot be found, or that does not fit its command, is a
fault of the script, which ends it; an error of the session is an ordinary result.
-/

namespace StringTerms.Script

/-- The text of an item. -/
def Item.text : Item → String
  | .literal v => Smtlib.literal v
  | .handle h => h.text

/-- Why a script cannot go on. -/
inductive Fault where
  | unknownName (name : String)
  | unknownCheckpoint (name : String)
  /-- A literal is used where a value of kind `k` is needed. -/
  | itemOfOtherKind (i : Item) (k : Kind)
  /-- A command has too many operands or too few. -/
  | operandCount (expected found : Nat)
deriving DecidableEq, Repr

/-- The wording of a fault. -/
def Fault.message : Fault → String
  | .unknownName name => "nothing has the name " ++ name
  | .unknownCheckpoint name => "no checkpoint has the name " ++ name
  | .itemOfOtherKind i k => i.text ++ " is not of sort " ++ k.sort
  | .operandCount expected found =>
    "expected " ++ toString expected ++ " operands, found " ++ toString found

/-- What a script keeps beside its session. -/
structure Surroundings where
  names : FiniteMap String Item := ∅
  checkpoints : FiniteMap String Checkpoint := ∅
  model : Model := {}

/-- A computation of a script apart from its session. -/
abbrev Host := StateT Surroundings (Except Fault)

/-- A computation of a script. -/
abbrev Runner := StateT Session Host

/-- Extends the session of the script. -/
def build {α : Type} (x : Builder α) : Runner α := fun ss => pure (x ss)

/-- Makes a request to the session of the script. -/
def request {α : Type} (x : Request α) : Runner (Except Error α) := build x.run

/-- Gives an item a name, if there is one, in place of what had the name before. -/
def bindName (name : Option String) (i : Item) : Runner Unit :=
  match name with
  | some name => modifyThe Surroundings fun w => { w with names := w.names.insert name i }
  | none => pure ()

/-- Gives a result that is an item a name; no other result gets one. -/
def bindResult (name : Option String) (result : Except Error Answer) : Runner Unit :=
  match result with
  | .ok (.item i) => bindName name i
  | _ => pure ()

/-- Replaces the model. -/
def changeModel (change : Model → Model) : Runner Model := do
  modifyThe Surroundings fun w => { w with model := change w.model }
  return (← getThe Surroundings).model

/-- The item of an operand. -/
def resolve : Operand → Runner Item
  | .item i => return i
  | .named name => do
    match (← getThe Surroundings).names.get? name with
    | some i => return i
    | none => throw (.unknownName name)

/-- The operand as a value of kind `k`. -/
def typed (k : Kind) (x : Operand) : Runner (Value k) := do
  let i ← resolve x
  match i.value? k with
  | some v => return v
  | none => throw (.itemOfOtherKind i k)

/-- The operands as values of the given kinds. -/
def typedAll : (ks : List Kind) → List Operand → Runner (Operands Value ks)
  | [], [] => return .nil
  | k :: ks, x :: xs => do return .cons (← typed k x) (← typedAll ks xs)
  | ks, xs => throw (.operandCount ks.length xs.length)

/-- The operand as a node; a literal becomes one. -/
def raw (x : Operand) : Runner Handle := do
  match ← resolve x with
  | .handle h => return h
  | .literal v => build (Session.literal v)

/-- The operands as nodes, from left to right. -/
def rawAll (xs : List Operand) : Runner (List Handle) := xs.mapM raw

end StringTerms.Script
