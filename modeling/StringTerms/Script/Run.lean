import StringTerms.Script.Perform

/-!
# Running a script

The commands of a script are performed in order.  A command that is refused answers with the error
and the script goes on; only the definition of an emulated value stops at the first refusal.
-/

namespace StringTerms.Script

/-- A computation of a script that may leave behind the outcomes of a definition. -/
abbrev Traced := StateT (Option (List Outcome)) Host

/-- A computation of a script as part of a definition. -/
def inDefinition {α : Type} (x : Runner α) : ExceptT Error (StateT Session Traced) α :=
  ExceptT.lift fun ss => StateT.lift (x ss)

/-- The definition of an emulated value: names the variable, performs the commands, and gives up
with the error that refused one of them or for the given reason, or yields the condition. -/
def define {k : Kind} (variableName : Option String)
    (commands : Runner (List Outcome × Option Error)) (condition : Except String Operand)
    (x : Value k) : ExceptT Error (StateT Session Traced) (Value .bool) := do
  inDefinition (bindName variableName (.ofValue x))
  let (outcomes, refusal) ← inDefinition commands
  modifyThe (Option (List Outcome)) fun _ => some outcomes
  match refusal, condition with
  | some e, _ => throw e
  | none, .error reason => throw (.definitionFailed reason)
  | none, .ok c => inDefinition (typed .bool c)

/-- Introduces an emulated value, and returns the outcomes of the commands of its definition if
that was needed. -/
def emulate (k : Kind) (op : Operator) (operands : List Handle)
    (definition : Value k → ExceptT Error (StateT Session Traced) (Value .bool)) :
    Runner (Except Error Answer × Option (List Outcome)) := fun ss => do
  let ((result, ss), outcomes) ← ((Emulation.attempt k op operands definition).run ss).run none
  return ((result.map fun x => .item (.ofValue x), outcomes), ss)

mutual

/-- Performs a command. -/
def run : Command → Runner Outcome
  | .act name a => do
    let result ← perform a
    bindResult name result
    let ss ← get
    return .plain result ss.checkpoint ss.statistics
  | .emulate name k op xs variableName commands condition => do
    let hs ← rawAll xs
    let (result, definition) ← emulate k op hs (define variableName (runAll commands) condition)
    bindResult name result
    let ss ← get
    return .emulation result ss.checkpoint ss.statistics definition

/-- Performs commands up to the first that is refused, and returns its error. -/
def runAll : List Command → Runner (List Outcome × Option Error)
  | [] => return ([], none)
  | c :: cs => do
    let o ← run c
    match o.result with
    | .error e => return ([o], some e)
    | .ok _ => do
      let (os, e) ← runAll cs
      return (o :: os, e)

end

/-- Performs a script on a new session, and returns the outcomes and the session at the end. -/
def runScript (configuration : Configuration) (commands : List Command) :
    Except Fault (List Outcome × Session) := do
  let start : Session := { configuration := configuration }
  let ((outcomes, ss), _) ← ((commands.mapM run).run start).run {}
  return (outcomes, ss)

end StringTerms.Script
