import StringTerms.Session.Assertions
import StringTerms.Session.Checkpoint
import StringTerms.Value

/-!
# Emulation

A value that no operator expresses is introduced as a new internal variable together with an
internal assertion that ties it to its operands.  The session remembers the variable under an
operator and the operands, so the same value is introduced once.  Where the definition of the value
gives up, the session is rolled back to its state before the variable.
-/

namespace StringTerms.Emulation

/-- The session after a request that an earlier emulation answered. -/
def countReuse (ss : Session) : Session :=
  { ss with statistics.reused := ss.statistics.reused + 1 }

/-- Asserts a condition, unless it is known to hold. -/
def require (condition : Value .bool) : Builder Unit :=
  if condition = .known true then
    return ()
  else do
    let c ← condition.handle
    modify (·.addAssertion c .internal)

/-- The session that remembers a variable under an operator and operands. -/
def remember (op : Operator) (operands : List Handle) (h : Handle) (ss : Session) : Session :=
  { ss with
    emulations := ss.emulations.insert (op, operands) h
    statistics.emulations := ss.statistics.emulations + 1 }

/-- Constrains a variable by its condition and remembers it. -/
def conclude (op : Operator) (operands : List Handle) (h : Handle) (condition : Value .bool) :
    Builder Unit := do
  require condition
  modify (remember op operands h)

/-- The variable of kind `k` that stands for the value of `op` at the operands; a new one is
constrained by the condition that `define` builds for it. -/
def introduce (k : Kind) (op : Operator) (operands : List Handle)
    (define : Value k → Builder (Value .bool)) : Builder (Value k) := do
  match (← get).emulated? op operands with
  | some h =>
    modify countReuse
    return .node h
  | none =>
    let h ← Session.freshInternal k
    let condition ← define (.node h)
    conclude op operands h condition
    return .node h

/-- What is left of a definition that has ended: the variable with its condition, or the session
rolled back to the checkpoint where the definition has given up. -/
def settle {k : Kind} (start : Checkpoint) (op : Operator) (operands : List Handle)
    (h : Handle) (ss : Session) : Except Error (Value .bool) → Except Error (Value k) × Session
  | .ok condition => (.ok (.node h), (conclude op operands h condition ss).2)
  | .error e =>
    match ss.rollback? start with
    | .ok restored => (.error e, restored)
    | .error refusal => (.error refusal, ss)

/-- Like `introduce`, for a definition that may give up and that may do more than to extend the
session.  Where it gives up, what it did to the session is undone. -/
def attempt {m : Type → Type} [Monad m] (k : Kind) (op : Operator) (operands : List Handle)
    (define : Value k → ExceptT Error (StateT Session m) (Value .bool)) :
    ExceptT Error (StateT Session m) (Value k) :=
  ExceptT.mk fun start =>
    match start.emulated? op operands with
    | some h => pure (.ok (.node h), countReuse start)
    | none => do
      let (h, ss) := Session.freshInternal k start
      let (result, ss) ← (define (.node h)).run.run ss
      return settle start.checkpoint op operands h ss result

/-- A definition that never gives up introduces its value as `introduce` does. -/
theorem attempt_lift (k : Kind) (op : Operator) (operands : List Handle)
    (define : Value k → Builder (Value .bool)) :
  (attempt k op operands fun x => ExceptT.lift (define x)).run
    = Except.ok <$> introduce k op operands define
  := by
  funext ss
  have mapped : ((Except.ok : _ → Except Error (Value k)) <$> introduce k op operands define) ss
      = (.ok (introduce k op operands define ss).1, (introduce k op operands define ss).2) := rfl
  rw [mapped, attempt, ExceptT.run_mk, introduce, Builder.get_bind]
  cases ss.emulated? op operands with
  | some h => rfl
  | none => rfl

end StringTerms.Emulation
