import StringTerms.Proofs.Effects

/-!
# Transitions

An execution is followed step by step, also while definitions are running: its state is the session,
the checkpoints that may be rolled back to, and the stack of the definitions that have begun and not
ended.  A conduct says which steps are taken.  A transition is a step together with what happens in
it: checkpoints are taken, the session is rolled back, and requests for emulated values are
answered.  An operation that extracts a character makes such a request too.
-/

namespace StringTerms

/-- A definition that has begun: what it defines, and the sizes of the session before its
variable. -/
structure Definition where
  operator : Operator
  operands : List Handle
  start : Checkpoint

namespace Definition

/-- The variable that is being defined. -/
def handle (D : Definition) : Handle := ⟨D.start.nodes⟩

/-- The sizes of the session with the variable. -/
def begun (D : Definition) : Checkpoint :=
  ⟨D.start.nodes + 1, D.start.vars + 1, D.start.assertions⟩

theorem start_le_begun (D : Definition) :
  D.start ≤ D.begun
  := ⟨Nat.le_succ _, Nat.le_succ _, Nat.le_refl _⟩

end Definition

/-- A session with the checkpoints that have been taken and may still be used, and the running
definitions, the innermost one first. -/
structure Execution where
  session : Session
  marks : List Mark := []
  running : List Definition := []

/-- The steps that are taken: the checkpoints that a rollback may name, the edits that are made, and
the conditions that definitions end with. -/
structure Conduct where
  policy : Policy
  edits : Session → Edit → Prop := fun _ _ => True
  conditions : Session → Value .bool → Prop := fun _ _ => True

/-- What happens in a step. -/
inductive Event where
  /-- A checkpoint was taken, by the user or where a definition began. -/
  | taken (cp : Checkpoint)
  /-- The session was rolled back, by the user or where a definition gave up. -/
  | rolledBack (ss : Session) (cp : Checkpoint)
  /-- A request was answered by the variable that was remembered. -/
  | reused (op : Operator) (hs : List Handle) (h : Handle)
  /-- A definition yielded a condition while those around it went on. -/
  | concluded (D : Definition) (around : List Definition)
  /-- A definition gave up that had gone below its own start. -/
  | stuck (D : Definition)

/-! ### Requests for emulated values -/

/-- How a request for an emulated value is answered: by the variable that is remembered, or by a new
one, the definition of which ends before anything else happens. -/
def Emulation.answer (op : Operator) (hs : List Handle) (ss : Session) (around : List Definition) :
    Event :=
  match ss.emulated? op hs with
  | some h => .reused op hs h
  | none => .concluded ⟨op, hs, ss.checkpoint⟩ around

/-- How a request for the character at a position of a string is answered. -/
def Strings.answer (s : Value .string) (i : Value .int) (ss : Session) (around : List Definition) :
    Event :=
  Emulation.answer .charAt [(named s i ss).1.1, (named s i ss).1.2] (named s i ss).2 around

/-- What happens in an edit. -/
def Edit.events (e : Edit) (X : Execution) : List Event :=
  match e.requested? X.session with
  | some (s, i) => [Strings.answer s i X.session X.running]
  | none => []

/-- A request for a character is answered by a remembered variable or by a new one. -/
theorem Strings.answer_cases (s : Value .string) (i : Value .int) (ss : Session)
    (around : List Definition) :
  (∃ op hs h, answer s i ss around = .reused op hs h)
    ∨ ∃ D, answer s i ss around = .concluded D around
  := by
  unfold answer Emulation.answer
  split
  case h_1 => exact Or.inl ⟨_, _, _, rfl⟩
  case h_2 => exact Or.inr ⟨_, rfl⟩

/-- In an edit nothing happens, or one request for a character is answered. -/
theorem Edit.events_cases (e : Edit) (X : Execution) :
  e.events X = [] ∨ (∃ op hs h, e.events X = [.reused op hs h])
    ∨ ∃ D, e.events X = [.concluded D X.running]
  := by
  unfold events
  split
  case h_1 s i _ =>
    obtain ⟨op, hs, h, known⟩ | ⟨D, new⟩ := Strings.answer_cases s i X.session X.running
    · exact Or.inr (Or.inl ⟨op, hs, h, congrArg (fun E => [E]) known⟩)
    · exact Or.inr (Or.inr ⟨D, congrArg (fun E => [E]) new⟩)
  case h_2 => exact Or.inl rfl

/-! ### Steps -/

namespace Execution

/-- A step with what happens in it. -/
inductive Transition (C : Conduct) : Execution → List Event → Execution → Prop
  | edit {X : Execution} (e : Edit) (made : C.edits X.session e) :
    Transition C X (e.events X) { X with session := e.perform X.session }
  | checkpoint {X : Execution} :
    Transition C X [.taken X.session.checkpoint]
      { X with marks := ⟨X.running.length, X.session.checkpoint⟩ :: X.marks }
  | rollback {X : Execution} {m : Mark} {ss : Session} (taken : m ∈ X.marks)
    (allowed : C.policy.Allows X.running.length m)
    (accepted : X.session.rollback? m.checkpoint = .ok ss) :
    Transition C X [.rolledBack X.session m.checkpoint]
      { X with session := ss, marks := C.policy.remaining m.checkpoint X.marks }
  /-- A value that is remembered is not defined again. -/
  | reuse {X : Execution} {op : Operator} {hs : List Handle} {h : Handle}
    (known : X.session.emulated? op hs = some h) :
    Transition C X [.reused op hs h] { X with session := Emulation.countReuse X.session }
  /-- A definition begins. -/
  | begin {X : Execution} {op : Operator} {hs : List Handle} (k : Kind)
    (new : X.session.emulated? op hs = none) :
    Transition C X [.taken X.session.checkpoint] { X with
      session := (Session.freshInternal k X.session).2
      running := ⟨op, hs, X.session.checkpoint⟩ :: X.running }
  /-- The innermost definition yields a condition. -/
  | conclude {X : Execution} {D : Definition} {others : List Definition}
    (innermost : X.running = D :: others) (condition : Value .bool)
    (given : C.conditions X.session condition) :
    Transition C X [.concluded D others] {
      session := (Emulation.conclude D.operator D.operands D.handle condition X.session).2
      marks := C.policy.handOver others.length X.marks
      running := others }
  /-- The innermost definition gives up. -/
  | giveUp {X : Execution} {D : Definition} {others : List Definition}
    (innermost : X.running = D :: others) {ss : Session}
    (accepted : X.session.rollback? D.start = .ok ss) :
    Transition C X [.rolledBack X.session D.start] {
      session := ss
      marks := C.policy.remaining D.start (C.policy.handOver others.length X.marks)
      running := others }
  /-- The innermost definition gives up after it went below its own start. -/
  | stuck {X : Execution} {D : Definition} {others : List Definition}
    (innermost : X.running = D :: others) {e : Error}
    (refused : X.session.rollback? D.start = .error e) :
    Transition C X [.stuck D]
      { X with marks := C.policy.handOver others.length X.marks, running := others }

/-- A step of an execution, whatever happens in it. -/
def Step (C : Conduct) (X Y : Execution) : Prop := ∃ es, Transition C X es Y

/-- The states that are reached from a new session. -/
inductive Reached (C : Conduct) (c : Configuration) : Execution → Prop
  | start : Reached C c { session := { configuration := c } }
  | step {X Y : Execution} (reached : Reached C c X) (step : Step C X Y) : Reached C c Y

end Execution

end StringTerms
