import StringTerms.Proofs.Edit
import StringTerms.Proofs.Emulation

/-!
# Runs

A run is a sequence of requests to a session: edits, checkpoints, rollbacks and emulated values,
whose definitions are runs of their own.  Its history keeps, beside the session, the checkpoints
that may be rolled back to, each marked with the depth of the definition in which it was taken, and
the condition under which each remembered value was introduced.  A policy says which checkpoints a
rollback may name.

An extraction of a character is no step of its own.  It is an emulated value whose definition
consists of edits, and so a run.
-/

namespace StringTerms

/-- A checkpoint and the depth of the definition in which it was taken, which is 0 outside of
definitions. -/
structure Mark where
  depth : Nat
  checkpoint : Checkpoint
deriving DecidableEq

/-- Which checkpoints may be rolled back to. -/
structure Policy where
  /-- A definition may roll back to a checkpoint from before its start. -/
  outer : Bool
  /-- A checkpoint that a definition took may be used after its end. -/
  inner : Bool
  /-- A checkpoint may be used after a rollback below it. -/
  stale : Bool

/-- A session with the checkpoints that have been taken and may still be used, and the conditions
of the remembered values.  A condition that was known to hold asserts nothing. -/
structure History where
  session : Session
  marks : List Mark := []
  conditions : FiniteMap (Operator × List Handle) (Option Handle) := ∅

/-- The history of a new session. -/
def History.start (c : Configuration) : History := { session := { configuration := c } }

namespace Policy

variable {P : Policy} {d : Nat} {m : Mark}

/-- The checkpoint may be used at depth `d`. -/
def Allows (P : Policy) (d : Nat) (m : Mark) : Prop := P.outer = true ∨ d ≤ m.depth

/-- The checkpoints that may be used after a rollback: those that it did not go below. -/
def remaining (P : Policy) (cp : Checkpoint) (marks : List Mark) : List Mark :=
  marks.filter fun m => P.stale || decide (m.checkpoint ≤ cp)

/-- The checkpoints that may be used after a definition has ended and depth `d` is back. -/
def handOver (P : Policy) (d : Nat) (marks : List Mark) : List Mark :=
  if P.inner then marks.map fun m => { m with depth := min m.depth d }
  else marks.filter fun m => m.depth ≤ d

theorem mem_of_mem_remaining {cp : Checkpoint} {marks : List Mark}
    (mem : m ∈ P.remaining cp marks) :
  m ∈ marks
  := (List.mem_filter.mp mem).1

/-- A checkpoint that is handed over was there, at its depth or, if it comes from the definition
that has ended, at a greater one. -/
theorem exists_of_mem_handOver {marks : List Mark} (mem : m ∈ P.handOver d marks) :
  m.depth ≤ d ∧ (m ∈ marks ∨ m.depth = d ∧ ∃ n ∈ marks, d < n.depth ∧ n.checkpoint = m.checkpoint)
  := by
  unfold handOver at mem
  split at mem
  case isTrue =>
    obtain ⟨n, here, rfl⟩ := List.mem_map.mp mem
    constructor
    · apply Nat.min_le_right
    · by_cases deeper : d < n.depth
      · right
        use Nat.min_eq_right (Nat.le_of_lt deeper), n
      · left
        rw [Nat.min_eq_left (Nat.le_of_not_lt deeper)]
        apply here
  case isFalse =>
    obtain ⟨here, below⟩ := List.mem_filter.mp mem
    use of_decide_eq_true below, Or.inl here

theorem mem_of_mem_handOver {marks : List Mark} (mem : m ∈ P.handOver d marks)
    (below : m.depth < d) :
  m ∈ marks
  := by
  obtain ⟨-, here | ⟨same, -⟩⟩ := exists_of_mem_handOver mem
  · apply here
  · omega

end Policy

/-- The handle that a condition asserts, unless the condition is known to hold. -/
def Emulation.asserted (condition : Value .bool) (ss : Session) : Option Handle :=
  if condition = .known true then none else some (condition.handle ss).1

/-- The runs at a depth. -/
inductive Run (P : Policy) : Nat → History → History → Prop
  | refl {d : Nat} (H : History) : Run P d H H
  | edit {d : Nat} {H K : History} (run : Run P d H K) (e : Edit) (plain : e.extracts = false) :
    Run P d H { K with session := e.perform K.session }
  | checkpoint {d : Nat} {H K : History} (run : Run P d H K) :
    Run P d H { K with marks := ⟨d, K.session.checkpoint⟩ :: K.marks }
  | rollback {d : Nat} {H K : History} (run : Run P d H K) {m : Mark} {ss : Session}
    (taken : m ∈ K.marks) (allowed : P.Allows d m)
    (accepted : K.session.rollback? m.checkpoint = .ok ss) :
    Run P d H { K with session := ss, marks := P.remaining m.checkpoint K.marks }
  /-- A value that is remembered is not defined again. -/
  | reuse {d : Nat} {H K : History} (run : Run P d H K) {op : Operator} {hs : List Handle}
    {h : Handle} (known : K.session.emulated? op hs = some h) :
    Run P d H { K with session := Emulation.countReuse K.session }
  /-- A definition that yields a condition. -/
  | conclude {d : Nat} {H K L : History} (run : Run P d H K) {op : Operator} {hs : List Handle}
    {k : Kind} (new : K.session.emulated? op hs = none)
    (body : Run P (d + 1) { K with session := (Session.freshInternal k K.session).2 } L)
    (condition : Value .bool) :
    Run P d H {
      session := (Emulation.conclude op hs K.session.next condition L.session).2
      marks := P.handOver d L.marks
      conditions := L.conditions.insert (op, hs) (Emulation.asserted condition L.session) }
  /-- A definition that gives up. -/
  | giveUp {d : Nat} {H K L : History} (run : Run P d H K) {op : Operator} {hs : List Handle}
    {k : Kind} (new : K.session.emulated? op hs = none)
    (body : Run P (d + 1) { K with session := (Session.freshInternal k K.session).2 } L)
    {ss : Session} (accepted : L.session.rollback? K.session.checkpoint = .ok ss) :
    Run P d H {
      session := ss
      marks := P.remaining K.session.checkpoint (P.handOver d L.marks)
      conditions := L.conditions }
  /-- A definition that gives up after it went below its own start. -/
  | stuck {d : Nat} {H K L : History} (run : Run P d H K) {op : Operator} {hs : List Handle}
    {k : Kind} (new : K.session.emulated? op hs = none)
    (body : Run P (d + 1) { K with session := (Session.freshInternal k K.session).2 } L)
    {e : Error} (refused : L.session.rollback? K.session.checkpoint = .error e) :
    Run P d H { L with marks := P.handOver d L.marks }

namespace Run

variable {P : Policy} {d : Nat} {H K L : History}

/-- An emulated value whose definition is a run is part of a run. -/
theorem attempt (run : Run P d H K) {k : Kind} {op : Operator} {hs : List Handle}
    {define : Value k → ExceptT Error Builder (Value .bool)}
    (new : K.session.emulated? op hs = none)
    (body : Run P (d + 1) { K with session := (Session.freshInternal k K.session).2 } L)
    {result : Except Error (Value .bool)}
    (ends : (define (.node K.session.next)).run (Session.freshInternal k K.session).2
      = (result, L.session)) :
  ∃ N, Run P d H N ∧ N.session = ((Emulation.attempt k op hs define).run K.session).2
  := by
  rw [Emulation.attempt_of_new new ends]
  cases result with
  | ok condition => exact ⟨_, run.conclude new body condition, rfl⟩
  | error e =>
      cases back : L.session.rollback? K.session.checkpoint with
      | ok restored => exact ⟨_, run.giveUp new body back, by simp only [Emulation.settle, back]⟩
      | error refusal => exact ⟨_, run.stuck new body back, by simp only [Emulation.settle, back]⟩

end Run

/-! ### Computations as runs -/

/-- What the computation does to a session is what edits do. -/
structure Edits {α : Type} (x : Builder α) : Prop where
  run : ∀ {P d H K}, Run P d H K → Run P d H { K with session := (x K.session).2 }

theorem Edits.pure {α : Type} (a : α) :
  Edits (Pure.pure a)
  := ⟨id⟩

theorem Edits.bind {α β : Type} {x : Builder α} {f : α → Builder β} (hx : Edits x)
    (hf : ∀ a, Edits (f a)) :
  Edits (x >>= f)
  := ⟨fun {_ _ _ K} run => (hf (x K.session).1).run (hx.run run)⟩

theorem edits_handle {k : Kind} (x : Value k) :
  Edits x.handle
  := by
  cases x with
  | known v => exact ⟨fun run => run.edit (.literal (.of k v)) rfl⟩
  | node h => apply Edits.pure

/-- An operation that extracts no character is an edit. -/
theorem Operation.edits_build {ks : List Kind} {r : Kind} (o : Operation ks r)
    (xs : Operands Value ks) (plain : o.extracts = false) :
  Edits (o.build xs)
  := ⟨fun run => run.edit (.operate o xs) plain⟩

/-- The definition of a character consists of edits. -/
theorem edits_characterCondition (s : Value .string) (i : Value .int) (c : Value .char) :
  Edits (Strings.characterCondition s i c)
  := by
  have inside : Edits (Strings.isPosition s i) := by
    apply (Operation.atMost.edits_build (.two (.int 0) i) rfl).bind
    intro nonNegative
    apply (Operation.length.edits_build (.one s) rfl).bind
    intro n
    apply (Operation.lessThan.edits_build (.two i n) rfl).bind
    intro below
    apply Operation.conjoin.edits_build (.two nonNegative below) rfl
  apply (Operation.singleton.edits_build (.one c) rfl).bind
  intro unit
  apply (Operation.sliceAt.edits_build (.two s i) rfl).bind
  intro there
  apply ((Operation.equal .string).edits_build (.two unit there) rfl).bind
  intro same
  apply inside.bind
  intro inside
  apply (Operation.negate.edits_build (.one inside) rfl).bind
  intro outside
  apply Operation.disjoin.edits_build (.two outside same) rfl

namespace Run

variable {P : Policy} {d : Nat} {H K L : History}

/-- A value that a definition of edits introduces is introduced by a run. -/
theorem introduce (run : Run P d H K) {k : Kind} (op : Operator) (hs : List Handle)
    {define : Value k → Builder (Value .bool)} (edits : ∀ x, Edits (define x)) :
  ∃ N, Run P d H N ∧ N.session = (Emulation.introduce k op hs define K.session).2
  := by
  cases found : K.session.emulated? op hs with
  | some h =>
      rw [Emulation.introduce_of_known found]
      exact ⟨_, run.reuse found, rfl⟩
  | none =>
      rw [Emulation.introduce_of_new define found]
      exact ⟨_, run.conclude found ((edits (.node K.session.next)).run (refl _)) _, rfl⟩

/-- Extracting a character is a run. -/
theorem extract (run : Run P d H K) (s : Value .string) (i : Value .int) :
  ∃ N, Run P d H N ∧ N.session = (Strings.extract s i K.session).2
  := ((edits_handle i).run ((edits_handle s).run run)).introduce .charAt _ (edits_characterCondition s i)

/-- Looking up a character is a run. -/
theorem charAt (run : Run P d H K) (s : Value .string) (i : Value .int) :
  ∃ N, Run P d H N ∧ N.session = (Strings.charAt s i K.session).2
  := by
  obtain ⟨c, known⟩ | extracted := Strings.charAt_cases s i K.session
  · rw [known]
    exact ⟨K, run, rfl⟩
  · rw [extracted]
    apply run.extract s i

/-- Every operation is a run. -/
theorem operate (run : Run P d H K) {ks : List Kind} {r : Kind} (o : Operation ks r)
    (xs : Operands Value ks) :
  ∃ N, Run P d H N ∧ N.session = (o.build xs K.session).2
  := by
  cases plain : o.extracts with
  | false => exact ⟨_, (o.edits_build xs plain).run run, rfl⟩
  | true =>
      cases o <;> cases plain
      case first.refl =>
        obtain _ | ⟨s, _ | _⟩ := xs
        apply run.charAt s (.int 0)
      case charAt.refl =>
        obtain _ | ⟨s, _ | ⟨i, _ | _⟩⟩ := xs
        apply run.charAt s i
      case extract.refl =>
        obtain _ | ⟨s, _ | ⟨i, _ | _⟩⟩ := xs
        apply run.extract s i

end Run

/-- An edit is a run, also where it extracts a character. -/
theorem Edit.exists_run (e : Edit) (ss : Session) :
  ∃ K, Run ⟨false, false, false⟩ 0 { session := ss } K ∧ K.session = e.perform ss
  := by
  have start : Run ⟨false, false, false⟩ 0 { session := ss } { session := ss } := .refl _
  cases plain : e.extracts with
  | false => exact ⟨_, start.edit e plain, rfl⟩
  | true =>
      cases e
      case operate o xs => apply start.operate o xs
      all_goals cases plain

end StringTerms
