import StringTerms.Proofs.WellFormed

/-!
# Rollbacks that leave well-formed sessions

A checkpoint is restorable when the session cut down to it is well-formed.  It is so when it is
taken, and extending the session keeps it so, as does rolling back to a checkpoint above it and
ending a definition.  Hence every accepted rollback leaves a well-formed session, where no
definition uses a checkpoint from before its start and none is used after a rollback below it.  Both
restrictions are needed: a stale checkpoint may cut the variables and the arena at sizes that they
never had together, and a definition that goes below its own variable has something else remembered
in its place.
-/

namespace StringTerms

namespace Session

variable {ss tt : Session} {h : Handle} {cp c : Checkpoint}

/-- Cutting down to the checkpoint leaves a well-formed session of its sizes. -/
structure Restorable (ss : Session) (cp : Checkpoint) : Prop where
  sizes : cp ≤ ss.checkpoint
  wellFormed : (ss.cut cp).WellFormed

/-- An internal variable stays one where it is not cut off. -/
theorem IsInternal.cut (internal : ss.IsInternal h) (restorable : ss.Restorable cp)
    (below : h.index < cp.nodes) :
  (ss.cut cp).IsInternal h
  := by
  obtain ⟨i, v, node, record, flag⟩ := internal
  have node : (ss.cut cp).node? h = some (.var i v.kind) := by
    rw [node?_cut, if_pos below, node]
  obtain ⟨v', record', -⟩ := restorable.wellFormed.recorded node
  have same : ss.variableRecord? i = some v' := by
    rw [variableRecord?_cut] at record'
    split at record'
    case isTrue => apply record'
    case isFalse => cases record'
  rw [record] at same
  cases same
  exact ⟨i, v, node, record', flag⟩

namespace Restorable

/-- A well-formed session is restored by its own sizes. -/
theorem checkpoint (wf : ss.WellFormed) (exact : ss.TableExact) :
  ss.Restorable ss.checkpoint
  := by
  have emulations : ss.EmulationsInside := by
    intro op hs h known
    obtain ⟨i, v, node, -⟩ := wf.emulated known
    apply (Array.getElem?_eq_some_iff.mp node).1
  use Checkpoint.le_refl _
  apply wf.of_contents ((cut_checkpoint_iff exact.inside).mpr emulations)

theorem extend (restorable : ss.Restorable cp) (grows : ss.Extends tt) :
  tt.Restorable cp
  := by
  use Checkpoint.le_trans restorable.sizes grows.sizes
  apply restorable.wellFormed.of_contents (grows.cut restorable.sizes)

/-- Cutting down to a checkpoint above another. -/
theorem cut (restorable : ss.Restorable cp) (le : cp ≤ c) :
  (ss.cut c).Restorable cp
  := by
  use le_checkpoint_truncate restorable.sizes le
  apply restorable.wellFormed.of_contents (cut_cut le ss)

/-- Remembering an internal variable: where it is not cut off, it is there to be remembered. -/
theorem remember (restorable : ss.Restorable cp) (op : Operator) (hs : List Handle)
    (internal : ss.IsInternal h) :
  (Emulation.remember op hs h ss).Restorable cp
  := by
  use restorable.sizes
  constructor
  · exact restorable.wellFormed.named
  · exact restorable.wellFormed.recorded
  · exact restorable.wellFormed.asserted
  · intro op' hs' g known
    rw [emulated?_cut, Option.filter_eq_some_iff] at known
    obtain ⟨known, below⟩ := known
    rw [emulated?, Emulation.remember, FiniteMap.get?_insert] at known
    split at known
    case isTrue =>
      cases known
      apply internal.cut restorable (of_decide_eq_true below)
    case isFalse =>
      have old : (ss.cut cp).emulated? op' hs' = some g := by
        rw [emulated?_cut, Option.filter_eq_some_iff]
        exact ⟨known, below⟩
      exact restorable.wellFormed.emulated old

theorem conclude (restorable : ss.Restorable cp) (op : Operator) (hs : List Handle)
    (internal : ss.IsInternal h) (condition : Value .bool) :
  (Emulation.conclude op hs h condition ss).2.Restorable cp
  := by
  have grows := Emulation.growsTo_require condition ss
  apply (restorable.extend grows.toExtends).remember op hs (internal.extend grows.toExtends)

end Restorable

end Session

/-- The conduct in which definitions end with conditions of kind Bool. -/
def Conduct.typed (P : Policy) : Conduct where
  policy := P
  conditions ss c := ss.Holds c

namespace Execution

variable {inner : Bool} {c : Configuration} {X : Execution}

/-- The session is well-formed, and so is every session that a rollback may give back. -/
structure Sound (X : Execution) : Prop where
  wellFormed : X.session.WellFormed
  exact : X.session.TableExact
  marks : ∀ m ∈ X.marks, X.session.Restorable m.checkpoint
  starts : ∀ D ∈ X.running, X.session.Restorable D.start
  internal : ∀ D ∈ X.running, X.session.IsInternal D.handle

namespace Sound

/-- Growing the session. -/
theorem extend (h : X.Sound) {ss : Session} (wf : ss.WellFormed) (exact : ss.TableExact)
    (grows : X.session.Extends ss) :
  Sound { X with session := ss }
  where
    wellFormed := wf
    exact := exact
    marks m mem := (h.marks m mem).extend grows
    starts D mem := (h.starts D mem).extend grows
    internal D mem := (h.internal D mem).extend grows

theorem checkpoint (h : X.Sound) :
  Sound { X with marks := ⟨X.running.length, X.session.checkpoint⟩ :: X.marks }
  where
    wellFormed := h.wellFormed
    exact := h.exact
    marks m mem := by
      obtain rfl | mem := List.mem_cons.mp mem
      · apply Session.Restorable.checkpoint h.wellFormed h.exact
      · apply h.marks m mem
    starts := h.starts
    internal := h.internal

/-- Cutting down to a restorable checkpoint above the running definitions. -/
theorem cut (h : X.Sound) {cp : Checkpoint} (restorable : X.session.Restorable cp)
    (above : ∀ D ∈ X.running, D.begun ≤ cp) (outer inner : Bool) :
  Sound { X with
    session := X.session.cut cp
    marks := Policy.remaining ⟨outer, inner, false⟩ cp X.marks }
  where
    wellFormed := restorable.wellFormed
    exact := h.exact.cut cp
    marks m mem := by
      obtain ⟨mem, lower⟩ := List.mem_filter.mp mem
      apply (h.marks m mem).cut
      simpa using lower
    starts D mem := by
      apply (h.starts D mem).cut
      apply Checkpoint.le_trans D.start_le_begun (above D mem)
    internal D mem := (h.internal D mem).cut restorable (above D mem).1

/-- A definition begins with an internal variable. -/
theorem begin (h : X.Sound) (op : Operator) (hs : List Handle) (k : Kind) :
  Sound { X with
    session := (Session.freshInternal k X.session).2
    running := ⟨op, hs, X.session.checkpoint⟩ :: X.running }
  := by
  have grows := (Session.growsTo_freshInternal k X.session).toExtends
  have wf : (Session.freshInternal k X.session).2.WellFormed := h.wellFormed.addVariable _ k true
  have extended := h.extend wf (h.exact.freshInternal k) grows
  constructor
  · apply wf
  · apply extended.exact
  · apply extended.marks
  · intro D mem
    obtain rfl | mem := List.mem_cons.mp mem
    · apply (Session.Restorable.checkpoint h.wellFormed h.exact).extend grows
    · apply extended.starts D mem
  · intro D mem
    obtain rfl | mem := List.mem_cons.mp mem
    · apply Session.isInternal_freshInternal
    · apply extended.internal D mem

/-- A definition ends, and its checkpoints are handed over. -/
theorem finish (h : X.Sound) {D : Definition} {others : List Definition}
    (innermost : X.running = D :: others) (P : Policy) :
  Sound { X with marks := P.handOver others.length X.marks, running := others }
  := by
  have kept : ∀ E ∈ others, E ∈ X.running := fun E mem => by
    rw [innermost]
    apply List.mem_cons_of_mem D mem
  constructor
  · apply h.wellFormed
  · apply h.exact
  · intro m mem
    obtain ⟨-, mem | ⟨-, n, mem, -, same⟩⟩ := Policy.exists_of_mem_handOver mem
    · apply h.marks m mem
    · rw [← same]
      apply h.marks n mem
  · exact fun E mem => h.starts E (kept E mem)
  · exact fun E mem => h.internal E (kept E mem)

/-- The variable of a definition is concluded. -/
theorem conclude (h : X.Sound) (op : Operator) (hs : List Handle) {g : Handle}
    (internal : X.session.IsInternal g) {condition : Value .bool}
    (held : X.session.Holds condition) :
  Sound { X with session := (Emulation.conclude op hs g condition X.session).2 }
  := by
  have wf := h.wellFormed.conclude h.exact held op hs internal
  have grows := Emulation.growsTo_require condition X.session
  constructor
  · apply wf
  · apply h.exact.conclude
  · exact fun m mem => (h.marks m mem).conclude op hs internal condition
  · exact fun D mem => (h.starts D mem).conclude op hs internal condition
  · exact fun D mem => ((h.internal D mem).extend grows.toExtends).congr rfl rfl

end Sound

/-- Where definitions use only checkpoints of their own, and none is used after a rollback below it,
every reached state is sound. -/
theorem Reached.sound (reached : Reached (.typed ⟨false, inner, false⟩) c X) :
  X.Sound
  := by
  induction reached with
  | start =>
      constructor
      · apply Session.wellFormed_empty
      · apply Session.TableExact.empty
      · exact fun m mem => by cases mem
      · exact fun D mem => by cases mem
      · exact fun D mem => by cases mem
  | @step X Y reached step ih =>
      have anchored := reached.anchored rfl
      obtain ⟨es, next⟩ := step
      cases next with
      | edit e _ =>
          obtain ⟨wf, exact⟩ := Session.closed_forming.perform ⟨ih.wellFormed, ih.exact⟩ (e := e)
            ((Session.forming _).admitsEdit_of_usable False.elim e)
          apply ih.extend wf exact (e.extends_perform X.session)
      | checkpoint => apply ih.checkpoint
      | rollback taken allowed accepted =>
          obtain ⟨-, rfl⟩ := ih.exact.rollback?_eq_ok_iff.mp accepted
          have deep := allowed.resolve_left Bool.false_ne_true
          apply ih.cut (ih.marks _ taken)
          exact fun D mem => anchored.begun_le mem taken deep
      | reuse =>
          have grows := (Emulation.growsTo_countReuse X.session).toExtends
          exact ih.extend (ih.wellFormed.of_contents rfl) (ih.exact.congr rfl rfl) grows
      | begin k _ => apply ih.begin
      | conclude innermost condition held =>
          have mem := innermost ▸ List.mem_cons_self
          apply (ih.finish innermost _).conclude _ _ (ih.internal _ mem) held
      | giveUp innermost accepted =>
          obtain ⟨-, rfl⟩ := ih.exact.rollback?_eq_ok_iff.mp accepted
          have mem := innermost ▸ List.mem_cons_self
          apply (ih.finish innermost _).cut (ih.starts _ mem)
          apply anchored.begun_le_start innermost
      | stuck innermost _ => apply ih.finish innermost

/-! ### The restrictions are needed -/

/-- A stale checkpoint cuts off the record of a variable and keeps the variable. -/
theorem exists_unrecorded (outer inner : Bool) :
  ∃ X m ss, Reached (.typed ⟨outer, inner, true⟩) {} X ∧ m ∈ X.marks ∧ X.running.length ≤ m.depth
    ∧ X.session.rollback? m.checkpoint = .ok ss
    ∧ ss.node? ⟨0⟩ = some (.var 0 .int) ∧ ss.variableRecord? 0 = none
  := by
  -- The later checkpoint counts a number, in the place of which there is a variable afterwards.
  let C : Conduct := .typed ⟨outer, inner, true⟩
  let later : Mark := ⟨0, ⟨1, 0, 0⟩⟩
  have empty := (Reached.start (C := C) (c := {})).step ⟨_, .checkpoint⟩
  have number := (empty.step ⟨_, .edit (.literal (.int 7)) trivial⟩).step ⟨_, .checkpoint⟩
  have back := number.step
    ⟨_, .rollback (List.mem_cons_of_mem later List.mem_cons_self) (Or.inr (Nat.le_refl 0)) rfl⟩
  have reached := back.step ⟨_, .edit (.declare "x" .int) trivial⟩
  exact ⟨_, later, _, reached, List.mem_cons_self, Nat.le_refl 0, rfl, rfl, rfl⟩

/-- A definition that goes below its own variable has a literal remembered in its place. -/
theorem exists_remembered_literal (inner stale : Bool) :
  ∃ X m ss, Reached (.typed ⟨true, inner, stale⟩) {} X ∧ m ∈ X.marks ∧ X.running.length ≤ m.depth
    ∧ X.session.rollback? m.checkpoint = .ok ss
    ∧ ss.emulated? .length [] = some ⟨0⟩ ∧ ss.node? ⟨0⟩ = some (.literal (.int 7))
  := by
  let C : Conduct := .typed ⟨true, inner, stale⟩
  have empty := (Reached.start (C := C) (c := {})).step ⟨_, .checkpoint⟩
  have new : ({} : Session).emulated? .length [] = none := rfl
  have begun := empty.step ⟨_, .begin .int new⟩
  have below := begun.step ⟨_, .rollback List.mem_cons_self (Or.inl rfl) rfl⟩
  have concluded := below.step ⟨_, .conclude rfl (.known true) trivial⟩
  have reached := (concluded.step ⟨_, .edit (.literal (.int 7)) trivial⟩).step ⟨_, .checkpoint⟩
  exact ⟨_, ⟨0, ⟨1, 0, 0⟩⟩, _, reached, List.mem_cons_self, Nat.le_refl 0, rfl, rfl, rfl⟩

end Execution

namespace Session

/-- The session after further declarations. -/
def declareAll (ds : List (String × Kind)) (ss : Session) : Session :=
  ds.foldl (fun tt d => (declare d.1 d.2 tt).2) ss

/-- Further declarations keep a session well-formed. -/
theorem WellFormed.declareAll {ss : Session} (wf : ss.WellFormed) (ds : List (String × Kind)) :
  (ss.declareAll ds).WellFormed
  := by
  induction ds generalizing ss with
  | nil => apply wf
  | cons d ds ih => apply ih (wf.addVariable d.1 d.2 false)

end Session

/-- Every accepted rollback leaves a well-formed session, in which the variables have distinct
numbers and have them after further declarations too, exactly when definitions must not use
checkpoints from before their start and none must be used after a rollback below it.  Whether the
checkpoints of a definition are used after its end does not matter. -/
theorem Execution.rollback_wellFormed_iff (outer inner stale : Bool) :
  (∀ c X m ss, Reached (.typed ⟨outer, inner, stale⟩) c X → m ∈ X.marks →
      Policy.Allows ⟨outer, inner, stale⟩ X.running.length m →
      X.session.rollback? m.checkpoint = .ok ss →
      ss.WellFormed ∧ ∀ ds, (ss.declareAll ds).DistinctVariables)
    ↔ outer = false ∧ stale = false
  := by
  constructor
  · intro always
    constructor
    · cases outer with
      | false => rfl
      | true =>
          obtain ⟨X, m, ss, reached, taken, deep, accepted, known, node⟩ :=
            exists_remembered_literal inner stale
          obtain ⟨wf, -⟩ := always {} X m ss reached taken (Or.inr deep) accepted
          obtain ⟨i, v, isVariable, -⟩ := wf.emulated known
          rw [node] at isVariable
          cases isVariable
    · cases stale with
      | false => rfl
      | true =>
          obtain ⟨X, m, ss, reached, taken, deep, accepted, node, none⟩ :=
            exists_unrecorded outer inner
          obtain ⟨wf, -⟩ := always {} X m ss reached taken (Or.inr deep) accepted
          obtain ⟨v, record, -⟩ := wf.recorded node
          rw [none] at record
          cases record
  · rintro ⟨rfl, rfl⟩ c X m ss reached taken - accepted
    obtain ⟨-, rfl⟩ := reached.tableExact.rollback?_eq_ok_iff.mp accepted
    have restorable := reached.sound.marks m taken
    use restorable.wellFormed
    intro ds
    apply (restorable.wellFormed.declareAll ds).distinctVariables

end StringTerms
