import StringTerms.Proofs.Transition

/-!
# Executions

Every run is a sequence of steps that leaves the stack of the running definitions as it is.
Whatever the conduct is, an execution keeps the table exact.  Where definitions use only checkpoints
of their own, each running definition stays above its start: its variable is in the arena, and so is
every remembered value.
-/

namespace StringTerms

open Execution in
/-- A run is a sequence of steps, after which the same definitions are running. -/
theorem Run.reached {P : Policy} {d : Nat} {H K : History} (run : Run P d H K) {c : Configuration}
    {running : List Definition} (depth : running.length = d)
    (reached : Reached { policy := P } c ⟨H.session, H.marks, running⟩) :
  Reached { policy := P } c ⟨K.session, K.marks, running⟩
  := by
  induction run generalizing running with
  | refl => apply reached
  | edit _ e _ ih => apply (ih depth reached).step ⟨_, .edit e trivial⟩
  | checkpoint _ ih =>
      subst depth
      apply (ih rfl reached).step ⟨_, .checkpoint⟩
  | rollback _ taken allowed accepted ih =>
      subst depth
      apply (ih rfl reached).step ⟨_, .rollback taken allowed accepted⟩
  | reuse _ known ih => apply (ih depth reached).step ⟨_, .reuse known⟩
  | @conclude d H K L _ op hs k new body condition ih inner =>
      subst depth
      have begun := (ih rfl reached).step ⟨_, .begin k new⟩
      apply (inner rfl begun).step ⟨_, .conclude rfl condition trivial⟩
  | @giveUp d H K L _ op hs k new body ss accepted ih inner =>
      subst depth
      have begun := (ih rfl reached).step ⟨_, .begin k new⟩
      apply (inner rfl begun).step ⟨_, .giveUp rfl accepted⟩
  | @stuck d H K L _ op hs k new body e refused ih inner =>
      subst depth
      have begun := (ih rfl reached).step ⟨_, .begin k new⟩
      apply (inner rfl begun).step ⟨_, .stuck rfl refused⟩

/-! ### Exact tables -/

/-- An edit leaves remembered values in the arena. -/
theorem Edit.emulationsInside_perform (e : Edit) {ss : Session} (exact : ss.TableExact)
    (inside : ss.EmulationsInside) :
  (e.perform ss).EmulationsInside
  := by
  obtain ⟨K, run, same⟩ := e.exists_run ss
  rw [← same]
  apply run.emulationsInside rfl exact (fun m mem => by cases mem) inside

namespace Execution

variable {C : Conduct} {c : Configuration} {X Y : Execution}

/-- In every state that is reached the table is exact, so a rollback cuts the session down. -/
theorem Reached.tableExact (reached : Reached C c X) :
  X.session.TableExact
  := by
  induction reached with
  | start => apply Session.TableExact.empty
  | @step X Y _ step ih =>
      obtain ⟨es, next⟩ := step
      cases next with
      | edit e _ => apply e.tableExact_perform ih
      | checkpoint => apply ih
      | rollback _ _ accepted =>
          obtain ⟨-, rfl⟩ := Session.rollback?_eq_ok_iff.mp accepted
          apply ih.truncate
      | reuse => exact ih.congr rfl rfl
      | begin k _ => apply ih.freshInternal k
      | conclude _ condition _ => apply ih.conclude
      | giveUp _ accepted =>
          obtain ⟨-, rfl⟩ := Session.rollback?_eq_ok_iff.mp accepted
          apply ih.truncate
      | stuck => apply ih

/-! ### Definitions that use only checkpoints of their own -/

/-- Every running definition is above its start, and so is every checkpoint that it may use. -/
structure Anchored (X : Execution) : Prop where
  depth : ∀ m ∈ X.marks, m.depth ≤ X.running.length
  sizes : ∀ D ∈ X.running, D.begun ≤ X.session.checkpoint
  nested : X.running.Pairwise fun D E => E.begun ≤ D.start
  marks : ∀ {D others}, D :: others <:+ X.running → ∀ m ∈ X.marks, others.length < m.depth →
    D.begun ≤ m.checkpoint

namespace Anchored

/-- A running definition may use only checkpoints above its start. -/
theorem begun_le (h : X.Anchored) {D : Definition} (mem : D ∈ X.running) {m : Mark}
    (taken : m ∈ X.marks) (deep : X.running.length ≤ m.depth) :
  D.begun ≤ m.checkpoint
  := by
  obtain ⟨inner, others, split⟩ := List.append_of_mem mem
  have suffix : D :: others <:+ X.running := ⟨inner, split.symm⟩
  apply h.marks suffix m taken
  apply Nat.lt_of_lt_of_le _ deep
  rw [split, List.length_append, List.length_cons]
  omega

/-- Growing the session. -/
theorem grow (h : X.Anchored) {ss : Session} (sizes : X.session.checkpoint ≤ ss.checkpoint) :
  Anchored { X with session := ss }
  := ⟨h.depth, fun D mem => Checkpoint.le_trans (h.sizes D mem) sizes, h.nested, h.marks⟩

theorem checkpoint (h : X.Anchored) :
  Anchored { X with marks := ⟨X.running.length, X.session.checkpoint⟩ :: X.marks }
  where
    depth m mem := by
      obtain rfl | mem := List.mem_cons.mp mem
      · apply Nat.le_refl
      · apply h.depth m mem
    sizes := h.sizes
    nested := h.nested
    marks {D others} suffix m mem deep := by
      obtain rfl | mem := List.mem_cons.mp mem
      · apply h.sizes D (suffix.mem List.mem_cons_self)
      · apply h.marks suffix m mem deep

/-- Rolling back to a checkpoint that the innermost definition may use. -/
theorem truncate (h : X.Anchored) {cp : Checkpoint} (above : ∀ D ∈ X.running, D.begun ≤ cp)
    (P : Policy) :
  Anchored { X with session := X.session.truncate cp, marks := P.remaining cp X.marks }
  where
    depth m mem := h.depth m (Policy.mem_of_mem_remaining mem)
    sizes D mem := Session.le_checkpoint_truncate (h.sizes D mem) (above D mem)
    nested := h.nested
    marks suffix m mem := h.marks suffix m (Policy.mem_of_mem_remaining mem)

/-- A definition begins at the present sizes. -/
theorem begin (h : X.Anchored) (op : Operator) (hs : List Handle) (k : Kind) :
  Anchored { X with
    session := (Session.freshInternal k X.session).2
    running := ⟨op, hs, X.session.checkpoint⟩ :: X.running }
  := by
  have begun : (Definition.mk op hs X.session.checkpoint).begun
      ≤ (Session.freshInternal k X.session).2.checkpoint := by
    simp [Definition.begun, Session.freshInternal, Session.addVariable, Session.checkpoint,
      Checkpoint.le_iff]
  constructor
  · exact fun m mem => Nat.le_succ_of_le (h.depth m mem)
  · intro D mem
    obtain rfl | mem := List.mem_cons.mp mem
    · apply begun
    · apply Checkpoint.le_trans (h.sizes D mem)
      apply (Session.growsTo_freshInternal k X.session).sizes
  · apply List.pairwise_cons.mpr ⟨h.sizes, h.nested⟩
  · intro D others suffix m mem deep
    obtain same | suffix := List.suffix_cons_iff.mp suffix
    · cases same
      exact absurd (h.depth m mem) (Nat.not_le_of_lt deep)
    · apply h.marks suffix m mem deep

/-- A definition ends, and its checkpoints are handed over. -/
theorem finish (h : X.Anchored) {D : Definition} {others : List Definition}
    (innermost : X.running = D :: others) (P : Policy) :
  Anchored { X with marks := P.handOver others.length X.marks, running := others }
  := by
  have kept : others <:+ X.running := by
    rw [innermost]
    apply List.suffix_cons
  constructor
  · exact fun m mem => (Policy.exists_of_mem_handOver mem).1
  · exact fun E mem => h.sizes E (kept.mem mem)
  · apply h.nested.sublist kept.sublist
  · intro E rest suffix m mem deep
    obtain ⟨-, mem | ⟨same, n, mem, deeper, equal⟩⟩ := Policy.exists_of_mem_handOver mem
    · apply h.marks (suffix.trans kept) m mem deep
    · rw [← equal]
      apply h.marks (suffix.trans kept) n mem (by omega)

/-- The definitions around the innermost one have begun before it. -/
theorem begun_le_start (h : X.Anchored) {D : Definition} {others : List Definition}
    (innermost : X.running = D :: others) :
  ∀ E ∈ others, E.begun ≤ D.start
  := by
  have nested := h.nested
  rw [innermost] at nested
  apply (List.pairwise_cons.mp nested).1

end Anchored

/-- Where definitions use only checkpoints of their own, a step keeps them above their starts. -/
theorem Step.anchored (own : C.policy.outer = false) (step : Step C X Y) (h : X.Anchored) :
  Y.Anchored
  := by
  obtain ⟨es, next⟩ := step
  cases next with
  | edit e _ => apply h.grow (e.extends_perform X.session).sizes
  | checkpoint => apply h.checkpoint
  | rollback taken allowed accepted =>
      obtain ⟨-, rfl⟩ := Session.rollback?_eq_ok_iff.mp accepted
      have deep := allowed.resolve_left (by simp [own])
      apply h.truncate (fun D mem => h.begun_le mem taken deep)
  | reuse => apply h.grow (Emulation.growsTo_countReuse X.session).sizes
  | begin k _ => apply h.begin
  | conclude innermost condition _ =>
      apply (h.finish innermost C.policy).grow
      apply Emulation.checkpoint_le_conclude
  | giveUp innermost accepted =>
      obtain ⟨-, rfl⟩ := Session.rollback?_eq_ok_iff.mp accepted
      apply (h.finish innermost C.policy).truncate (h.begun_le_start innermost)
  | stuck innermost _ => apply h.finish innermost

theorem Reached.anchored (own : C.policy.outer = false) (reached : Reached C c X) :
  X.Anchored
  := by
  induction reached with
  | start =>
      constructor
      · exact fun m mem => by cases mem
      · exact fun D mem => by cases mem
      · apply List.Pairwise.nil
      · exact fun _ m mem => by cases mem
  | step _ step ih => apply step.anchored own ih

/-- The variable of a running definition is in the arena. -/
theorem Anchored.handle_lt (h : X.Anchored) {D : Definition} (mem : D ∈ X.running) :
  D.handle.index < X.session.nodes.size
  := (h.sizes D mem).1

/-- Where definitions use only checkpoints of their own, every remembered value stays in the
arena, also while definitions are running. -/
theorem Reached.emulationsInside (own : C.policy.outer = false) (reached : Reached C c X) :
  X.session.EmulationsInside
  := by
  induction reached with
  | start => exact fun op hs h known => by cases known
  | @step X Y reached step ih =>
      obtain ⟨es, next⟩ := step
      cases next with
      | edit e _ => apply e.emulationsInside_perform reached.tableExact ih
      | checkpoint => apply ih
      | rollback _ _ accepted =>
          obtain ⟨fits, rfl⟩ := Session.rollback?_eq_ok_iff.mp accepted
          apply Session.EmulationsInside.truncate fits
      | reuse => apply ih
      | begin k _ => apply ih.grow (Session.growsTo_freshInternal k X.session)
      | conclude innermost condition _ =>
          have held := (reached.anchored own).handle_lt (innermost ▸ List.mem_cons_self)
          apply ih.conclude held condition
      | giveUp _ accepted =>
          obtain ⟨fits, rfl⟩ := Session.rollback?_eq_ok_iff.mp accepted
          apply Session.EmulationsInside.truncate fits
      | stuck => apply ih

end Execution

end StringTerms
