import StringTerms.Proofs.Course

/-!
# The accounts of a session

The statistics count what is added and never what is discarded.  Over a course they balance: what
has been counted is what the session holds and what the rollbacks have discarded, every rollback has
been counted, and so has every request for an emulated value that has been answered.  A single
request for a literal or an application counts either as a new node or as a hit.
-/

namespace StringTerms

variable {ss tt uu : Session} {m n : Nat}

namespace Session

/-- From one session to the other, as much is counted as is added, no rollback is counted, and so
many requests for emulated values are counted as answered. -/
structure CountsUp (answered : Nat) (ss tt : Session) : Prop where
  nodes : tt.statistics.nodes + ss.nodes.size = ss.statistics.nodes + tt.nodes.size
  vars : tt.statistics.vars + ss.vars.size = ss.statistics.vars + tt.vars.size
  assertions : tt.statistics.assertions + ss.assertions.size
    = ss.statistics.assertions + tt.assertions.size
  rollbacks : tt.statistics.rollbacks = ss.statistics.rollbacks
  emulations : tt.statistics.emulations + tt.statistics.reused
    = ss.statistics.emulations + ss.statistics.reused + answered

namespace CountsUp

theorem refl (ss : Session) :
  CountsUp 0 ss ss
  := ⟨rfl, rfl, rfl, rfl, rfl⟩

theorem trans (h : CountsUp m ss tt) (h' : CountsUp n tt uu) :
  CountsUp (m + n) ss uu
  := by
  obtain ⟨nodes, vars, assertions, rollbacks, emulations⟩ := h
  obtain ⟨nodes', vars', assertions', rollbacks', emulations'⟩ := h'
  constructor <;> omega

end CountsUp

/-- One new node is counted or one hit, and nothing else. -/
def CountsOnce (ss tt : Session) : Prop :=
  tt.statistics = { ss.statistics with nodes := ss.statistics.nodes + 1 }
    ∨ tt.statistics = { ss.statistics with hits := ss.statistics.hits + 1 }

/-- A request for a literal or an application counts once. -/
theorem countsOnce_share (n : Node) (ss : Session) :
  ss.CountsOnce (share n ss).2
  := by
  cases known : ss.table.get? n with
  | some h =>
      right
      rw [share_of_known known]
      rfl
  | none =>
      left
      rw [share_of_new known]
      rfl

theorem countsUp_share (n : Node) (ss : Session) :
  CountsUp 0 ss (share n ss).2
  := by
  cases known : ss.table.get? n with
  | some h =>
      rw [share_of_known known]
      exact ⟨rfl, rfl, rfl, rfl, rfl⟩
  | none =>
      rw [share_of_new known]
      constructor
      case nodes =>
        simp only [addShared, Array.size_push]
        omega
      all_goals rfl

theorem OnlyShares.countsUp (h : ss.OnlyShares tt) :
  CountsUp 0 ss tt
  := by
  induction h with
  | refl => apply CountsUp.refl
  | fold _ ih => exact ⟨ih.nodes, ih.vars, ih.assertions, ih.rollbacks, ih.emulations⟩
  | share _ _ ih => apply ih.trans (countsUp_share _ _)

theorem countsUp_addVariable (name : String) (k : Kind) (internal : Bool) (ss : Session) :
  CountsUp 0 ss (addVariable name k internal ss).2
  := by
  constructor
  case nodes =>
    simp only [addVariable, Array.size_push]
    omega
  case vars =>
    simp only [addVariable, Array.size_push]
    omega
  all_goals rfl

theorem countsUp_addAssertion (h : Handle) (origin : Origin) (ss : Session) :
  CountsUp 0 ss (ss.addAssertion h origin)
  := by
  constructor
  case assertions =>
    simp only [addAssertion, Array.size_push]
    omega
  all_goals rfl

end Session

open Session

/-! ### Requests for emulated values -/

namespace Emulation

theorem countsUp_countReuse (ss : Session) :
  CountsUp 1 ss (countReuse ss)
  := ⟨rfl, rfl, rfl, rfl, rfl⟩

theorem countsUp_remember (op : Operator) (hs : List Handle) (h : Handle) (ss : Session) :
  CountsUp 1 ss (remember op hs h ss)
  := by
  constructor
  case emulations =>
    simp only [remember]
    omega
  all_goals rfl

theorem countsUp_conclude (op : Operator) (hs : List Handle) (h : Handle)
    (condition : Value .bool) (ss : Session) :
  CountsUp 1 ss (conclude op hs h condition ss).2
  := by
  obtain same | ⟨tt, g, shared, asserted⟩ := conclude_cases op hs h condition ss
  · rw [same]
    apply countsUp_remember
  · rw [asserted]
    have required := shared.countsUp.trans (countsUp_addAssertion g .internal tt)
    apply required.trans (countsUp_remember op hs h _)

end Emulation

theorem Strings.countsUp_extract (s : Value .string) (i : Value .int) (ss : Session) :
  CountsUp 1 ss (extract s i ss).2
  := by
  have named := (onlyShares_named s i ss).countsUp
  obtain ⟨h, -, given⟩ | ⟨-, given⟩ := extract_cases s i ss
  · rw [given]
    apply named.trans (Emulation.countsUp_countReuse _)
  · rw [given]
    have begun : CountsUp 0 (Strings.named s i ss).2 (freshInternal .char _).2 :=
      countsUp_addVariable _ .char true _
    have defined := (named.trans begun).trans (onlyShares_defined s i _).countsUp
    apply defined.trans (Emulation.countsUp_conclude _ _ _ _ _)

/-- An edit that extracts no character answers no request for an emulated value. -/
theorem Edit.countsUp_perform (e : Edit) (plain : e.extracts = false) (ss : Session) :
  CountsUp 0 ss (e.perform ss)
  := by
  obtain shared | ⟨name, k, internal, -, added⟩ | ⟨h, origin, added⟩ := e.perform_cases plain ss
  · apply shared.countsUp
  · rw [added]
    apply countsUp_addVariable
  · rw [added]
    apply countsUp_addAssertion

/-! ### Courses -/

namespace Event

/-- The event is a rollback. -/
def isRollback : Event → Bool
  | .rolledBack _ _ => true
  | _ => false

/-- A request for an emulated value was answered. -/
def isAnswer : Event → Bool
  | .reused _ _ _ | .concluded _ _ => true
  | _ => false

/-- How much an event discards, in one of the sizes. -/
def discarded (size : Checkpoint → Nat) : Event → Nat
  | .rolledBack ss cp => size ss.checkpoint - size (ss.truncate cp).checkpoint
  | _ => 0

/-- How much has been discarded, in one of the sizes. -/
def discardedIn (size : Checkpoint → Nat) : List Event → Nat
  | [] => 0
  | E :: es => E.discarded size + discardedIn size es

/-- Events that are no rollbacks discard nothing. -/
theorem discardedIn_append_of_kept (size : Checkpoint → Nat) {es fs : List Event}
    (kept : ∀ E ∈ fs, E.isRollback = false) :
  discardedIn size (fs ++ es) = discardedIn size es
  := by
  induction fs with
  | nil => rfl
  | cons E fs ih =>
      have none : E.discarded size = 0 := by
        cases E with
        | rolledBack => cases kept _ List.mem_cons_self
        | _ => rfl
      rw [List.cons_append, discardedIn, none, Nat.zero_add]
      exact ih fun F mem => kept F (List.mem_cons_of_mem E mem)

end Event

/-- An edit answers as many requests for emulated values as it counts. -/
theorem Edit.countsUp_events (e : Edit) (X : Execution) :
  CountsUp ((e.events X).countP Event.isAnswer) X.session (e.perform X.session)
    ∧ ∀ E ∈ e.events X, E.isRollback = false
  := by
  obtain ⟨s, i, requested, extracted⟩ | ⟨none, plain | same⟩ := e.requested?_cases X.session
  · rw [events, requested, extracted]
    have answer : (Strings.answer s i X.session X.running).isAnswer = true
        ∧ (Strings.answer s i X.session X.running).isRollback = false := by
      obtain ⟨op, hs, h, known⟩ | ⟨D, new⟩ := Strings.answer_cases s i X.session X.running
      · rw [known]
        exact ⟨rfl, rfl⟩
      · rw [new]
        exact ⟨rfl, rfl⟩
    constructor
    · rw [List.countP_singleton, if_pos answer.1]
      apply Strings.countsUp_extract
    · intro E mem
      rw [List.mem_singleton.mp mem]
      apply answer.2
  · rw [events, none]
    exact ⟨e.countsUp_perform plain X.session, fun E mem => by cases mem⟩
  · rw [events, none, same]
    exact ⟨CountsUp.refl X.session, fun E mem => by cases mem⟩

namespace Execution

variable {C : Conduct} {c : Configuration} {X Y : Execution} {es fs : List Event}

/-- What is counted is what the session holds and what has been discarded. -/
structure Balanced (ss : Session) (es : List Event) : Prop where
  nodes : ss.statistics.nodes = ss.nodes.size + Event.discardedIn Checkpoint.nodes es
  vars : ss.statistics.vars = ss.vars.size + Event.discardedIn Checkpoint.vars es
  assertions : ss.statistics.assertions
    = ss.assertions.size + Event.discardedIn Checkpoint.assertions es
  rollbacks : ss.statistics.rollbacks = es.countP Event.isRollback
  emulations : ss.statistics.emulations + ss.statistics.reused = es.countP Event.isAnswer

namespace Balanced

/-- Events that discard nothing. -/
theorem countsUp (h : Balanced ss es) (counted : CountsUp (fs.countP Event.isAnswer) ss tt)
    (kept : ∀ E ∈ fs, E.isRollback = false) :
  Balanced tt (fs ++ es)
  := by
  have none : fs.countP Event.isRollback = 0 := by
    apply List.countP_eq_zero.mpr
    simpa using kept
  have same : ∀ size, Event.discardedIn size (fs ++ es) = Event.discardedIn size es :=
    fun size => Event.discardedIn_append_of_kept size kept
  obtain ⟨nodes, vars, assertions, rollbacks, emulations⟩ := h
  obtain ⟨nodes', vars', assertions', rollbacks', emulations'⟩ := counted
  constructor
  · rw [same]
    omega
  · rw [same]
    omega
  · rw [same]
    omega
  · rw [List.countP_append]
    omega
  · rw [List.countP_append]
    omega

/-- An event that discards nothing. -/
theorem event (h : Balanced ss es) {E : Event} (kept : E.isRollback = false)
    (counted : CountsUp ([E].countP Event.isAnswer) ss tt) :
  Balanced tt (E :: es)
  := by
  apply h.countsUp counted
  intro F mem
  rw [List.mem_singleton.mp mem]
  apply kept

/-- A rollback discards what is not kept. -/
theorem truncate (h : Balanced ss es) (cp : Checkpoint) :
  Balanced (ss.truncate cp) (.rolledBack ss cp :: es)
  := by
  obtain ⟨nodes, vars, assertions⟩ := ss.checkpoint_truncate_le cp
  have discarded : ∀ size, Event.discardedIn size (.rolledBack ss cp :: es)
      = size ss.checkpoint - size (ss.truncate cp).checkpoint + Event.discardedIn size es :=
    fun _ => rfl
  constructor
  · rw [discarded]
    have counted : (ss.truncate cp).statistics.nodes = _ := h.nodes
    simp only [checkpoint] at nodes ⊢
    omega
  · rw [discarded]
    have counted : (ss.truncate cp).statistics.vars = _ := h.vars
    simp only [checkpoint] at vars ⊢
    omega
  · rw [discarded]
    have counted : (ss.truncate cp).statistics.assertions = _ := h.assertions
    simp only [checkpoint] at assertions ⊢
    omega
  · rw [List.countP_cons_of_pos rfl, ← h.rollbacks]
    rfl
  · rw [List.countP_cons_of_neg Bool.false_ne_true, ← h.emulations]
    rfl

end Balanced

/-- A step keeps the balance. -/
theorem Transition.balanced (next : Transition C X fs Y) (h : Balanced X.session es) :
  Balanced Y.session (fs ++ es)
  := by
  cases next with
  | edit e _ =>
      obtain ⟨counted, kept⟩ := e.countsUp_events X
      apply h.countsUp counted kept
  | checkpoint => exact h.event rfl (CountsUp.refl X.session)
  | rollback _ _ accepted =>
      obtain ⟨-, rfl⟩ := rollback?_eq_ok_iff.mp accepted
      apply h.truncate
  | reuse => exact h.event rfl (Emulation.countsUp_countReuse X.session)
  | begin k _ => exact h.event rfl (countsUp_addVariable _ k true X.session)
  | conclude => exact h.event rfl (Emulation.countsUp_conclude _ _ _ _ X.session)
  | giveUp _ accepted =>
      obtain ⟨-, rfl⟩ := rollback?_eq_ok_iff.mp accepted
      apply h.truncate
  | stuck => exact h.event rfl (CountsUp.refl X.session)

/-- Over every course the statistics account for the session: the nodes, variables and assertions
that were counted are those that it holds and those that the rollbacks have discarded, each rollback
that was carried out was counted, and so was each request for an emulated value that was answered.
A request for a literal or an application counts as a new node or as a hit, by one, and as nothing
else. -/
theorem Course.accounts (course : Course C (initial c) es X) :
  X.session.statistics.nodes = X.session.nodes.size + Event.discardedIn Checkpoint.nodes es
  ∧ X.session.statistics.vars = X.session.vars.size + Event.discardedIn Checkpoint.vars es
  ∧ X.session.statistics.assertions
    = X.session.assertions.size + Event.discardedIn Checkpoint.assertions es
  ∧ X.session.statistics.rollbacks = es.countP Event.isRollback
  ∧ X.session.statistics.emulations + X.session.statistics.reused = es.countP Event.isAnswer
  ∧ ∀ ss : Session, (∀ v, CountsOnce ss (Session.literal v ss).2)
    ∧ ∀ op hs k, CountsOnce ss (Session.intern op hs k ss).2
  := by
  have balanced : Balanced X.session es := by
    induction course with
    | refl => exact ⟨rfl, rfl, rfl, rfl, rfl⟩
    | step _ next ih => apply next.balanced ih
  obtain ⟨nodes, vars, assertions, rollbacks, emulations⟩ := balanced
  use nodes, vars, assertions, rollbacks, emulations
  intro ss
  exact ⟨fun v => countsOnce_share _ ss, fun op hs k => countsOnce_share _ ss⟩

/-- A definition that gives up and a rollback discard three nodes, and a definition of the same
value is concluded and used again in between. -/
theorem Course.accounts_discarded :
  ∃ X es, Course { policy := ⟨false, false, false⟩ } (initial {}) es X
    ∧ X.session.nodes.size = 1 ∧ X.session.statistics.nodes = 4
    ∧ Event.discardedIn Checkpoint.nodes es = 3
    ∧ X.session.statistics.rollbacks = es.countP Event.isRollback
    ∧ X.session.statistics.emulations + X.session.statistics.reused = 2
    ∧ es.countP Event.isAnswer = 2
  := by
  let C : Conduct := { policy := ⟨false, false, false⟩ }
  have declared := ((Course.refl (C := C) (X := initial {})).step
    (.edit (.declare "s" .string) trivial)).step .checkpoint
  have begun := declared.step (@Transition.begin _ _ .length [⟨0⟩] .int rfl)
  have gaveUp := (begun.step (.edit (.literal (.int 7)) trivial)).step (.giveUp rfl rfl)
  have again := gaveUp.step (@Transition.begin _ _ .length [⟨0⟩] .int rfl)
  have concluded := again.step (.conclude rfl (.known true) trivial)
  have reused := concluded.step (@Transition.reuse _ _ .length [⟨0⟩] ⟨1⟩ rfl)
  have course := reused.step (.rollback List.mem_cons_self (Or.inr (Nat.le_refl 0)) rfl)
  obtain ⟨nodes, -, -, rollbacks, emulations, -⟩ := course.accounts
  exact ⟨_, _, course, rfl, rfl, rfl, rollbacks, rfl, emulations.symm.trans rfl⟩

end Execution

end StringTerms
