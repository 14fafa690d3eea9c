import Mathlib.Data.List.Nodup
import StringTerms.Proofs.Course

/-!
# Values that are defined within their own definition

An emulated value is looked up where its definition begins and remembered where the definition ends,
so a definition that asks for its own value in between does not find it and begins to define it
again.  In a course in which no definition gives up and nothing is rolled back, such re-entrance is
the only way in which one value gets two variables, or is defined twice; and where it happens, both
follow as soon as all definitions have ended.
-/

namespace StringTerms

/-- The operator and the operands under which the value is remembered. -/
def Definition.key (D : Definition) : Operator × List Handle := (D.operator, D.operands)

namespace Event

/-- The answer to a request for an emulated value: what was asked for, and the variable. -/
def answer? : Event → Option ((Operator × List Handle) × Handle)
  | .reused op hs h => some ((op, hs), h)
  | .concluded D _ => some (D.key, D.handle)
  | _ => none

/-- A definition that was concluded, with those around it. -/
def conclusion? : Event → Option (Definition × List Definition)
  | .concluded D around => some (D, around)
  | _ => none

/-- The session was rolled back, or a definition could not be. -/
def goesBack : Event → Bool
  | .rolledBack _ _ | .stuck _ => true
  | _ => false

/-- All answers. -/
def answers (es : List Event) : List ((Operator × List Handle) × Handle) := es.filterMap answer?

/-- All definitions that were concluded, with those around them. -/
def conclusions (es : List Event) : List (Definition × List Definition) :=
  es.filterMap conclusion?

/-- A definition was concluded within another one of the same value. -/
def Reenters (es : List Event) : Prop :=
  ∃ D around, (D, around) ∈ conclusions es ∧ ∃ E ∈ around, E.key = D.key

variable {es : List Event} {D : Definition} {others : List Definition}

/-- A conclusion is an answer. -/
theorem answer_of_conclusion (mem : (D, others) ∈ conclusions es) :
  (D.key, D.handle) ∈ answers es
  := by
  obtain ⟨E, mem, same⟩ := List.mem_filterMap.mp mem
  apply List.mem_filterMap.mpr
  use E, mem
  cases E with
  | concluded =>
      cases same
      rfl
  | _ => cases same

/-- A conclusion after which there is no re-entrance. -/
theorem not_reenters_concluded (none : ¬ Reenters (.concluded D others :: es)) :
  ¬ Reenters es ∧ ∀ E ∈ others, E.key ≠ D.key
  := by
  constructor
  · rintro ⟨E, around, mem, inner⟩
    exact none ⟨E, around, List.mem_cons_of_mem _ mem, inner⟩
  · intro E mem same
    exact none ⟨D, others, List.mem_cons_self, E, mem, same⟩

end Event

/-- A value that is concluded is remembered besides the others. -/
theorem Emulation.emulations_conclude (op : Operator) (hs : List Handle) (h : Handle)
    (condition : Value .bool) (ss : Session) :
  (conclude op hs h condition ss).2.emulations = ss.emulations.insert (op, hs) h
  := by
  rw [conclude_eq, remember, (growsTo_require condition ss).emulations]

namespace Execution

variable {C : Conduct} {c : Configuration} {X Y : Execution} {es fs : List Event}

/-! ### Going forward -/

/-- What growing a session, beginning and concluding definitions, and using remembered values
keep. -/
structure Forward (I : Execution → List Event → Prop) : Prop where
  grow : ∀ {X es ss} (marks : List Mark), I X es → X.session.GrowsTo ss →
    I ⟨ss, marks, X.running⟩ es
  taken : ∀ {X es} (cp : Checkpoint), I X es → I X (.taken cp :: es)
  begin : ∀ {X es op hs} (k : Kind), I X es → X.session.emulated? op hs = none →
    I ⟨(Session.freshInternal k X.session).2, X.marks,
      ⟨op, hs, X.session.checkpoint⟩ :: X.running⟩ es
  reuse : ∀ {X es op hs h}, I X es → X.session.emulated? op hs = some h →
    I { X with session := Emulation.countReuse X.session } (.reused op hs h :: es)
  conclude : ∀ {X es D others} (condition : Value .bool) (marks : List Mark), I X es →
    X.running = D :: others →
    I ⟨(Emulation.conclude D.operator D.operands D.handle condition X.session).2, marks, others⟩
      (.concluded D others :: es)

namespace Forward

variable {I : Execution → List Event → Prop}

/-- The extraction of a character begins and concludes a definition, or uses a remembered value. -/
theorem extract (forward : Forward I) (h : I X es) (s : Value .string) (i : Value .int) :
  I { X with session := (Strings.extract s i X.session).2 }
    (Strings.answer s i X.session X.running :: es)
  := by
  have named := forward.grow X.marks h (Strings.onlyShares_named s i X.session).growsTo
  obtain ⟨g, known, given⟩ | ⟨new, given⟩ := Strings.extract_cases s i X.session
  · rw [given, Strings.answer, Emulation.answer, known]
    apply forward.reuse named known
  · rw [given, Strings.answer, Emulation.answer, new]
    have begun := forward.begin .char named new
    have defined := forward.grow X.marks begun (Strings.onlyShares_defined s i _).growsTo
    apply forward.conclude _ X.marks defined rfl

/-- A step that does not go back. -/
theorem transition (forward : Forward I) (next : Transition C X fs Y)
    (onward : ∀ E ∈ fs, E.goesBack = false) (h : I X es) :
  I Y (fs ++ es)
  := by
  cases next with
  | edit e _ =>
      obtain ⟨s, i, requested, extracted⟩ | ⟨none, plain | same⟩ := e.requested?_cases X.session
      · rw [Edit.events, requested, extracted]
        apply forward.extract h s i
      · rw [Edit.events, none]
        apply forward.grow X.marks h (e.growsTo_perform plain X.session)
      · rw [Edit.events, none, same]
        apply h
  | checkpoint => exact forward.taken _ (forward.grow _ h (Session.GrowsTo.refl X.session))
  | rollback => cases onward _ List.mem_cons_self
  | reuse known => apply forward.reuse h known
  | begin k new => apply forward.taken _ (forward.begin k h new)
  | conclude innermost condition _ => apply forward.conclude condition _ h innermost
  | giveUp => cases onward _ List.mem_cons_self
  | stuck => cases onward _ List.mem_cons_self

/-- A course that does not go back. -/
theorem course (forward : Forward I) (start : I (initial c) []) (course : Course C (initial c) es X)
    (onward : ∀ E ∈ es, E.goesBack = false) :
  I X es
  := by
  induction course with
  | refl => apply start
  | step _ next ih =>
      apply forward.transition next
      · exact fun E mem => onward E (List.mem_append_left _ mem)
      · apply ih
        exact fun E mem => onward E (List.mem_append_right _ mem)

end Forward

/-! ### Without re-entrance -/

/-- Every answer is remembered, no running definition is, and no value has been defined twice. -/
structure Single (X : Execution) (es : List Event) : Prop where
  answered : ∀ key h, (key, h) ∈ Event.answers es → X.session.emulations.get? key = some h
  running : ∀ D ∈ X.running, X.session.emulations.get? D.key = none
  once : ((Event.conclusions es).map fun c => c.1.key).Nodup

namespace Single

/-- A running definition has not been concluded before. -/
theorem new (h : X.Single es) {D : Definition} (mem : D ∈ X.running) :
  D.key ∉ (Event.conclusions es).map fun c => c.1.key
  := by
  intro concluded
  obtain ⟨⟨E, around⟩, mem', same⟩ := List.mem_map.mp concluded
  have known := h.answered E.key E.handle (Event.answer_of_conclusion mem')
  have same : E.key = D.key := same
  rw [same, h.running D mem] at known
  cases known

/-- Concluding a definition that is within no other of the same value. -/
theorem conclude (h : X.Single es) {D : Definition} {others : List Definition}
    (innermost : X.running = D :: others) (apart : ∀ E ∈ others, E.key ≠ D.key)
    (condition : Value .bool) (marks : List Mark) :
  Single ⟨(Emulation.conclude D.operator D.operands D.handle condition X.session).2, marks, others⟩
    (.concluded D others :: es)
  := by
  have mem : D ∈ X.running := innermost ▸ List.mem_cons_self
  have remembered :
      (Emulation.conclude D.operator D.operands D.handle condition X.session).2.emulations
        = X.session.emulations.insert D.key D.handle := Emulation.emulations_conclude _ _ _ _ _
  constructor
  · intro key g answer
    rw [remembered, FiniteMap.get?_insert]
    obtain ⟨⟩ | ⟨_, answer⟩ := answer
    · apply if_pos rfl
    · -- What was answered is remembered, which the value of a running definition is not.
      have known := h.answered key g answer
      rw [if_neg, known]
      rintro rfl
      rw [h.running D mem] at known
      cases known
  · intro E other
    rw [remembered, FiniteMap.get?_insert, if_neg (apart E other)]
    apply h.running E (innermost ▸ List.mem_cons_of_mem D other)
  · apply List.nodup_cons.mpr ⟨h.new mem, h.once⟩

end Single

theorem single_initial (c : Configuration) :
  (initial c).Single []
  where
    answered key h answer := by cases answer
    running D mem := by cases mem
    once := List.nodup_nil

/-- Where there is no re-entrance, answers are remembered and running definitions are not. -/
theorem forward_single :
  Forward fun X es => ¬ Event.Reenters es → X.Single es
  where
    grow _ h grows none := by
      obtain ⟨answered, running, once⟩ := h none
      rw [← grows.emulations] at answered running
      exact ⟨answered, running, once⟩
    taken _ h none := ⟨(h none).answered, (h none).running, (h none).once⟩
    begin _ h new none := by
      have single := h none
      refine ⟨single.answered, ?_, single.once⟩
      intro D mem
      obtain rfl | mem := List.mem_cons.mp mem
      · exact new
      · exact single.running D mem
    reuse h known none := by
      have single := h none
      refine ⟨?_, single.running, single.once⟩
      intro key g answer
      obtain ⟨⟩ | ⟨_, answer⟩ := answer
      · exact known
      · exact single.answered key g answer
    conclude condition marks h innermost none := by
      obtain ⟨none, apart⟩ := Event.not_reenters_concluded none
      apply (h none).conclude innermost apart

/-! ### With re-entrance -/

/-- The variables of the running definitions are in the arena, later ones further in, and so were
those of the definitions around one that was concluded; each of these is still running or was
concluded in turn. -/
structure Stacked (X : Execution) (es : List Event) : Prop where
  inside : ∀ D ∈ X.running, D.handle.index < X.session.nodes.size
  later : X.running.Pairwise fun D E => E.handle.index < D.handle.index
  around : ∀ D others, (D, others) ∈ Event.conclusions es → ∀ E ∈ others,
    E.handle.index < D.handle.index
      ∧ (E ∈ X.running ∨ ∃ others', (E, others') ∈ Event.conclusions es)

namespace Stacked

/-- A definition begins with the next variable. -/
theorem begin (h : X.Stacked es) (k : Kind) (op : Operator) (hs : List Handle) (marks : List Mark) :
  Stacked ⟨(Session.freshInternal k X.session).2, marks,
    ⟨op, hs, X.session.checkpoint⟩ :: X.running⟩ es
  := by
  have size : (Session.freshInternal k X.session).2.nodes.size = X.session.nodes.size + 1 := by
    simp [Session.freshInternal, Session.addVariable]
  constructor
  · intro D mem
    rw [size]
    obtain rfl | mem := List.mem_cons.mp mem
    · apply Nat.lt_succ_self
    · apply Nat.lt_succ_of_lt (h.inside D mem)
  · apply List.pairwise_cons.mpr ⟨h.inside, h.later⟩
  · intro D others concluded E mem
    obtain ⟨before, still⟩ := h.around D others concluded E mem
    exact ⟨before, still.imp_left (List.mem_cons_of_mem _)⟩

/-- The innermost definition is concluded. -/
theorem conclude (h : X.Stacked es) {D : Definition} {others : List Definition}
    (innermost : X.running = D :: others) (condition : Value .bool) (marks : List Mark) :
  Stacked ⟨(Emulation.conclude D.operator D.operands D.handle condition X.session).2, marks, others⟩
    (.concluded D others :: es)
  := by
  obtain ⟨inside, later, around⟩ := h
  rw [innermost] at inside later around
  obtain ⟨before, later⟩ := List.pairwise_cons.mp later
  have size := (Emulation.checkpoint_le_conclude D.operator D.operands D.handle condition
    X.session).1
  constructor
  · intro E mem
    apply Nat.lt_of_lt_of_le (inside E (List.mem_cons_of_mem D mem)) size
  · apply later
  · intro E others' concluded F mem
    obtain ⟨⟩ | ⟨_, concluded⟩ := concluded
    · exact ⟨before F mem, Or.inl mem⟩
    · -- Of the definitions around an earlier conclusion, only `D` stops running, and is concluded.
      obtain ⟨earlier, running | ⟨outer, concluded⟩⟩ := around E others' concluded F mem
      · obtain rfl | mem := List.mem_cons.mp running
        · exact ⟨earlier, Or.inr ⟨others, List.mem_cons_self⟩⟩
        · exact ⟨earlier, Or.inl mem⟩
      · exact ⟨earlier, Or.inr ⟨outer, List.mem_cons_of_mem _ concluded⟩⟩

/-- Once all definitions have ended, re-entrance has left two variables of one value. -/
theorem exists_two (h : X.Stacked es) (ended : X.running = []) (reenters : Event.Reenters es) :
  ∃ D E, (∃ others, (D, others) ∈ Event.conclusions es)
    ∧ (∃ others, (E, others) ∈ Event.conclusions es) ∧ E.key = D.key ∧ E.handle ≠ D.handle
  := by
  obtain ⟨D, others, concluded, E, mem, same⟩ := reenters
  obtain ⟨earlier, running | concluded'⟩ := h.around D others concluded E mem
  · rw [ended] at running
    cases running
  · refine ⟨D, E, ⟨others, concluded⟩, concluded', same, ?_⟩
    intro equal
    rw [equal] at earlier
    apply Nat.lt_irrefl _ earlier

end Stacked

theorem stacked_initial (c : Configuration) :
  (initial c).Stacked []
  where
    inside D mem := by cases mem
    later := List.Pairwise.nil
    around D others concluded := by cases concluded

/-- Definitions that have begun are concluded, the innermost one first. -/
theorem forward_stacked :
  Forward Stacked
  where
    grow _ h grows := by
      refine ⟨?_, h.later, h.around⟩
      exact fun D mem => Nat.lt_of_lt_of_le (h.inside D mem) grows.sizes.1
    taken _ h := ⟨h.inside, h.later, h.around⟩
    begin k h _ := h.begin k _ _ _
    reuse h _ := ⟨h.inside, h.later, h.around⟩
    conclude condition marks h innermost := h.conclude innermost condition marks

/-! ### One variable -/

/-- In a course without rollback, in which no definition gives up, and after which none is running,
all answers to requests for one value are one variable exactly when no definition was concluded
within another one of the same value, and this is also when no value was defined twice.  Each time a
definition is concluded at most one assertion is made. -/
theorem Course.one_variable_iff (course : Course C (initial c) es X)
    (onward : ∀ E ∈ es, E.goesBack = false) (ended : X.running = []) :
  ((∀ key g h, (key, g) ∈ Event.answers es → (key, h) ∈ Event.answers es → g = h)
    ↔ ¬ Event.Reenters es)
  ∧ (((Event.conclusions es).map fun c => c.1.key).Nodup ↔ ¬ Event.Reenters es)
  ∧ ∀ op hs h condition ss, (Emulation.conclude op hs h condition ss).2.assertions = ss.assertions
    ∨ ∃ g, (Emulation.conclude op hs h condition ss).2.assertions
      = ss.assertions.push ⟨g, .internal⟩
  := by
  have single := forward_single.course (fun _ => single_initial c) course onward
  have stacked := forward_stacked.course (stacked_initial c) course onward
  refine ⟨⟨?_, ?_⟩, ⟨?_, fun none => (single none).once⟩, ?_⟩
  · intro same reenters
    obtain ⟨D, E, ⟨_, concluded⟩, ⟨_, concluded'⟩, key, apart⟩ := stacked.exists_two ended reenters
    have answer := Event.answer_of_conclusion concluded'
    rw [key] at answer
    apply apart (same _ _ _ answer (Event.answer_of_conclusion concluded))
  · intro none key g h first second
    have known := (single none).answered key g first
    rw [(single none).answered key h second] at known
    cases known
    rfl
  · intro once reenters
    obtain ⟨D, E, ⟨_, concluded⟩, ⟨_, concluded'⟩, key, apart⟩ := stacked.exists_two ended reenters
    cases List.inj_on_of_nodup_map once concluded' concluded key
    apply apart rfl
  · intro op hs h condition ss
    obtain same | ⟨tt, g, shared, asserted⟩ := Emulation.conclude_cases op hs h condition ss
    · left
      rw [same, Emulation.remember]
    · right
      use g
      rw [asserted, Emulation.remember, Session.addAssertion, shared.shares.assertions]

/-- A length that is asked for within its own definition gets two variables and is defined twice. -/
theorem Course.one_variable_reentered :
  ∃ X es, Course { policy := ⟨false, false, false⟩ } (initial {}) es X
    ∧ (∀ E ∈ es, E.goesBack = false) ∧ X.running = []
    ∧ Event.answers es = [((.length, []), ⟨1⟩), ((.length, []), ⟨2⟩)]
    ∧ X.session.assertions = #[⟨⟨0⟩, .internal⟩, ⟨⟨0⟩, .internal⟩]
    ∧ ¬ ((Event.conclusions es).map fun c => c.1.key).Nodup
  := by
  let C : Conduct := { policy := ⟨false, false, false⟩ }
  let p : Value .bool := .node ⟨0⟩
  have outer := ((Course.refl (C := C) (X := initial {})).step
    (.edit (.declare "p" .bool) trivial)).step (@Transition.begin _ _ .length [] .int rfl)
  have inner := outer.step (@Transition.begin _ _ .length [] .int rfl)
  have concluded := inner.step (.conclude rfl p trivial)
  have course := concluded.step (.conclude rfl p trivial)
  have onward : ∀ E : Event, E ∈ [.concluded ⟨.length, [], ⟨1, 1, 0⟩⟩ [],
      .concluded ⟨.length, [], ⟨2, 2, 0⟩⟩ [⟨.length, [], ⟨1, 1, 0⟩⟩], .taken ⟨2, 2, 0⟩,
      .taken ⟨1, 1, 0⟩] → E.goesBack = false := by
    simp [Event.goesBack]
  obtain ⟨-, twice, -⟩ := course.one_variable_iff onward rfl
  refine ⟨_, _, course, onward, rfl, rfl, rfl, ?_⟩
  rw [twice, not_not]
  exact ⟨_, _, List.mem_cons_of_mem _ List.mem_cons_self, _, List.mem_cons_self, rfl⟩

end Execution

end StringTerms
