import StringTerms.Proofs.Course
import StringTerms.Proofs.WellFormed

/-!
# Records of variables

A session is recorded when every variable of its arena has a record that names it.  A checkpoint is
recoverable when the session cut down to it is recorded, that is, when it cuts the arena and the
records at the same variable.  In an orderly course every session is recorded and every checkpoint
that may be used is recoverable, whoever took it: a definition may roll back to a checkpoint from
before its start, and one that it took may be used after its end.
-/

namespace StringTerms

namespace Session

variable {ss tt : Session} {cp c : Checkpoint}

namespace Recorded

/-- Ending a definition shares at most a literal. -/
theorem conclude (recorded : ss.Recorded) (op : Operator) (hs : List Handle) (h : Handle)
    (condition : Value .bool) :
  (Emulation.conclude op hs h condition ss).2.Recorded
  := by
  obtain same | ⟨tt, g, shared, asserted⟩ := Emulation.conclude_cases op hs h condition ss
  · rw [same]
    apply recorded.congr rfl rfl
  · rw [asserted]
    apply (recorded.shares shared.shares).congr rfl rfl

end Recorded

/-- Recorded sessions, with all handles usable. -/
def recording : Discipline where
  sound := Recorded
  usable _ _ _ := True
  mono _ := id
  fold recorded := recorded.congr rfl rfl
  share recorded term _ := ⟨recorded.shares (shares_share term), trivial⟩

theorem introduces_recording :
  recording.Introduces
  where
    reuse recorded := recorded.congr rfl rfl
    begin k recorded := ⟨recorded.addVariable _ k true, trivial⟩
    conclude _ recorded _ := recorded.conclude _ _ _ _

theorem closed_recording :
  recording.Closed
  where
    node _ := trivial
    addVariable name k internal recorded := recorded.addVariable name k internal
    addAssertion _ recorded _ := recorded.congr rfl rfl
    extract recorded hs hi := introduces_recording.extract recorded hs hi

/-- Every edit keeps a session recorded. -/
theorem Recorded.perform (recorded : ss.Recorded) (e : Edit) :
  (e.perform ss).Recorded
  := closed_recording.perform recorded (Discipline.admitsEdit_of_usable trivial e)

/-- Cutting down to the checkpoint leaves a recorded session of its sizes. -/
structure Recoverable (ss : Session) (cp : Checkpoint) : Prop where
  sizes : cp ≤ ss.checkpoint
  recorded : (ss.cut cp).Recorded

namespace Recoverable

/-- A recorded session is recovered by its own sizes. -/
theorem checkpoint (recorded : ss.Recorded) :
  ss.Recoverable ss.checkpoint
  := by
  use Checkpoint.le_refl _
  apply recorded.congr
  · simp [cut, StringTerms.Session.truncate, StringTerms.Session.checkpoint]
  · simp [cut, StringTerms.Session.truncate, StringTerms.Session.checkpoint]

theorem extend (recoverable : ss.Recoverable cp) (grows : ss.Extends tt) :
  tt.Recoverable cp
  := by
  use Checkpoint.le_trans recoverable.sizes grows.sizes
  apply recoverable.recorded.of_contents (grows.cut recoverable.sizes)

/-- Rolling back to a checkpoint above another. -/
theorem truncate (recoverable : ss.Recoverable cp) (le : cp ≤ c) :
  (ss.truncate c).Recoverable cp
  := by
  use le_checkpoint_truncate recoverable.sizes le
  exact (recoverable.recorded.of_contents (cut_cut le ss)).congr rfl rfl

/-- Whether a checkpoint is recoverable does not depend on what is remembered. -/
theorem conclude (recoverable : ss.Recoverable cp) (op : Operator) (hs : List Handle) (h : Handle)
    (condition : Value .bool) :
  (Emulation.conclude op hs h condition ss).2.Recoverable cp
  := by
  have required := recoverable.extend (Emulation.growsTo_require condition ss).toExtends
  exact ⟨required.sizes, required.recorded.congr rfl rfl⟩

end Recoverable

end Session

namespace Execution

variable {C : Conduct} {c : Configuration} {X Y : Execution} {es fs : List Event}

/-- The session is recorded, and every checkpoint that may be used is recoverable. -/
structure Recording (X : Execution) (es : List Event) : Prop where
  recorded : X.session.Recorded
  usable : ∀ cp, Event.Usable cp es → X.session.Recoverable cp

namespace Recording

/-- Growing the session. -/
theorem extend (h : X.Recording es) {ss : Session} (recorded : ss.Recorded)
    (grows : X.session.Extends ss) (marks : List Mark) (running : List Definition) :
  Recording ⟨ss, marks, running⟩ es
  where
    recorded := recorded
    usable cp usable := (h.usable cp usable).extend grows

/-- Rolling back to a checkpoint that may be used. -/
theorem truncate (h : X.Recording es) {cp : Checkpoint} (usable : Event.Usable cp es)
    (marks : List Mark) (running : List Definition) :
  Recording ⟨X.session.truncate cp, marks, running⟩ (.rolledBack X.session cp :: es)
  where
    recorded := (h.usable cp usable).recorded.congr rfl rfl
    usable _ usable := (h.usable _ usable.2).truncate usable.1

/-- Taking a checkpoint. -/
theorem taken (h : X.Recording es) :
  X.Recording (.taken X.session.checkpoint :: es)
  where
    recorded := h.recorded
    usable cp usable := by
      obtain rfl | usable := usable
      · apply Session.Recoverable.checkpoint h.recorded
      · apply h.usable cp usable

/-- What happens in an edit has no effect on which checkpoints may be used. -/
theorem edited (h : X.Recording es) (e : Edit) :
  X.Recording (e.events X ++ es)
  where
    recorded := h.recorded
    usable cp usable := by
      apply h.usable
      obtain same | ⟨op, hs, h, same⟩ | ⟨D, same⟩ := e.events_cases X
      all_goals
        rw [same] at usable
        apply usable

end Recording

/-- A step of an orderly course. -/
theorem Transition.recording (next : Transition C X fs Y) (orderly : Event.Orderly (fs ++ es))
    (h : X.Recording es) :
  Y.Recording (fs ++ es)
  := by
  cases next with
  | edit e _ =>
      apply (h.edited e).extend (h.recorded.perform e) (e.extends_perform X.session)
  | checkpoint =>
      exact h.taken.extend h.recorded (Session.Extends.refl _) _ _
  | rollback _ _ accepted =>
      obtain ⟨-, rfl⟩ := Session.rollback?_eq_ok_iff.mp accepted
      apply h.truncate orderly.1
  | reuse =>
      have grows := (Emulation.growsTo_countReuse X.session).toExtends
      exact ⟨h.recorded.congr rfl rfl, fun cp usable => (h.usable cp usable).extend grows⟩
  | begin k _ =>
      have grows := (Session.growsTo_freshInternal k X.session).toExtends
      apply h.taken.extend (h.recorded.addVariable _ k true) grows
  | conclude _ condition _ =>
      exact ⟨h.recorded.conclude _ _ _ _, fun cp usable => (h.usable cp usable).conclude _ _ _ _⟩
  | giveUp _ accepted =>
      obtain ⟨-, rfl⟩ := Session.rollback?_eq_ok_iff.mp accepted
      apply h.truncate orderly.1
  | stuck => exact ⟨h.recorded, h.usable⟩

/-- A course that goes on in an orderly way. -/
theorem Course.recording_of_recording (later : Course C X fs Y) (h : X.Recording es)
    (orderly : Event.Orderly (fs ++ es)) :
  Y.Recording (fs ++ es)
  := by
  induction later with
  | refl => apply h
  | step _ next ih =>
      rw [List.append_assoc] at orderly ⊢
      apply next.recording orderly (ih orderly.of_append)

/-- In an orderly course every session is recorded, and every checkpoint that may be used is
recoverable. -/
theorem Course.recording (course : Course C (initial c) es X) (orderly : Event.Orderly es) :
  X.Recording es
  := by
  have start : (initial c).Recording [] := by
    constructor
    · exact fun h i k node => by cases node
    · exact fun cp usable => usable.elim
  rw [← List.append_nil es] at orderly ⊢
  apply course.recording_of_recording start orderly

end Execution

end StringTerms
