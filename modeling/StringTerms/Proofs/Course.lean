import StringTerms.Proofs.Execution

/-!
# Courses of events

A course is a sequence of steps of an execution together with what happened in them.  Every state
that is reached is reached by a course.

A course is orderly when each rollback, that of a definition that gives up included, goes back to a
checkpoint that no rollback has gone below since it was taken.
-/

namespace StringTerms

namespace Execution

/-- The state of a new session. -/
abbrev initial (c : Configuration) : Execution := { session := { configuration := c } }

/-- The states that are reached from a state, with what has happened in between, the latest
first. -/
inductive Course (C : Conduct) (X : Execution) : List Event → Execution → Prop
  | refl : Course C X [] X
  | step {Y Z : Execution} {es fs : List Event} (course : Course C X es Y)
    (next : Transition C Y fs Z) : Course C X (fs ++ es) Z

variable {C : Conduct} {c : Configuration} {X Y Z : Execution} {es fs : List Event}

/-- The states that are reached are those to which a course leads. -/
theorem reached_iff_exists_course :
  Reached C c X ↔ ∃ es, Course C (initial c) es X
  := by
  constructor
  · intro reached
    induction reached with
    | start => exact ⟨_, .refl⟩
    | step _ step ih =>
        obtain ⟨es, course⟩ := ih
        obtain ⟨fs, next⟩ := step
        exact ⟨_, course.step next⟩
  · rintro ⟨es, course⟩
    induction course with
    | refl => apply Reached.start
    | step _ next ih => apply ih.step ⟨_, next⟩

end Execution

/-! ### Orderly courses -/

namespace Event

/-- The checkpoint was taken, and no rollback has gone below it since. -/
def Usable (cp : Checkpoint) : List Event → Prop
  | [] => False
  | .taken d :: es => d = cp ∨ Usable cp es
  | .rolledBack _ d :: es => cp ≤ d ∧ Usable cp es
  | _ :: es => Usable cp es

/-- Each rollback goes back to a checkpoint that no rollback has gone below since it was taken. -/
def Orderly : List Event → Prop
  | [] => True
  | .rolledBack _ cp :: es => Usable cp es ∧ Orderly es
  | _ :: es => Orderly es

variable {es fs : List Event}

/-- What has happened before an orderly course was orderly. -/
theorem Orderly.of_append (orderly : Orderly (fs ++ es)) :
  Orderly es
  := by
  induction fs with
  | nil => apply orderly
  | cons e fs ih =>
      cases e with
      | rolledBack ss cp => apply ih orderly.2
      | _ => apply ih orderly

end Event

end StringTerms
