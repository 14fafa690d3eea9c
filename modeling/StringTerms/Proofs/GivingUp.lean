import StringTerms.Proofs.Execution

/-!
# Definitions that give up

Where a definition gives up, its error is reported and the session is rolled back to its sizes
before the variable.  Whatever the definition did, introducing emulated values of its own and
rolling back to checkpoints of its own included, the contents of the session are restored, as long
as every value that was remembered before is in the arena.  A value that an earlier definition left
outside of the arena is forgotten.
-/

namespace StringTerms

namespace Emulation

variable {k : Kind} {op : Operator} {hs : List Handle} {ss tt : Session} {e : Error}
  {define : Value k → ExceptT Error Builder (Value .bool)}

/-- The definition that gives up at once. -/
def refuse (k : Kind) (e : Error) : Value k → ExceptT Error Builder (Value .bool) :=
  fun _ => throw e

/-- A definition that gives up above its start yields its error, in the session rolled back to the
sizes before it. -/
theorem attempt_of_error (new : ss.emulated? op hs = none)
    (fails : (define (.node ss.next)).run (Session.freshInternal k ss).2 = (.error e, tt))
    (above : ss.checkpoint ≤ tt.checkpoint) :
  (attempt k op hs define).run ss = (.error e, tt.truncate ss.checkpoint)
  := by
  have accepted : tt.rollback? ss.checkpoint = .ok (tt.truncate ss.checkpoint) :=
    Session.rollback?_eq_ok_iff.mpr ⟨above.1, rfl⟩
  rw [attempt_of_new new fails]
  simp only [settle, accepted]

end Emulation

/-- A definition that uses only checkpoints taken by itself happens above the session that it
began in, and so rolling back gives that session, cut down to its own sizes. -/
theorem Run.above_begin {P : Policy} {d : Nat} {k : Kind} {ss : Session} {L : History}
    (exact : ss.TableExact) (body : Run P d { session := (Session.freshInternal k ss).2 } L) :
  ss.checkpoint ≤ L.session.checkpoint
    ∧ (L.session.truncate ss.checkpoint).contents = (ss.cut ss.checkpoint).contents
  := by
  have grows := Session.growsTo_freshInternal k ss
  have begun := exact.freshInternal k
  have above := body.above begun grows.sizes (fun m mem => by cases mem)
  use above.sizes
  rw [(body.tableExact begun).truncate_eq_cut]
  apply above.contents.trans grows.contents

namespace Execution

variable {C : Conduct} {c : Configuration} {X : Execution}

/-- In every reached state, within a running definition or not, an emulated value whose definition
gives up yields the error of the definition.  The contents of the session are what they were before
exactly when every remembered value was in the arena, and so they are where definitions use only
checkpoints of their own. -/
theorem Reached.attempt_restores_iff (reached : Reached C c X) {k : Kind} {op : Operator}
    {hs : List Handle} {define : Value k → ExceptT Error Builder (Value .bool)} {e : Error}
    (new : X.session.emulated? op hs = none) {P : Policy} {L : History}
    (body : Run P (X.running.length + 1)
      { session := (Session.freshInternal k X.session).2 } L)
    (fails : (define (.node X.session.next)).run (Session.freshInternal k X.session).2
      = (.error e, L.session)) :
  ∃ restored, (Emulation.attempt k op hs define).run X.session = (.error e, restored)
    ∧ (restored.contents = X.session.contents ↔ X.session.EmulationsInside)
    ∧ (C.policy.outer = false → restored.contents = X.session.contents)
  := by
  obtain ⟨sizes, contents⟩ := body.above_begin reached.tableExact
  have restores : (L.session.truncate X.session.checkpoint).contents = X.session.contents
      ↔ X.session.EmulationsInside := by
    rw [contents]
    apply Session.cut_checkpoint_iff reached.tableExact.inside
  refine ⟨_, Emulation.attempt_of_error new fails sizes, restores, ?_⟩
  intro own
  rw [restores]
  apply reached.emulationsInside own

/-- A definition that gives up at once makes the session forget a value that was left outside of
the arena. -/
theorem attempt_forgets_dangling :
  ∃ (X : Execution) (e : Error) (restored : Session), Reached { policy := ⟨true, true, true⟩ } {} X
    ∧ (Emulation.attempt .int .add [] (Emulation.refuse .int e)).run X.session
      = (.error e, restored)
    ∧ restored.contents ≠ X.session.contents
  := by
  obtain ⟨H, run, known, empty, new⟩ := Run.exists_dangling true true
  let e : Error := .definitionFailed "no definition"
  let begun : Session := (Session.freshInternal .int H.session).2
  have reached : Reached { policy := ⟨true, true, true⟩ } {} ⟨H.session, H.marks, []⟩ :=
    run.reached rfl .start
  have body : Run ⟨true, true, true⟩ 1 { session := begun } { session := begun } := .refl _
  have fails : (Emulation.refuse .int e (.node H.session.next)).run begun = (.error e, begun) := rfl
  obtain ⟨restored, yields, restores, -⟩ := reached.attempt_restores_iff new body fails
  refine ⟨_, e, restored, reached, yields, ?_⟩
  rw [ne_eq, restores]
  intro inside
  have below := inside .length [] ⟨0⟩ known
  rw [empty] at below
  exact absurd below (Nat.lt_irrefl 0)

end Execution

end StringTerms
