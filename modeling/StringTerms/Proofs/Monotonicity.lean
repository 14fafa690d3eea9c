import StringTerms.Proofs.Progress
import StringTerms.Proofs.Traversal

/-!
# Evaluation is monotone

A model that assigns further variables keeps every value that is found.  An application that is no
conditional has a value exactly where all its operands have values, at which its operator has one; a
conditional has the value of the branch that its condition selects, whatever the other branch is.
So a node keeps its value where its operands keep theirs.  Once it is decided whether the assertions
are true, this is kept as well: that all are true rests on the value of each of them, and that they
are not rests on a single one.
-/

namespace StringTerms

variable {ss : Session} {M N : Model} {value other : Handle → Except Error (Option Literal)}
  {h : Handle} {k : Kind} {v : Literal}

/-- `N` gives every handle that `M` assigns the same value. -/
def Model.Within (M N : Model) : Prop :=
  ∀ h v, M.value? h = some v → N.value? h = some v

/-- Where a model fits, so does one that assigns less. -/
theorem Model.Fits.of_within (fits : N.Fits ss) (within : M.Within N) :
  M.Fits ss
  := fun h n k hn v assigned => fits h n k hn v (within h v assigned)

/-- A model fits where it gives the recorded variables values of their kinds. -/
theorem Session.WellFormed.fits_iff (wf : ss.WellFormed) :
  M.Fits ss ↔ ∀ r ∈ ss.vars, ∀ v ∈ M.value? r.handle, v.kind = r.kind
  := by
  constructor
  · intro fits r mem v assigned
    obtain ⟨i, record⟩ := Array.mem_iff_getElem?.mp mem
    apply fits r.handle i r.kind (wf.named record) v assigned
  · intro kinds h i k hn v assigned
    obtain ⟨r, record, rfl⟩ := wf.recorded hn
    obtain ⟨-, rfl⟩ := Node.var.inj (Option.some.inj ((wf.named record).symm.trans hn))
    apply kinds r (Array.mem_of_getElem? record) v assigned

/-- Assigning a handle that had no value is assigning no less. -/
theorem Model.within_assign (unassigned : M.value? h = none) (v : Literal) :
  M.Within (M.assign h v)
  := by
  intro g u assigned
  have other : g ≠ h := by
    rintro rfl
    rw [unassigned] at assigned
    cases assigned
  rw [value?_assign, if_neg other, assigned]

namespace Evaluation

/-! ### Where a node has a value -/

/-- Operands have values together exactly where each of them has one. -/
theorem mapM_values_iff {hs : List Handle} {args : List Literal} :
  (∃ found, hs.mapM value = .ok found ∧ found.mapM id = some args)
    ↔ List.Forall₂ (fun g a => value g = .ok (some a)) hs args
  := by
  simp only [List.mapM_eq_some_iff]
  induction hs generalizing args with
  | nil => simp [pure, Except.pure, eq_comm]
  | cons g hs ih =>
      rw [List.forall₂_cons_left_iff]
      simp only [← ih, List.mapM_cons, Except.bind_eq_ok_iff, pure, Except.pure]
      constructor
      · rintro ⟨_, ⟨x, first, found, all, ⟨⟩⟩, known⟩
        obtain ⟨a, as, rfl, others, rfl⟩ := List.forall₂_cons_left_iff.mp known
        exact ⟨a, as, first, ⟨found, all, others⟩, rfl⟩
      · rintro ⟨a, as, first, ⟨found, all, known⟩, rfl⟩
        exact ⟨_, ⟨some a, first, found, all, rfl⟩, known.cons rfl⟩

/-- An application that is no conditional has the value of its operator at those of its operands. -/
theorem node_application_eq_some_iff {op : Operator} (ne : op ≠ .ite) {hs : List Handle} :
  node M h value (.application op hs k) = .ok (some v)
    ↔ ∃ args, List.Forall₂ (fun g a => value g = .ok (some a)) hs args ∧ op.valueAt args = .ok v
  := by
  rw [← nodeWith_slice, nodeWith_of_ne_ite ne]
  simp only [Operator.valueWith_slice, Except.bind_eq_ok_iff, ← mapM_values_iff]
  constructor
  · rintro ⟨found, all, last⟩
    cases known : found.mapM id with
    | none => simp [known, pure, Except.pure] at last
    | some args =>
        rw [known] at last
        cases result : op.valueAt args with
        | error e => simp [result, throw, throwThe, MonadExceptOf.throw] at last
        | ok u =>
            simp only [result, pure, Except.pure, Except.ok.injEq, Option.some.injEq] at last
            exact ⟨args, ⟨found, all, known⟩, by rw [result, last]⟩
  · rintro ⟨args, ⟨found, all, known⟩, result⟩
    use found, all
    simp [known, result, pure, Except.pure]

/-- A conditional has the value of the branch that its condition selects. -/
theorem node_ite_eq_some_iff {hs : List Handle} :
  node M h value (.application .ite hs k) = .ok (some v)
    ↔ ∃ c t e b, hs = [c, t, e] ∧ value c = .ok (some (.bool b))
      ∧ value (if b then t else e) = .ok (some v)
  := by
  constructor
  · intro found
    unfold node at found
    split at found
    case h_3 c t e _ same =>
      cases same
      obtain ⟨condition, known, branch⟩ := Except.bind_eq_ok_iff.mp found
      split at branch
      case h_1 => exact ⟨c, t, e, true, rfl, known, branch⟩
      case h_2 => exact ⟨c, t, e, false, rfl, known, branch⟩
      all_goals cases branch
    case h_5 conditional same =>
      cases same
      exact absurd rfl conditional
    case h_4 => cases found
    all_goals contradiction
  · rintro ⟨c, t, e, b, rfl, condition, branch⟩
    rw [node, condition]
    cases b <;> exact branch

/-! ### Models that assign more -/

/-- A value that is found first is found the second time, too. -/
def Keeps (first second : Except Error (Option Literal)) : Prop :=
  ∀ v, first = .ok (some v) → second = .ok (some v)

/-- A node keeps its value where its operands keep theirs and the model assigns no less. -/
theorem node_mono (within : M.Within N) {n : Node}
    (keeps : ∀ g ∈ n.operands, Keeps (value g) (other g)) :
  Keeps (node M h value n) (node N h other n)
  := by
  intro v found
  cases n with
  | literal l => exact found
  | var i k =>
      cases assigned : M.value? h with
      | none => simp [node, assigned, pure, Except.pure] at found
      | some l =>
          simp only [node, assigned] at found
          simp only [node, within h l assigned]
          exact found
  | application op hs k =>
      by_cases conditional : op = .ite
      · subst conditional
        obtain ⟨c, t, e, b, rfl, condition, branch⟩ := node_ite_eq_some_iff.mp found
        have selected : (if b then t else e) ∈ [c, t, e] := by cases b <;> simp
        exact node_ite_eq_some_iff.mpr ⟨c, t, e, b, rfl,
          keeps c (by simp [Node.operands]) _ condition, keeps _ selected _ branch⟩
      · obtain ⟨args, all, result⟩ := (node_application_eq_some_iff conditional).mp found
        have all : List.Forall₂ (fun g a => other g = .ok (some a)) hs args :=
          ((List.forall₂_and_left hs args).mpr ⟨fun _ => id, all⟩).imp
            fun g a here => keeps g here.1 a here.2
        exact (node_application_eq_some_iff conditional).mpr ⟨args, all, result⟩

end Evaluation

/-- A term keeps its value under a model that assigns no less. -/
theorem Session.direct_mono (within : M.Within N) (h : Handle) :
  Evaluation.Keeps (ss.direct M h) (ss.direct N h)
  := by
  intro v found
  cases hn : ss.node? h with
  | none =>
      rw [direct_of_none hn] at found
      cases found
  | some n =>
      rw [direct_of_node hn] at found ⊢
      apply Evaluation.node_mono within _ v found
      intro g _
      unfold before
      split
      case isTrue => apply direct_mono within g
      case isFalse =>
        intro u missing
        cases missing
termination_by h.index

namespace Session

open Evaluation Script

/-- It stays decided whether the assertions are true, under a model that assigns no less. -/
theorem WellKinded.verdict_mono {hs : List Handle} (wk : ss.WellKinded)
    (booleans : ∀ h ∈ hs, ss.kind? h = some .bool) (fits : N.Fits ss) (within : M.Within N)
    {b : Bool} (decided : verdict (ss.direct M) hs = .ok (some b)) :
  verdict (ss.direct N) hs = .ok (some b)
  := by
  obtain ⟨found, hfound, allTrue, oneFalse⟩ := verdict_spec fun h mem =>
    wk.exists_direct (fits.of_within within) (booleans h mem)
  obtain ⟨found', hfound', allTrue', oneFalse'⟩ := verdict_spec fun h mem =>
    wk.exists_direct fits (booleans h mem)
  rw [hfound] at decided
  cases decided
  rw [hfound']
  congr 1
  cases b with
  | true =>
      apply allTrue'.mpr
      intro h mem
      apply direct_mono within h _ (allTrue.mp rfl h mem)
  | false =>
      obtain ⟨h, mem, false⟩ := oneFalse.mp rfl
      apply oneFalse'.mpr
      exact ⟨h, mem, direct_mono within h _ false⟩

/-- In a well-kinded session with Boolean assertions, whatever evaluators were asked before, the
value of a term and the answer whether the assertions are true stay the same under a model that fits
and assigns no less. -/
theorem WellKinded.answers_mono (wk : ss.WellKinded)
    (asserted : ∀ a ∈ ss.assertions, ss.kind? a.handle = some .bool) (fits : N.Fits ss)
    (within : M.Within N) (asked asked' : List Question) :
  (∀ h v, ((term ss M h).run.run (memory ss M asked)).1 = .ok (some v) →
    ((term ss N h).run.run (memory ss N asked')).1 = .ok (some v))
  ∧ ∀ b, ((Evaluation.assertions ss M).run.run (memory ss M asked)).1 = .ok (some b) →
    ((Evaluation.assertions ss N).run.run (memory ss N asked')).1 = .ok (some b)
  := by
  constructor
  · intro h v found
    rw [(Evaluator.gives_term ss M h).answers (sound_memory ss M asked)] at found
    rw [(Evaluator.gives_term ss N h).answers (sound_memory ss N asked')]
    apply direct_mono within h v found
  · intro b decided
    rw [(gives_assertions ss M).answers (sound_memory ss M asked)] at decided
    rw [(gives_assertions ss N).answers (sound_memory ss N asked')]
    apply wk.verdict_mono _ fits within decided
    intro h mem
    obtain ⟨a, here, rfl⟩ := List.mem_map.mp mem
    apply asserted a (Array.mem_toList_iff.mp here)

/-- A conditional whose other branch has no value yet, and an assertion about it that is false,
behind an assertion that has no value yet. -/
theorem answers_mono_conditional :
  ∃ (ss : Session) (M N : Model), ss.WellKinded ∧ N.Fits ss ∧ M.Within N
    ∧ (∀ a ∈ ss.assertions, ss.kind? a.handle = some .bool)
    ∧ ss.node? ⟨4⟩ = some (.application .ite [⟨0⟩, ⟨3⟩, ⟨2⟩] .int)
    ∧ ss.evaluate M ⟨2⟩ = .ok none ∧ ss.evaluate N ⟨2⟩ = .ok (some (.int 9))
    ∧ ss.evaluate M ⟨4⟩ = .ok (some (.int 3)) ∧ ss.evaluate N ⟨4⟩ = .ok (some (.int 3))
    ∧ ss.assertions = #[⟨⟨6⟩, .user⟩, ⟨⟨7⟩, .user⟩]
    ∧ ss.evaluate M ⟨6⟩ = .ok none
    ∧ ss.satisfiedBy M = .ok (some false) ∧ ss.satisfiedBy N = .ok (some false)
  := by
  have start : Built false {} [] := .start {}
  have declared := ((start.edit (.declare "p" .bool) trivial).edit (.declare "x" .string)
    trivial).edit (.declare "n" .int) trivial
  have chosen := (declared.edit (.operate .length (.one (.node ⟨1⟩))) ⟨rfl, trivial⟩).edit
    (.operate (.choose .int) (.three (.node ⟨0⟩) (.node ⟨3⟩) (.node ⟨2⟩)))
    ⟨rfl, rfl, rfl, trivial⟩
  have compared := (chosen.edit (.operate .atMost (.two (.int 5) (.node ⟨2⟩)))
    ⟨trivial, rfl, trivial⟩).edit (.operate .atMost (.two (.int 5) (.node ⟨4⟩)))
    ⟨trivial, rfl, trivial⟩
  have built := (compared.edit (.assert ⟨6⟩) trivial).edit (.assert ⟨7⟩) trivial
  let M : Model := (Model.assign {} ⟨0⟩ (.bool true)).assign ⟨1⟩ (.string [97, 98, 99])
  let N : Model := M.assign ⟨2⟩ (.int 9)
  obtain ⟨ss, built, fits, chosen, unassigned, assigned, first, asserted, unknown, refuted⟩ :
      ∃ ss : Session, Built false ss [] ∧ N.Fits ss
        ∧ ss.node? ⟨4⟩ = some (.application .ite [⟨0⟩, ⟨3⟩, ⟨2⟩] .int)
        ∧ ss.evaluate M ⟨2⟩ = .ok none ∧ ss.evaluate N ⟨2⟩ = .ok (some (.int 9))
        ∧ ss.evaluate M ⟨4⟩ = .ok (some (.int 3))
        ∧ ss.assertions = #[⟨⟨6⟩, .user⟩, ⟨⟨7⟩, .user⟩]
        ∧ ss.evaluate M ⟨6⟩ = .ok none ∧ ss.satisfiedBy M = .ok (some false) := by
    refine ⟨_, built, built.wellFormed.fits_iff.mpr ?_, ?_⟩
    all_goals decide +kernel
  have within : M.Within N := Model.within_assign rfl _
  have wk := built.kinded.toWellKinded
  have booleans := built.wellFormed.asserted
  obtain ⟨values, verdicts⟩ := wk.answers_mono booleans fits within [] []
  exact ⟨ss, M, N, wk, fits, within, booleans, chosen, unassigned, assigned, first,
    values ⟨4⟩ _ first, asserted, unknown, refuted, verdicts false refuted⟩

end Session

end StringTerms
