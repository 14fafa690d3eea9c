import StringTerms.Proofs.Traversal
import StringTerms.Proofs.Valuation
import StringTerms.Script.Perform

/-!
# Questions to an evaluator

Several questions are put to one evaluator, which goes on with what it remembers.  A question that
is answered with an error leaves behind what was found before the error, and a conditional leaves
nothing of the branch that it does not select.  Whatever it is that the evaluator remembers, it is
what is found without a memory, so each answer is the one of an evaluator that was asked nothing
before.
-/

namespace StringTerms

variable {ss : Session} {M : Model} {k : Kind} {value : Handle → Except Error (Option Literal)}

namespace Evaluation

/-- The host value of a value, when the terms have the given values. -/
def hostValue (value : Handle → Except Error (Option Literal)) :
    Value k → Except Error (Option k.Carrier)
  | .known v => .ok (some v)
  | .node h => value h >>= host h k

/-- Whether all terms of a list are true, when they have the given values. -/
def verdict (value : Handle → Except Error (Option Literal)) :
    List Handle → Except Error (Option Bool)
  | [] => .ok (some true)
  | h :: hs => do
    match ← value h with
    | some (.bool true) => verdict value hs
    | some (.bool false) => return some false
    | some v => throw (.nonBooleanAssertion v.kind)
    | none =>
      match ← verdict value hs with
      | some false => return some false
      | _ => return none

theorem gives_value (x : Value k) :
  (Evaluation.value ss M x).Gives ss M (hostValue (ss.direct M) x)
  := by
  cases x with
  | known v => apply Evaluator.gives_pure
  | node h => apply gives_value_node

/-- The evaluator looks at the terms of a list as the evaluation without a memory does. -/
theorem gives_allTrue (hs : List Handle) :
  (allTrue ss M hs).Gives ss M (verdict (ss.direct M) hs)
  := by
  induction hs with
  | nil => apply Evaluator.gives_pure
  | cons h hs ih =>
      unfold allTrue verdict
      apply (Evaluator.gives_term ss M h).bind
      rintro (_ | ⟨_ | _⟩ | _) -
      case none =>
        apply ih.bind
        rintro (_ | _ | _) -
        all_goals apply Evaluator.gives_pure
      case some.bool.true => apply ih
      case some.bool.false => apply Evaluator.gives_pure
      all_goals apply Evaluator.gives_throw

theorem gives_assertions (ss : Session) (M : Model) :
  (assertions ss M).Gives ss M (verdict (ss.direct M) (ss.assertions.toList.map Assertion.handle))
  := gives_allTrue _

end Evaluation

namespace Script

/-- The reply that reports a result. -/
def Reply.report {α : Type} (found : α → Reply) : Except Error α → Reply
  | .ok a => found a
  | .error e => .error e

/-- The answer to a question, when the terms have the given values. -/
def Question.answer (ss : Session) (value : Handle → Except Error (Option Literal)) :
    Question → Reply
  | .term h => .report .literal (value h)
  | .value (k := k) x => .report (fun v => .literal (v.map (.of k))) (Evaluation.hostValue value x)
  | .assertions =>
    .report .verdict (Evaluation.verdict value (ss.assertions.toList.map Assertion.handle))

/-- What the evaluator remembers when it has been asked questions. -/
def memory (ss : Session) (M : Model) (asked : List Question) : Evaluation.Memo :=
  ((asked.mapM (reply ss M)).run ∅).2

open Evaluation

variable {memo : Memo}

/-- What a question evaluates, and how the result is reported. -/
theorem run_reply (ss : Session) (M : Model) (q : Question) :
  ∃ (α : Type) (x : Evaluator α) (found : α → Reply) (answer : Except Error α),
    x.Gives ss M answer ∧ q.answer ss (ss.direct M) = .report found answer
      ∧ ∀ memo, (reply ss M q).run memo = (.report found (x.run.run memo).1, (x.run.run memo).2)
  := by
  cases q with
  | term h =>
      refine ⟨_, _, _, _, Evaluator.gives_term ss M h, rfl, ?_⟩
      intro memo
      rw [reply, StateT.run_bind]
      rcases (term ss M h).run.run memo with ⟨_ | _, _⟩ <;> rfl
  | value x =>
      refine ⟨_, _, _, _, gives_value x, rfl, ?_⟩
      intro memo
      rw [reply, StateT.run_bind]
      rcases (Evaluation.value ss M x).run.run memo with ⟨_ | _, _⟩ <;> rfl
  | assertions =>
      refine ⟨_, _, _, _, gives_assertions ss M, rfl, ?_⟩
      intro memo
      rw [reply, StateT.run_bind]
      rcases (Evaluation.assertions ss M).run.run memo with ⟨_ | _, _⟩ <;> rfl

/-- With a sound memory, a question is answered as it is without one, and the memory stays sound. -/
theorem reply_of_sound (sound : memo.Sound ss M) (q : Question) :
  ((reply ss M q).run memo).1 = q.answer ss (ss.direct M)
    ∧ ((reply ss M q).run memo).2.Sound ss M
  := by
  obtain ⟨α, x, found, answer, gives, reported, run⟩ := run_reply ss M q
  rw [run, reported, ← gives.answers sound]
  exact ⟨rfl, gives.sound sound⟩

/-- With a sound memory, questions are answered one after the other as they are without one. -/
theorem replies_of_sound (sound : memo.Sound ss M) (qs : List Question) :
  ((qs.mapM (reply ss M)).run memo).1 = qs.map (Question.answer ss (ss.direct M))
    ∧ ((qs.mapM (reply ss M)).run memo).2.Sound ss M
  := by
  induction qs generalizing memo with
  | nil => exact ⟨rfl, sound⟩
  | cons q qs ih =>
      obtain ⟨first, sound⟩ := reply_of_sound sound q
      obtain ⟨others, sound⟩ := ih sound
      rw [List.mapM_cons, List.map_cons, ← first, ← others]
      exact ⟨rfl, sound⟩

theorem sound_empty (ss : Session) (M : Model) :
  Memo.Sound ss M ∅
  := fun h found known => by cases known

/-- Whatever was asked, what is remembered is what is found without a memory. -/
theorem sound_memory (ss : Session) (M : Model) (asked : List Question) :
  (memory ss M asked).Sound ss M
  := (replies_of_sound (sound_empty ss M) asked).2

end Script

/-! ### Evaluation without a memory -/

/-- The terms have the values of an evaluation that remembers nothing: the value of a node is made
of the values of its operands, which are evaluated wherever they occur. -/
def Session.EvaluatesTo (ss : Session) (M : Model)
    (value : Handle → Except Error (Option Literal)) : Prop :=
  ∀ h, value h =
    match ss.node? h with
    | none => .error (.unknownHandle h)
    | some n => Evaluation.node M h value n

/-- The value of a node is a matter of the values of its operands. -/
theorem Evaluation.node_congr {value other : Handle → Except Error (Option Literal)} {h : Handle}
    {n : Node} (same : ∀ g ∈ n.operands, value g = other g) :
  node M h value n = node M h other n
  := by
  unfold node
  split
  case h_3 c t e _ =>
    rw [same c (by simp [Node.operands]), same t (by simp [Node.operands]),
      same e (by simp [Node.operands])]
  case h_5 op hs _ _ _ =>
    have found : hs.mapM value = hs.mapM other := List.mapM_congr same
    rw [found]
  all_goals rfl

namespace Session

/-- In a session whose nodes come after their operands, the values found are those of an evaluation
that remembers nothing. -/
theorem evaluatesTo_direct
    (earlier : ∀ h n, ss.node? h = some n → ∀ g ∈ n.operands, g.index < h.index) (M : Model) :
  ss.EvaluatesTo M (ss.direct M)
  := by
  intro h
  cases hn : ss.node? h with
  | none => apply direct_of_none hn
  | some n =>
      rw [direct_of_node hn]
      apply Evaluation.node_congr
      intro g mem
      rw [before, if_pos (earlier h n hn g mem)]

/-- In such a session no more than one evaluation remembers nothing. -/
theorem EvaluatesTo.unique {other : Handle → Except Error (Option Literal)}
    (earlier : ∀ h n, ss.node? h = some n → ∀ g ∈ n.operands, g.index < h.index)
    (evaluates : ss.EvaluatesTo M value) (evaluates' : ss.EvaluatesTo M other) (h : Handle) :
  value h = other h
  := by
  rw [evaluates h, evaluates' h]
  cases hn : ss.node? h with
  | none => rfl
  | some n =>
      apply Evaluation.node_congr
      intro g mem
      have precedes := earlier h n hn g mem
      apply unique earlier evaluates evaluates' g
termination_by h.index

open Script

/-- Questions put to one evaluator are answered as each of them is by an evaluator that was asked
nothing before, and as the one evaluation that remembers nothing answers it, errors included. -/
theorem replies_eq_answers
    (earlier : ∀ h n, ss.node? h = some n → ∀ g ∈ n.operands, g.index < h.index) (M : Model) :
  ∃ value, (∀ other, ss.EvaluatesTo M other ↔ other = value)
    ∧ (∀ q, ((reply ss M q).run ∅).1 = q.answer ss value)
    ∧ ∀ qs : List Question,
      ((qs.mapM (reply ss M)).run ∅).1 = qs.map fun q => ((reply ss M q).run ∅).1
  := by
  have evaluates := evaluatesTo_direct earlier M
  have alone : ∀ q, ((reply ss M q).run ∅).1 = q.answer ss (ss.direct M) :=
    fun q => (reply_of_sound (sound_empty ss M) q).1
  use ss.direct M
  refine ⟨?_, alone, ?_⟩
  · intro other
    constructor
    · intro evaluates'
      funext h
      apply evaluates'.unique earlier evaluates h
    · rintro rfl
      apply evaluates
  · intro qs
    rw [(replies_of_sound (sound_empty ss M) qs).1]
    apply List.map_congr_left
    intro q _
    rw [alone]

/-- A conditional that is true, although its other branch is the negation of an integer, and an
assertion of a node that is not there. -/
theorem replies_eq_answers_conditional :
  ∃ (ss : Session) (M : Model) (c t : Handle),
    ss.node? t = some (.application .ite [c, c, ⟨2⟩] .bool)
    ∧ (([.term ⟨2⟩, .term t, .assertions, .term ⟨2⟩, .term t].mapM (reply ss M)).run ∅).1
      = [.error (.illSortedOperand .not 0), .literal (some (.bool true)),
        .error (.unknownHandle ⟨4⟩), .error (.illSortedOperand .not 0), .literal (some (.bool true))]
  := by
  let ss : Session := {
    nodes := #[.var 0 .int, .literal (.bool true), .application .not [⟨0⟩] .bool,
      .application .ite [⟨1⟩, ⟨1⟩, ⟨2⟩] .bool]
    assertions := #[⟨⟨3⟩, .user⟩, ⟨⟨4⟩, .user⟩] }
  let M : Model := Model.assign {} ⟨0⟩ (.int 5)
  have earlier : ∀ h n, ss.node? h = some n → ∀ g ∈ n.operands, g.index < h.index := by
    rintro ⟨i⟩ n hn
    obtain ⟨inside, rfl⟩ := Array.getElem?_eq_some_iff.mp hn
    have below : i < 4 := inside
    obtain rfl | rfl | rfl | rfl : i = 0 ∨ i = 1 ∨ i = 2 ∨ i = 3 := by omega
    all_goals simp [ss, Node.operands]
  obtain ⟨_, -, -, replies⟩ := replies_eq_answers earlier M
  use ss, M, ⟨1⟩, ⟨3⟩, rfl
  rw [replies]
  decide +kernel

end Session

end StringTerms
