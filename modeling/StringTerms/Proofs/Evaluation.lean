import StringTerms.Evaluation.Term
import StringTerms.Proofs.Extension

/-!
# What the evaluator finds

The evaluator remembers what it finds, but what it finds does not depend on what it remembers:
`Session.direct` evaluates a term without a memory, and the evaluator gives its answers, errors
included.
-/

namespace StringTerms

/-- The value of a term, found without a memory of earlier terms. -/
def Session.direct (ss : Session) (M : Model) (h : Handle) : Except Error (Option Literal) :=
  match ss.node? h with
  | none => throw (.unknownHandle h)
  | some n =>
    Evaluation.node M h
      (fun g => if _before : g.index < h.index then ss.direct M g else throw (.unknownHandle g)) n
termination_by h.index

/-- The value that a node would look for in an operand: operands precede it. -/
def Session.before (ss : Session) (M : Model) (h g : Handle) : Except Error (Option Literal) :=
  if g.index < h.index then ss.direct M g else throw (.unknownHandle g)

variable {ss tt : Session} {M : Model} {α β : Type}

theorem Session.direct_of_node {h : Handle} {n : Node} (hn : ss.node? h = some n) :
  ss.direct M h = Evaluation.node M h (ss.before M h) n
  := by
  rw [direct, hn]
  rfl

theorem Session.direct_of_none {h : Handle} (hn : ss.node? h = none) :
  ss.direct M h = .error (.unknownHandle h)
  := by
  rw [direct, hn]
  rfl

namespace Evaluation

/-! ### The memory of the evaluator -/

/-- What is remembered is what would be found. -/
def Memo.Sound (ss : Session) (M : Model) (memo : Memo) : Prop :=
  ∀ h found, memo.get? h = some found → ss.direct M h = .ok found

/-- With a sound memory the evaluator gives the answer, and its memory stays sound. -/
structure Evaluator.Gives (ss : Session) (M : Model) (x : Evaluator α)
    (answer : Except Error α) : Prop where
  answers : ∀ {memo : Memo}, memo.Sound ss M → (x.run.run memo).1 = answer
  sound : ∀ {memo : Memo}, memo.Sound ss M → (x.run.run memo).2.Sound ss M

namespace Evaluator

theorem gives_pure (a : α) :
  Gives ss M (pure a) (.ok a)
  := ⟨fun _ => rfl, id⟩

theorem gives_throw (e : Error) :
  Gives (α := α) ss M (throw e) (.error e)
  := ⟨fun _ => rfl, id⟩

/-- An evaluation that is continued with what it finds. -/
theorem Gives.bind {x : Evaluator α} {answer : Except Error α} {f : α → Evaluator β}
    {g : α → Except Error β} (hx : x.Gives ss M answer)
    (hf : ∀ a, answer = .ok a → (f a).Gives ss M (g a)) :
  (x >>= f).Gives ss M (answer >>= g)
  := by
  have run : ∀ memo, (x >>= f).run.run memo
      = match x.run.run memo with
        | (.ok a, memo) => (f a).run.run memo
        | (.error e, memo) => (.error e, memo) := by
    intro memo
    rw [ExceptT.run_bind, StateT.run_bind]
    rcases x.run.run memo with ⟨_ | _, _⟩ <;> rfl
  constructor
  · intro memo sound
    have answers := hx.answers sound
    have sound := hx.sound sound
    rw [run]
    rcases found : x.run.run memo with ⟨e | a, memo⟩
    · rw [found] at answers
      rw [← answers]
      rfl
    · rw [found] at answers sound
      rw [← answers]
      apply (hf a answers.symm).answers sound
  · intro memo sound
    have answers := hx.answers sound
    have sound := hx.sound sound
    rw [run]
    rcases found : x.run.run memo with ⟨e | a, memo⟩
    · rwa [found] at sound
    · rw [found] at answers sound
      apply (hf a answers.symm).sound sound

/-- Evaluations one after the other. -/
theorem gives_mapM {f : β → Evaluator α} {g : β → Except Error α} (h : ∀ b, (f b).Gives ss M (g b))
    (bs : List β) :
  (bs.mapM f).Gives ss M (bs.mapM g)
  := by
  induction bs with
  | nil => apply gives_pure
  | cons b bs ih =>
      rw [List.mapM_cons, List.mapM_cons]
      apply (h b).bind
      intro a _
      apply ih.bind
      intro as _
      apply gives_pure

/-- The value of a node, where its operands have the values that are looked for. -/
theorem gives_node {operand : Handle → Evaluator (Option Literal)}
    {answer : Handle → Except Error (Option Literal)}
    (h : ∀ g, (operand g).Gives ss M (answer g)) (g : Handle) (n : Node) :
  Gives ss M (node M g operand n) (node M g answer n)
  := by
  unfold node
  split
  case h_1 => apply gives_pure
  case h_2 =>
    split
    case h_1 =>
      split
      case isTrue => apply gives_pure
      case isFalse => apply gives_throw
    case h_2 => apply gives_pure
  case h_3 c t e _ =>
    apply (h c).bind
    rintro (_ | ⟨_ | _⟩ | _) -
    · apply gives_pure
    · apply h e
    · apply h t
    all_goals apply gives_throw
  case h_4 => apply gives_throw
  case h_5 op hs _ _ _ =>
    apply (gives_mapM h hs).bind
    intro found _
    split
    case h_1 =>
      split
      case h_1 => apply gives_pure
      case h_2 => apply gives_throw
    case h_2 => apply gives_pure

/-- What is known already is the answer. -/
theorem gives_of_get {f : Memo → Evaluator α} {answer : Except Error α}
    (h : ∀ memo : Memo, memo.Sound ss M → (f memo).Gives ss M answer) :
  (get >>= f).Gives ss M answer
  := by
  have run : ∀ memo, (get >>= f).run.run memo = (f memo).run.run memo := fun _ => rfl
  constructor
  · intro memo sound
    rw [run]
    apply (h memo sound).answers sound
  · intro memo sound
    rw [run]
    apply (h memo sound).sound sound

/-- Remembering what was found. -/
theorem gives_remember {h : Handle} {found : Option Literal} (here : ss.direct M h = .ok found) :
  Gives ss M (do modify (·.insert h found); return found) (.ok found)
  := by
  constructor
  · intro memo _
    rfl
  · intro memo sound g other known
    have known : (memo.insert h found).get? g = some other := known
    rw [FiniteMap.get?_insert] at known
    split at known
    case isTrue same =>
      cases known
      rw [same, here]
    case isFalse => apply sound g other known

/-- The evaluator finds what is found without a memory. -/
theorem gives_term (ss : Session) (M : Model) (h : Handle) :
  (term ss M h).Gives ss M (ss.direct M h)
  := by
  unfold term
  apply gives_of_get
  intro memo sound
  split
  case h_1 found known =>
    rw [sound h found known]
    apply gives_pure
  case h_2 =>
    split
    case h_1 none =>
      rw [Session.direct_of_none none]
      apply gives_throw
    case h_2 n hn =>
      have operands : ∀ g, Gives ss M
          (if _before : g.index < h.index then term ss M g else throw (.unknownHandle g))
          (ss.before M h g) := by
        intro g
        unfold Session.before
        split
        case isTrue => apply gives_term ss M g
        case isFalse => apply gives_throw
      have here := gives_node operands h n
      rw [← Session.direct_of_node hn] at here
      rw [← bind_pure (ss.direct M h)]
      apply here.bind
      intro found
      apply gives_remember
termination_by h.index

theorem Gives.answer {x : Evaluator α} {answer : Except Error α} (h : x.Gives ss M answer) :
  x.answer = answer
  := by
  apply h.answers
  intro h found known
  cases known

end Evaluator

end Evaluation

/-- An evaluation that has not evaluated anything before finds what is found without a memory. -/
theorem Session.evaluate_eq_direct (ss : Session) (M : Model) (h : Handle) :
  ss.evaluate M h = ss.direct M h
  := (Evaluation.Evaluator.gives_term ss M h).answer

end StringTerms
