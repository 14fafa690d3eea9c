import StringTerms.Proofs.Records
import StringTerms.Smtlib.Term

/-!
# The meaning of handles

What a handle stands for is settled by the nodes up to it and by the names of the variables among
them: its text and its value under a model depend on nothing else.  A session that is extended has
the same nodes as before and the same records, and so has a session that is rolled back, as far as
the checkpoint reaches, where the checkpoint cuts the arena and the records at the same variable.
Hence a handle keeps its meaning in every orderly course that does not discard its node.
-/

namespace StringTerms

variable {ss tt uu : Session} {g h : Handle} {cp : Checkpoint}

namespace Session

/-- Up to a handle the nodes are the same, and so are the records of the variables among them. -/
structure SameUpTo (h : Handle) (ss tt : Session) : Prop where
  nodes : ∀ g, g.index ≤ h.index → tt.node? g = ss.node? g
  records : ∀ g i k, g.index ≤ h.index → ss.node? g = some (.var i k) →
    tt.variableRecord? i = ss.variableRecord? i

namespace SameUpTo

theorem refl (h : Handle) (ss : Session) :
  SameUpTo h ss ss
  := ⟨fun _ _ => rfl, fun _ _ _ _ _ => rfl⟩

theorem trans (same : SameUpTo h ss tt) (same' : SameUpTo h tt uu) :
  SameUpTo h ss uu
  where
    nodes g le := (same'.nodes g le).trans (same.nodes g le)
    records g i k le node := by
      have later := same'.records g i k le ((same.nodes g le).trans node)
      apply later.trans (same.records g i k le node)

/-- What is the same up to a handle is the same up to an earlier one. -/
theorem mono (same : SameUpTo h ss tt) (le : g.index ≤ h.index) :
  SameUpTo g ss tt
  where
    nodes f before := same.nodes f (Nat.le_trans before le)
    records f i k before := same.records f i k (Nat.le_trans before le)

/-- A handle of the arena stays one. -/
theorem inside (same : SameUpTo h ss tt) (inside : h.index < ss.nodes.size) :
  h.index < tt.nodes.size
  := by
  have node := (same.nodes h (Nat.le_refl _)).trans (Array.getElem?_eq_getElem inside)
  apply (Array.getElem?_eq_some_iff.mp node).1

/-- An extension keeps the nodes, and the records that the session has. -/
theorem of_extends (recorded : ss.Recorded) (grows : ss.Extends tt)
    (inside : h.index < ss.nodes.size) :
  SameUpTo h ss tt
  where
    nodes g le := by
      have node : ss.node? g = some ss.nodes[g.index] := Array.getElem?_eq_getElem (by omega)
      rw [node, grows.node? node]
    records g i k _ node := by
      obtain ⟨v, record, -⟩ := recorded g i k node
      rw [record, grows.variableRecord? record]

/-- A rollback keeps the nodes below the checkpoint, and their records. -/
theorem of_truncate (recoverable : ss.Recoverable cp) (below : h.index < cp.nodes) :
  SameUpTo h ss (ss.truncate cp)
  := by
  have nodes : ∀ g, g.index ≤ h.index → (ss.truncate cp).node? g = ss.node? g := by
    intro g le
    rw [node?_truncate, if_pos (Nat.lt_of_le_of_lt le below)]
  use nodes
  intro g i k le node
  -- The session that is left has a record of the variable, which was there before.
  have recorded : (ss.truncate cp).Recorded := recoverable.recorded.congr rfl rfl
  obtain ⟨v, record, -⟩ := recorded g i k ((nodes g le).trans node)
  rw [variableRecord?_truncate] at record ⊢
  split at record
  case isTrue before => rw [if_pos before]
  case isFalse => cases record

/-- The text of a term is settled by the nodes up to it and the names among them. -/
theorem text {h : Handle} (same : SameUpTo h ss tt) :
  Smtlib.term tt h = Smtlib.term ss h
  := by
  rw [Smtlib.term, Smtlib.term, same.nodes h (Nat.le_refl _)]
  cases hn : ss.node? h with
  | none => rfl
  | some n =>
      cases n with
      | literal v => rfl
      | var i k =>
          have record := same.records h i k (Nat.le_refl _) hn
          simp only [Smtlib.node, Smtlib.variableText, record]
      | application op hs k =>
          have operand : ∀ g, (if _before : g.index < h.index then Smtlib.term tt g
              else Smtlib.unknown g)
                = if _before : g.index < h.index then Smtlib.term ss g else Smtlib.unknown g := by
            intro g
            split
            case isTrue before => apply (same.mono (Nat.le_of_lt before)).text
            case isFalse => rfl
          simp only [Smtlib.node, operand]
termination_by h.index

/-- The value of a term is settled by the nodes up to it. -/
theorem evaluate (same : SameUpTo h ss tt) (M : Model) :
  tt.evaluate M h = ss.evaluate M h
  := by
  rw [← evaluateWith_slice, ← evaluateWith_slice]
  apply evaluateWith_congr same.nodes
  intro _ _
  rfl

end SameUpTo

end Session

namespace Execution

open Session

variable {C : Conduct} {c : Configuration} {X Y : Execution} {es fs : List Event}

/-- A step of an orderly course that does not discard the node. -/
theorem Transition.sameUpTo (next : Transition C X fs Y) (recording : X.Recording es)
    (orderly : Event.Orderly (fs ++ es)) (inside : h.index < X.session.nodes.size)
    (stays : ∀ ss cp, .rolledBack ss cp ∈ fs → h.index < cp.nodes) :
  SameUpTo h X.session Y.session
  := by
  have grow : ∀ {tt}, X.session.Extends tt → SameUpTo h X.session tt :=
    fun grows => SameUpTo.of_extends recording.recorded grows inside
  cases next with
  | edit e _ => apply grow (e.extends_perform X.session)
  | checkpoint => apply SameUpTo.refl
  | rollback _ _ accepted =>
      obtain ⟨-, rfl⟩ := rollback?_eq_ok_iff.mp accepted
      apply SameUpTo.of_truncate (recording.usable _ orderly.1)
      apply stays _ _ List.mem_cons_self
  | reuse => apply grow (Emulation.growsTo_countReuse X.session).toExtends
  | begin k _ => apply grow (growsTo_freshInternal k X.session).toExtends
  | conclude _ condition _ =>
      obtain ⟨nodes, records⟩ := grow (Emulation.growsTo_require condition X.session).toExtends
      exact ⟨nodes, records⟩
  | giveUp _ accepted =>
      obtain ⟨-, rfl⟩ := rollback?_eq_ok_iff.mp accepted
      apply SameUpTo.of_truncate (recording.usable _ orderly.1)
      apply stays _ _ List.mem_cons_self
  | stuck => apply SameUpTo.refl

/-- An orderly course that does not discard the node. -/
theorem Course.sameUpTo (later : Course C X fs Y) (recording : X.Recording es)
    (orderly : Event.Orderly (fs ++ es)) (inside : h.index < X.session.nodes.size)
    (stays : ∀ ss cp, .rolledBack ss cp ∈ fs → h.index < cp.nodes) :
  SameUpTo h X.session Y.session
  := by
  induction later with
  | refl => apply SameUpTo.refl
  | @step Y Z fs gs course next ih =>
      rw [List.append_assoc] at orderly
      have before := orderly.of_append
      have same := ih before fun ss cp mem => stays ss cp (List.mem_append_right gs mem)
      apply same.trans
      apply next.sameUpTo (course.recording_of_recording recording before) orderly
      · apply same.inside inside
      · exact fun ss cp mem => stays ss cp (List.mem_append_left fs mem)

/-- In an orderly course a handle of the arena keeps its node, its kind, its text and its value
under every model as long as no rollback discards its node.  An operation adds nodes at the end of
the arena and no variable and no assertion of the user's; only the extraction of a character adds an
internal variable and an internal assertion, and at most one of each. -/
theorem Course.keeps_meaning (course : Course C (initial c) es X) (later : Course C X fs Y)
    (orderly : Event.Orderly (fs ++ es)) (inside : h.index < X.session.nodes.size)
    (stays : ∀ ss cp, .rolledBack ss cp ∈ fs → h.index < cp.nodes) :
  ((∃ n, X.session.node? h = some n ∧ Y.session.node? h = some n)
    ∧ Y.session.kind? h = X.session.kind? h
    ∧ Smtlib.term Y.session h = Smtlib.term X.session h
    ∧ ∀ M, Y.session.evaluate M h = X.session.evaluate M h)
  ∧ ∀ {ks r} (o : Operation ks r) (xs : Operands Value ks) (ss : Session),
      (o.build xs ss).2.userVariables = ss.userVariables
      ∧ (o.build xs ss).2.userAssertions = ss.userAssertions
      ∧ ss.Appends (o.build xs ss).2
      ∧ (o.extracts = false →
          (o.build xs ss).2.vars = ss.vars ∧ (o.build xs ss).2.assertions = ss.assertions)
  := by
  have same := later.sameUpTo (course.recording orderly.of_append) orderly inside stays
  have node : X.session.node? h = some X.session.nodes[h.index] := Array.getElem?_eq_getElem inside
  have kept : Y.session.node? h = X.session.node? h := same.nodes h (Nat.le_refl _)
  refine ⟨⟨⟨_, node, kept.trans node⟩, ?_, same.text, same.evaluate⟩, ?_⟩
  · rw [kind?, kept, kind?]
  · intro ks r o xs ss
    obtain ⟨appends, plain⟩ := o.appends_build xs ss
    exact ⟨appends.userVariables, appends.userAssertions, appends, plain⟩

/-- The length of a string is the same term after a definition that added a number has given up. -/
theorem Course.keeps_meaning_length :
  ∃ X Y es fs, Course { policy := ⟨false, false, false⟩ } (initial {}) es X
    ∧ Course { policy := ⟨false, false, false⟩ } X fs Y
    ∧ X.session.node? ⟨1⟩ = some (.application .length [⟨0⟩] .int)
    ∧ Y.session.statistics.nodes = 4 ∧ Y.session.statistics.rollbacks = 1
    ∧ Y.session.node? ⟨1⟩ = X.session.node? ⟨1⟩
    ∧ Smtlib.term Y.session ⟨1⟩ = Smtlib.term X.session ⟨1⟩
  := by
  let C : Conduct := { policy := ⟨false, false, false⟩ }
  let s : Value .string := .node ⟨0⟩
  let ss := (defer .int .length (.one s) (Session.declare "s" .string {}).2).2
  let tt := (Session.literal (.int 7) (Session.freshInternal .char ss).2).2
  have before : Course C (initial {}) [] ⟨ss, [], []⟩ :=
    (Course.refl.step (.edit (.declare "s" .string) trivial)).step
      (.edit (.defer .int .length (.one s)) trivial)
  have later : Course C ⟨ss, [], []⟩ [.rolledBack tt ss.checkpoint, .taken ss.checkpoint]
      ⟨tt.truncate ss.checkpoint, [], []⟩ :=
    ((Course.refl.step (@Transition.begin _ _ .charAt [⟨0⟩, ⟨1⟩] .char rfl)).step
      (.edit (.literal (.int 7)) trivial)).step (.giveUp rfl rfl)
  have stays : ∀ uu cp,
      Event.rolledBack uu cp ∈ [.rolledBack tt ss.checkpoint, .taken ss.checkpoint] →
      1 < cp.nodes := by
    intro uu cp mem
    obtain ⟨⟩ | ⟨_, ⟨⟩ | ⟨_, ⟨⟩⟩⟩ := mem
    decide
  obtain ⟨⟨⟨n, node, kept⟩, -, text, -⟩, -⟩ := before.keeps_meaning later (h := ⟨1⟩)
    ⟨Or.inl rfl, trivial⟩ (by decide) stays
  exact ⟨_, _, _, _, before, later, rfl, rfl, rfl, kept.trans node.symm, text⟩

end Execution

end StringTerms
