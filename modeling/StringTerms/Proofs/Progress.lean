import StringTerms.Proofs.KindSoundness
import StringTerms.Proofs.Questions

/-!
# Evaluations succeed

In a well-kinded session, under a model that gives each variable that it assigns a value of its own
kind, every evaluation succeeds.  What is found for a term is a value of its kind or nothing, and it
is a value as soon as every variable below the term is assigned.  So the answer to whether the
assertions are true depends on which of them are true and which are false, and not on their order.
-/

namespace StringTerms

variable {ss : Session} {cps : List Checkpoint} {M : Model} {k : Kind} {ks : List Kind}
  {value : Handle → Except Error (Option Literal)}

/-- The variables that are assigned have values of their own kinds. -/
def Model.Fits (M : Model) (ss : Session) : Prop :=
  ∀ h n k, ss.node? h = some (.var n k) → ∀ v, M.value? h = some v → v.kind = k

/-- A literal of a kind is that of a host value of the kind. -/
theorem Literal.exists_of_kind {l : Literal} (kind : l.kind = k) :
  ∃ v, l = .of k v
  := by
  rw [← kind]
  apply l.exists_of

/-! ### Terms -/

namespace Evaluation

/-- Where a value of its kind or nothing is found for each operand, host values are found for all of
them, or there is nothing for one. -/
theorem exists_found {hs : List Handle} (kinds : ss.HaveKinds hs ks)
    (finds : ∀ g ∈ hs, ∀ {k}, ss.kind? g = some k → ∃ x : Option k.Carrier,
      value g = .ok (x.map (.of k))) :
  ∃ found, hs.mapM value = .ok found
    ∧ (found.mapM id = none ∨ ∃ vs : Operands Kind.Carrier ks, found.mapM id = some vs.literals)
  := by
  induction kinds with
  | nil => exact ⟨[], rfl, Or.inr ⟨.nil, rfl⟩⟩
  | @cons g k hs ks head _ ih =>
      obtain ⟨x, hx⟩ := finds g List.mem_cons_self head
      obtain ⟨found, hfound, all⟩ := ih fun f mem => finds f (List.mem_cons_of_mem g mem)
      refine ⟨x.map (.of k) :: found, ?_, ?_⟩
      · rw [List.mapM_cons, hx, hfound]
        rfl
      · rw [List.mapM_cons]
        cases x with
        | none => exact Or.inl rfl
        | some v =>
            obtain none | ⟨vs, known⟩ := all
            · left
              rw [none]
              rfl
            · right
              use .cons v vs
              rw [known]
              rfl

/-- What is found for a conditional, when a value of its kind or nothing is found for each of its
operands. -/
theorem node_ite_of_found {h c t e : Handle} {j : Kind} {p : Option Bool} {x y : Option j.Carrier}
    (hc : value c = .ok (p.map .bool)) (ht : value t = .ok (x.map (.of j)))
    (he : value e = .ok (y.map (.of j))) :
  ∃ z : Option j.Carrier, node M h value (.application .ite [c, t, e] k) = .ok (z.map (.of j))
  := by
  cases p with
  | none =>
      use none
      simp [node, hc, bind, Except.bind, pure, Except.pure]
  | some p =>
      cases p with
      | true =>
          use x
          simp [node, hc, ht, bind, Except.bind]
      | false =>
          use y
          simp [node, hc, he, bind, Except.bind]

/-- What is found for another application, when host values are found for its operands or there is
nothing for one. -/
theorem node_of_found {h : Handle} {op : Operator} (ne : op ≠ .ite) {j : Kind} {hs : List Handle}
    {found : List (Option Literal)} (all : hs.mapM value = .ok found)
    (known : found.mapM id = none
      ∨ ∃ vs : Operands Kind.Carrier (op.operandKinds j), found.mapM id = some vs.literals) :
  ∃ z : Option (op.kindAt j).Carrier,
    node M h value (.application op hs k) = .ok (z.map (.of (op.kindAt j)))
  := by
  rw [← nodeWith_slice, nodeWith_of_ne_ite ne, all]
  obtain missing | ⟨vs, known⟩ := known
  · use none
    simp [missing, bind, Except.bind, pure, Except.pure]
  · obtain ⟨v, hv⟩ := op.exists_valueWith ByteString.slice j vs
    use some v
    simp [known, hv, bind, Except.bind, pure, Except.pure]

end Evaluation

/-- What is found for a term is a value of its kind, or nothing. -/
theorem Session.WellKinded.exists_direct (wk : ss.WellKinded) (fits : M.Fits ss) {k : Kind}
    {h : Handle} (hk : ss.kind? h = some k) :
  ∃ found : Option k.Carrier, ss.direct M h = .ok (found.map (.of k))
  := by
  obtain ⟨n, hn, rfl⟩ := Option.map_eq_some_iff.mp hk
  rw [direct_of_node hn]
  cases n with
  | literal l =>
      obtain ⟨v, hv⟩ := l.exists_of
      use some v
      exact congrArg (fun l => Except.ok (some l)) hv
  | var n k =>
      cases assigned : M.value? h with
      | none =>
          use none
          simp [Evaluation.node, assigned, pure, Except.pure]
      | some l =>
          have kind := fits h n k hn l assigned
          obtain ⟨v, rfl⟩ := Literal.exists_of_kind kind
          use some v
          simp [Evaluation.node, assigned, Node.kind, pure, Except.pure]
  | application op hs k =>
      obtain ⟨j, kinds, rfl⟩ := wk.kinds hn
      have finds : ∀ g ∈ hs, ∀ {k}, ss.kind? g = some k → ∃ x : Option k.Carrier,
          ss.before M h g = .ok (x.map (.of k)) := by
        intro g mem k hk
        have earlier := wk.earlier hn g mem
        rw [before, if_pos earlier]
        apply exists_direct wk fits hk
      by_cases conditional : op = .ite
      · subst conditional
        obtain ⟨⟩ | ⟨hc, ⟨⟩ | ⟨ht, ⟨⟩ | ⟨he, ⟨⟩⟩⟩⟩ := kinds
        obtain ⟨p, hp⟩ := finds _ (by simp) hc
        obtain ⟨x, hx⟩ := finds _ (by simp) ht
        obtain ⟨y, hy⟩ := finds _ (by simp) he
        apply Evaluation.node_ite_of_found hp hx hy
      · obtain ⟨found, all, known⟩ := Evaluation.exists_found kinds finds
        apply Evaluation.node_of_found conditional all known
termination_by h.index

/-- The host value of what was found for a term of its kind. -/
theorem Evaluation.host_map_of (h : Handle) (found : Option k.Carrier) :
  host h k (found.map (.of k)) = .ok found
  := by
  cases found with
  | none => rfl
  | some v => apply host_eq_some_iff.mpr rfl

/-- Where the variables below a term are assigned, they have values of their kinds. -/
theorem Model.Fits.assigns (fits : M.Fits ss) {h : Handle}
    (assigned : ∀ g n j, ss.Below g h → ss.node? g = some (.var n j) → (M.value? g).isSome) :
  M.Assigns ss h
  := by
  intro g n j below hn
  obtain ⟨l, hl⟩ := Option.isSome_iff_exists.mp (assigned g n j below hn)
  obtain ⟨v, rfl⟩ := Literal.exists_of_kind (fits g n j hn l hl)
  exact ⟨v, hl⟩

/-! ### Assertions -/

/-- Where every term has a truth value or none, all are true exactly when each of them is, and not
all are true exactly when one of them is false. -/
theorem Evaluation.verdict_spec {hs : List Handle}
    (finds : ∀ h ∈ hs, ∃ p : Option Bool, value h = .ok (p.map .bool)) :
  ∃ b, verdict value hs = .ok b
    ∧ (b = some true ↔ ∀ h ∈ hs, value h = .ok (some (.bool true)))
    ∧ (b = some false ↔ ∃ h ∈ hs, value h = .ok (some (.bool false)))
  := by
  induction hs with
  | nil => exact ⟨some true, rfl, by simp, by simp⟩
  | cons h hs ih =>
      obtain ⟨p, hp⟩ := finds h List.mem_cons_self
      obtain ⟨b, found, allTrue, oneFalse⟩ := ih fun g mem => finds g (List.mem_cons_of_mem h mem)
      simp only [List.forall_mem_cons, List.exists_mem_cons_iff, ← allTrue, ← oneFalse, hp]
      rw [verdict, hp]
      obtain _ | _ | _ := p
      case none =>
        -- Without a value for the first term, the others can only decide that one is false.
        refine ⟨if b = some false then some false else none, ?_, ?_, ?_⟩
        · simp only [bind, Except.bind, Option.map_none, found]
          obtain _ | _ | _ := b <;> rfl
        all_goals obtain _ | _ | _ := b <;> simp
      case some.false => exact ⟨some false, rfl, by simp, by simp⟩
      case some.true => exact ⟨b, found, by simp, by simp⟩

namespace Session

open Evaluation Script

/-- The answer to whether the assertions are true is the same for all sessions with the same terms
and the same assertions, in any order. -/
theorem WellFormed.verdict_spec {tt : Session} (wf : ss.WellFormed) (wk : ss.WellKinded)
    (fits : M.Fits ss) (nodes : tt.nodes = ss.nodes)
    (perm : tt.assertions.toList.Perm ss.assertions.toList) :
  ∃ b, verdict (tt.direct M) (tt.assertions.toList.map Assertion.handle) = .ok b
    ∧ (b = some true ↔ ∀ a ∈ ss.assertions, ss.evaluate M a.handle = .ok (some (.bool true)))
    ∧ (b = some false ↔ ∃ a ∈ ss.assertions, ss.evaluate M a.handle = .ok (some (.bool false)))
  := by
  have direct : tt.direct M = ss.direct M := by
    funext h
    rw [direct_eq_evaluateWith, evaluateWith_of_nodes nodes, ← direct_eq_evaluateWith]
  have mem : ∀ a, a ∈ tt.assertions.toList ↔ a ∈ ss.assertions := fun a => by
    rw [perm.mem_iff, Array.mem_toList_iff]
  have finds : ∀ h ∈ tt.assertions.toList.map Assertion.handle,
      ∃ p : Option Bool, ss.direct M h = .ok (p.map .bool) := by
    intro h here
    obtain ⟨a, asserted, rfl⟩ := List.mem_map.mp here
    exact wk.exists_direct fits (wf.asserted a ((mem a).mp asserted))
  obtain ⟨b, found, allTrue, oneFalse⟩ := Evaluation.verdict_spec finds
  simp only [evaluate_eq_direct, ← mem]
  rw [direct]
  refine ⟨b, found, ?_, ?_⟩
  · rw [allTrue, List.forall_mem_map]
  · simp only [oneFalse, List.mem_map, exists_exists_and_eq_and]

/-- Under a model that fits, and whatever the evaluator was asked before, the evaluation of a term
of the session succeeds: it finds a value of the kind of the term, or nothing, and a value where
every variable below the term is assigned; and it finds the same for the term as a value of its
kind.  The assertions, in any order, are found to be true exactly when all of them are true, and not
to be exactly when one of them is false. -/
theorem Built.evaluations_succeed (built : Built false ss cps) (fits : M.Fits ss)
    (asked : List Question) :
  (∀ h k, ss.kind? h = some k → ∃ found : Option k.Carrier,
    ((term ss M h).run.run (memory ss M asked)).1 = .ok (found.map (.of k))
    ∧ ((Evaluation.value ss M (.node h : Value k)).run.run (memory ss M asked)).1 = .ok found
    ∧ ((∀ g n j, ss.Below g h → ss.node? g = some (.var n j) → (M.value? g).isSome) →
      found.isSome))
  ∧ ∀ tt : Session, tt.nodes = ss.nodes → tt.assertions.toList.Perm ss.assertions.toList →
    ∃ b, ((Evaluation.assertions tt M).run.run (memory tt M asked)).1 = .ok b
      ∧ (b = some true ↔ ∀ a ∈ ss.assertions, ss.evaluate M a.handle = .ok (some (.bool true)))
      ∧ (b = some false ↔ ∃ a ∈ ss.assertions, ss.evaluate M a.handle = .ok (some (.bool false)))
  := by
  have wk := built.kinded.toWellKinded
  constructor
  · intro h k hk
    obtain ⟨found, direct⟩ := wk.exists_direct fits hk
    refine ⟨found, ?_, ?_, ?_⟩
    · rw [(Evaluator.gives_term ss M h).answers (sound_memory ss M asked), direct]
    · rw [(gives_value _).answers (sound_memory ss M asked), Evaluation.hostValue, direct]
      apply host_map_of
    · intro assigned
      obtain ⟨v, reads⟩ := wk.reads_of_assigned hk (fits.assigns assigned)
      rw [reading_eq_some_iff, direct] at reads
      cases found with
      | none => cases reads
      | some _ => rfl
  · intro tt nodes perm
    rw [(gives_assertions tt M).answers (sound_memory tt M asked)]
    apply built.wellFormed.verdict_spec wk fits nodes perm

/-- A comparison with an unassigned integer has no value, and together with a false assertion it is
found not to be true, in either order. -/
theorem evaluations_succeed_unassigned :
  ∃ (ss : Session) (M : Model), Built false ss [] ∧ M.Fits ss
    ∧ ss.assertions = #[⟨⟨3⟩, .user⟩, ⟨⟨0⟩, .user⟩]
    ∧ ((term ss M ⟨3⟩).run.run ∅).1 = .ok none
    ∧ ∀ tt : Session, tt.nodes = ss.nodes → tt.assertions.toList.Perm ss.assertions.toList →
      ((Evaluation.assertions tt M).run.run ∅).1 = .ok (some false)
  := by
  have start : Built false {} [] := .start {}
  have declared := (start.edit (.declare "p" .bool) trivial).edit (.declare "n" .int) trivial
  have compared := declared.edit (.operate .atMost (.two (.int 0) (.node ⟨1⟩)))
    ⟨trivial, rfl, trivial⟩
  have built := (compared.edit (.assert ⟨3⟩) trivial).edit (.assert ⟨0⟩) trivial
  let M : Model := (Model.assign {} ⟨0⟩ (.bool false)).assign ⟨3⟩ (.string [])
  obtain ⟨ss, built, fits, asserted, unassigned, value⟩ : ∃ ss : Session, Built false ss []
      ∧ M.Fits ss ∧ ss.assertions = #[⟨⟨3⟩, .user⟩, ⟨⟨0⟩, .user⟩]
      ∧ ((term ss M ⟨3⟩).run.run ∅).1 = .ok none
      ∧ ss.evaluate M ⟨0⟩ = .ok (some (.bool false)) := by
    refine ⟨_, built, ?_, by decide +kernel, by decide +kernel, by decide +kernel⟩
    rintro ⟨j⟩ n k hn v hv
    obtain ⟨inside, hn⟩ := Array.getElem?_eq_some_iff.mp hn
    have below : j < 4 := inside
    obtain rfl | rfl | rfl | rfl : j = 0 ∨ j = 1 ∨ j = 2 ∨ j = 3 := by omega
    · cases hn
      cases hv
      rfl
    all_goals cases hn <;> cases hv
  refine ⟨ss, M, built, fits, asserted, unassigned, ?_⟩
  intro tt nodes perm
  obtain ⟨b, found, -, oneFalse⟩ := (built.evaluations_succeed fits []).2 tt nodes perm
  have refuted : b = some false := oneFalse.mpr ⟨⟨⟨0⟩, .user⟩, by simp [asserted], value⟩
  rw [← refuted]
  exact found

end Session

end StringTerms
