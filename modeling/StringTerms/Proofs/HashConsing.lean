import StringTerms.Proofs.Closure
import StringTerms.Proofs.Execution
import StringTerms.Proofs.Traversal

/-!
# Hash-consing

A session is hash-consed when operands precede the nodes that are made of them and the table maps
the literals and applications of the arena, and nothing else, to their handles.  Then no literal and
no application stands twice in the arena, and by induction along the arena two handles unfold to the
same term only if they are equal.  Every step of an execution keeps a session hash-consed, whichever
checkpoints are rolled back to, as long as the operands that edits are given are in the arena.
-/

namespace StringTerms

/-- A term whose operands are terms, with variables named by their handles. -/
inductive Term where
  | literal (v : Literal)
  | var (h : Handle)
  | application (op : Operator) (operands : List Term) (k : Kind)

namespace Session

/-- The term that a handle unfolds to, if all operands are earlier nodes. -/
def term? (ss : Session) (h : Handle) : Option Term :=
  match ss.node? h with
  | none => none
  | some (.literal v) => some (.literal v)
  | some (.var _ _) => some (.var h)
  | some (.application op hs k) => do
    let ts ← hs.mapM fun g => if _before : g.index < h.index then ss.term? g else none
    return .application op ts k
termination_by h.index

/-- The table maps the literals and applications of the arena to their handles, and operands are
earlier nodes. -/
structure Consed (ss : Session) : Prop extends ss.TableExact where
  earlier : ∀ {h n}, ss.node? h = some n → ∀ g ∈ n.operands, g.index < h.index

variable {ss tt : Session}

/-! ### What keeps a session hash-consed -/

theorem consed_empty (c : Configuration) :
  Consed { configuration := c }
  where
    toTableExact := TableExact.empty c
    earlier hn := by cases hn

namespace Consed

/-- Whether a session is hash-consed is a matter of its arena and its table. -/
theorem congr (h : ss.Consed) (nodes : tt.nodes = ss.nodes) (table : tt.table = ss.table) :
  tt.Consed
  where
    toTableExact := h.toTableExact.congr nodes table
    earlier {g n} hn := by
      rw [node?, nodes] at hn
      apply h.earlier hn

/-- Sharing a node whose operands are in the arena. -/
theorem share (h : ss.Consed) {n : Node} (term : n.var? = none)
    (inside : ∀ g ∈ n.operands, g.index < ss.nodes.size) :
  (Session.share n ss).2.Consed ∧ (Session.share n ss).1.index < (Session.share n ss).2.nodes.size
  := by
  have exact := h.toTableExact.share term
  constructor
  · use exact
    intro f m hm
    cases known : ss.table.get? n with
    | some g =>
        rw [share_of_known known] at hm
        apply h.earlier hm
    | none =>
        rw [share_of_new known, node?_addShared] at hm
        split at hm
        case isTrue last =>
          cases hm
          rw [last]
          apply inside
        case isFalse => apply h.earlier hm
  · apply exact.inside n _ (table_share n ss)

/-- A variable is no operand of another node. -/
theorem addVariable (h : ss.Consed) (name : String) (k : Kind) (internal : Bool) :
  (Session.addVariable name k internal ss).2.Consed
  where
    toTableExact := h.toTableExact.addVariable name k internal
    earlier {f m} hm := by
      rw [node?_addVariable] at hm
      split at hm
      case isTrue =>
        cases hm
        exact fun g mem => by cases mem
      case isFalse => apply h.earlier hm

/-- Rolling back keeps whole terms, and the entries of the table for them. -/
theorem truncate (h : ss.Consed) (cp : Checkpoint) :
  (ss.truncate cp).Consed
  where
    toTableExact := h.toTableExact.truncate cp
    earlier {f m} hm := by
      rw [node?_truncate] at hm
      split at hm
      case isTrue => apply h.earlier hm
      case isFalse => cases hm

/-- Ending a definition shares at most the literal of its condition. -/
theorem conclude (h : ss.Consed) (op : Operator) (hs : List Handle) (g : Handle)
    (condition : Value .bool) :
  (Emulation.conclude op hs g condition ss).2.Consed
  := by
  have named : (condition.handle ss).2.Consed := by
    cases condition with
    | node f => apply h
    | known v => apply (h.share (n := .literal (.of .bool v)) rfl (by simp [Node.operands])).1
  rw [Emulation.conclude_eq]
  obtain ⟨-, same⟩ | ⟨-, asserted⟩ := Emulation.require_cases condition ss
  · rw [same]
    exact h.congr rfl rfl
  · rw [asserted]
    exact named.congr rfl rfl

end Consed

/-- In hash-consed sessions, the handles of the arena may be used as operands. -/
def consing : Discipline where
  sound := Consed
  usable ss _ h := h.index < ss.nodes.size
  mono grows inside := Nat.lt_of_lt_of_le inside grows.sizes.1
  fold h := h.congr rfl rfl
  share h term inside := h.share term fun g mem => (inside g mem).elim fun _ lt => lt

theorem introduces_consing :
  consing.Introduces
  where
    reuse h := h.congr rfl rfl
    begin k h := by
      use h.addVariable _ k true
      simp [consing, next, freshInternal, Session.addVariable]
    conclude _ h _ := h.conclude _ _ _ _

theorem closed_consing :
  consing.Closed
  where
    node kind := index_lt_of_kind? kind
    addVariable name k internal h := h.addVariable name k internal
    addAssertion _ h _ := h.congr rfl rfl
    extract h hs hi := introduces_consing.extract h hs hi

/-! ### Unfolding -/

theorem term?_eq_literal_iff {h : Handle} {v : Literal} :
  ss.term? h = some (.literal v) ↔ ss.node? h = some (.literal v)
  := by
  rw [term?]
  cases ss.node? h with
  | none => simp
  | some n => cases n <;> simp [bind, Option.bind_eq_some_iff]

theorem term?_eq_var_iff {g h : Handle} :
  ss.term? h = some (.var g) ↔ h = g ∧ ∃ n k, ss.node? h = some (.var n k)
  := by
  rw [term?]
  cases ss.node? h with
  | none => simp
  | some n => cases n <;> simp [bind, Option.bind_eq_some_iff]

/-- An application unfolds to the application to what its operands unfold to. -/
theorem term?_eq_application_iff {h : Handle} {op : Operator} {ts : List Term} {k : Kind} :
  ss.term? h = some (.application op ts k) ↔ ∃ hs, ss.node? h = some (.application op hs k)
    ∧ List.Forall₂ (fun g t => g.index < h.index ∧ ss.term? g = some t) hs ts
  := by
  have operand : ∀ g t, (if _before : g.index < h.index then ss.term? g else none) = some t
      ↔ g.index < h.index ∧ ss.term? g = some t := by
    intro g t
    by_cases before : g.index < h.index <;> simp [before]
  rw [term?]
  simp only [← operand, ← List.mapM_eq_some_iff]
  cases ss.node? h with
  | none => simp
  | some n => cases n <;> simp [bind, Option.bind_eq_some_iff, and_comm, and_assoc]

namespace Consed

/-- Every node of the arena unfolds to a term. -/
theorem exists_term (h : ss.Consed) {g : Handle} (inside : g.index < ss.nodes.size) :
  ∃ t, ss.term? g = some t
  := by
  have hn : ss.node? g = some ss.nodes[g.index] := Array.getElem?_eq_getElem inside
  generalize ss.nodes[g.index] = n at hn
  cases n with
  | literal v => exact ⟨_, term?_eq_literal_iff.mpr hn⟩
  | var n k => exact ⟨_, term?_eq_var_iff.mpr ⟨rfl, n, k, hn⟩⟩
  | application op hs k =>
      have operand : ∀ f ∈ hs, ∃ t, f.index < g.index ∧ ss.term? f = some t := by
        intro f mem
        have before := h.earlier hn f mem
        obtain ⟨t, found⟩ := h.exists_term (Nat.lt_trans before inside)
        exact ⟨t, before, found⟩
      obtain ⟨ts, found⟩ := List.exists_forall₂ operand
      exact ⟨_, term?_eq_application_iff.mpr ⟨hs, hn, found⟩⟩
termination_by g.index

/-- Handles that unfold to the same term are equal. -/
theorem eq_of_term? (h : ss.Consed) {n : Nat} {g f : Handle} {t : Term} (below : g.index < n)
    (below' : f.index < n) (hg : ss.term? g = some t) (hf : ss.term? f = some t) :
  g = f
  := by
  -- The induction is on a bound of both indices, so that operands are below the lesser bound.
  induction n generalizing g f t with
  | zero => exact absurd below (Nat.not_lt_zero _)
  | succ n ih =>
      have distinct : Relator.LeftUnique fun (a : Handle) t => a.index < n ∧ ss.term? a = some t :=
        fun _ _ _ ha hb => ih ha.1 hb.1 ha.2 hb.2
      cases t with
      | literal v =>
          apply h.unique (term?_eq_literal_iff.mp hg) (term?_eq_literal_iff.mp hf) rfl
      | var i => rw [(term?_eq_var_iff.mp hg).1, (term?_eq_var_iff.mp hf).1]
      | application op ts k =>
          obtain ⟨hs, hn, found⟩ := term?_eq_application_iff.mp hg
          obtain ⟨hs', hn', found'⟩ := term?_eq_application_iff.mp hf
          have lower : ∀ {b : Handle}, b.index < n + 1 → ∀ (a : Handle) (t : Term),
              a.index < b.index ∧ ss.term? a = some t → a.index < n ∧ ss.term? a = some t :=
            fun below a t ha => ⟨by omega, ha.2⟩
          have same : hs = hs' :=
            List.left_unique_forall₂' distinct (found.imp (lower below)) (found'.imp (lower below'))
          rw [← same] at hn'
          apply h.unique hn hn' rfl

/-- Handles of the arena unfold to the same term only if they are equal. -/
theorem term?_eq_iff (h : ss.Consed) {g f : Handle} (inside : g.index < ss.nodes.size)
    (inside' : f.index < ss.nodes.size) :
  ss.term? g = ss.term? f ↔ g = f
  := by
  constructor
  · intro same
    obtain ⟨t, found⟩ := h.exists_term inside
    apply h.eq_of_term? inside inside' found (same.symm.trans found)
  · rintro rfl
    rfl

end Consed

end Session

/-! ### Executions -/

/-- The conduct in which the operands that edits are given are in the arena. -/
def Conduct.inside (P : Policy) : Conduct where
  policy := P
  edits ss e := Session.consing.AdmitsEdit ss e

namespace Execution

variable {P : Policy} {c : Configuration} {X : Execution}

theorem Reached.consed (reached : Reached (.inside P) c X) :
  X.session.Consed
  := by
  induction reached with
  | start => apply Session.consed_empty
  | step _ step ih =>
      obtain ⟨es, next⟩ := step
      cases next with
      | edit e made => exact Session.closed_consing.perform ih made
      | checkpoint => apply ih
      | rollback _ _ accepted =>
          obtain ⟨-, rfl⟩ := Session.rollback?_eq_ok_iff.mp accepted
          apply ih.truncate
      | reuse => exact ih.congr rfl rfl
      | begin k _ => exact ih.addVariable _ k true
      | conclude _ condition _ => apply ih.conclude
      | giveUp _ accepted =>
          obtain ⟨-, rfl⟩ := Session.rollback?_eq_ok_iff.mp accepted
          apply ih.truncate
      | stuck => apply ih

/-- In every reached state operands precede the nodes that are made of them, the table maps exactly
the literals and applications of the arena to their handles, none of these stands in the arena
twice, and handles of the arena unfold to terms that are equal only if the handles are. -/
theorem Reached.hash_consed (reached : Reached (.inside P) c X) :
  (∀ h n, X.session.node? h = some n → ∀ g ∈ n.operands, g.index < h.index)
  ∧ (∀ n h, X.session.table.get? n = some h ↔ X.session.node? h = some n ∧ n.var? = none)
  ∧ (∀ g h n, X.session.node? g = some n → X.session.node? h = some n → n.var? = none → g = h)
  ∧ ∀ g h, g.index < X.session.nodes.size → h.index < X.session.nodes.size →
    (∃ t, X.session.term? g = some t) ∧ (X.session.term? g = X.session.term? h ↔ g = h)
  := by
  have consed := reached.consed
  refine ⟨fun h n => consed.earlier, fun n h => consed.exact, ?_, ?_⟩
  · intro g h n hg hh term
    apply consed.unique hg hh term
  · intro g h inside inside'
    exact ⟨consed.exists_term inside, consed.term?_eq_iff inside inside'⟩

/-- The string and its length are different terms of the session in which a number has been
discarded. -/
theorem hash_consed_length :
  ∃ X : Execution, Reached (.inside ⟨true, true, true⟩) {} X
    ∧ X.session.nodes = #[.var 0 .string, .application .length [⟨0⟩] .int]
    ∧ X.session.table.get? (.application .length [⟨0⟩] .int) = some ⟨1⟩
    ∧ X.session.term? ⟨0⟩ ≠ X.session.term? ⟨1⟩
  := by
  have declared := (Reached.start (C := .inside ⟨true, true, true⟩) (c := {})).step
    ⟨_, .edit (.declare "s" .string) trivial⟩
  have measured := declared.step
    ⟨_, .edit (.operate .length (.one (.node ⟨0⟩))) ⟨Nat.one_pos, trivial⟩⟩
  have numbered := (measured.step ⟨_, .checkpoint⟩).step ⟨_, .edit (.literal (.int 7)) trivial⟩
  have reached := numbered.step ⟨_, .rollback List.mem_cons_self (Or.inl rfl) rfl⟩
  obtain ⟨-, exact, -, unfold⟩ := reached.hash_consed
  refine ⟨_, reached, by decide +kernel, (exact _ _).mpr ⟨by decide +kernel, rfl⟩, ?_⟩
  rw [ne_eq, (unfold ⟨0⟩ ⟨1⟩ (by decide +kernel) (by decide +kernel)).2]
  decide

end Execution

end StringTerms
