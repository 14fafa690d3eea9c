import StringTerms.Proofs.Evaluation
import StringTerms.Proofs.Logic
import StringTerms.Proofs.Traversal

/-!
# Evaluation with given slices

SMT-LIB 2 leaves open what a slice is that reaches out of its string, so a solver may evaluate such
a slice differently.  The evaluation of this module takes the values of slices as a parameter and
agrees with the evaluator where they are those of the evaluator.

The values it finds are a reading of the session with these slices.  They belong to a term alone, so
an extension of the session keeps them, and so does a model that differs elsewhere.  A term has a
value, of its own kind, as soon as every variable below it has one.
-/

namespace StringTerms

variable {ss tt : Session} {M N : Model} {cut : Slicing} {k : Kind} {ks : List Kind}

/-- The value of a node, with slices as given. -/
def Evaluation.nodeWith (cut : Slicing) (M : Model) (h : Handle)
    (operand : Handle → Except Error (Option Literal)) : Node → Except Error (Option Literal)
  | .application .slice hs _ => do
    let found ← hs.mapM operand
    match found.mapM id with
    | some args =>
      match Operator.slice.valueWith cut args with
      | .ok v => return some v
      | .error e => throw e
    | none => return none
  | n => node M h operand n

/-- The value of a term, with slices as given. -/
def Session.evaluateWith (cut : Slicing) (ss : Session) (M : Model) (h : Handle) :
    Except Error (Option Literal) :=
  match ss.node? h with
  | none => throw (.unknownHandle h)
  | some n =>
    Evaluation.nodeWith cut M h
      (fun g =>
        if _before : g.index < h.index then ss.evaluateWith cut M g else throw (.unknownHandle g))
      n
termination_by h.index

/-- The value that a node would look for in an operand: operands precede it. -/
def Session.beforeWith (cut : Slicing) (ss : Session) (M : Model) (h g : Handle) :
    Except Error (Option Literal) :=
  if g.index < h.index then ss.evaluateWith cut M g else throw (.unknownHandle g)

theorem Session.evaluateWith_of_node {h : Handle} {n : Node} (hn : ss.node? h = some n) :
  ss.evaluateWith cut M h = Evaluation.nodeWith cut M h (ss.beforeWith cut M h) n
  := by
  rw [evaluateWith, hn]
  rfl

theorem Session.evaluateWith_of_none {h : Handle} (hn : ss.node? h = none) :
  ss.evaluateWith cut M h = .error (.unknownHandle h)
  := by
  rw [evaluateWith, hn]
  rfl

/-! ### The slices of the evaluator -/

/-- With the slices of the evaluator, a node has the value that the evaluator gives it. -/
theorem Evaluation.nodeWith_slice {h : Handle} {operand : Handle → Except Error (Option Literal)}
    (n : Node) :
  nodeWith ByteString.slice M h operand n = node M h operand n
  := by
  cases n with
  | literal => rfl
  | var => rfl
  | application op hs k => cases op <;> rfl

/-- With the slices of the evaluator, a term has the value that the evaluator finds. -/
theorem Session.evaluateWith_slice (ss : Session) (M : Model) (h : Handle) :
  ss.evaluateWith ByteString.slice M h = ss.evaluate M h
  := by
  rw [evaluate_eq_direct]
  have operands : ss.beforeWith ByteString.slice M h = ss.before M h := by
    funext g
    unfold beforeWith before
    split
    case isTrue earlier => rw [evaluateWith_slice ss M g, evaluate_eq_direct]
    case isFalse => rfl
  cases hn : ss.node? h with
  | none => rw [evaluateWith_of_none hn, direct_of_none hn]
  | some n => rw [evaluateWith_of_node hn, direct_of_node hn, operands, Evaluation.nodeWith_slice]
termination_by h.index

/-! ### The values as a reading -/

/-- The values that are found with the given slices, as a reading. -/
def Session.readingWith (cut : Slicing) (ss : Session) (M : Model) : Reading := fun h =>
  match ss.evaluateWith cut M h with
  | .ok found => found
  | .error _ => none

theorem Session.readingWith_eq_some_iff {h : Handle} {l : Literal} :
  ss.readingWith cut M h = some l ↔ ss.evaluateWith cut M h = .ok (some l)
  := by
  unfold readingWith
  split <;> simp_all

/-- The value of an application that is not a conditional. -/
theorem Evaluation.nodeWith_of_ne_ite {h : Handle}
    {operand : Handle → Except Error (Option Literal)} {op : Operator} {hs : List Handle}
    (ne : op ≠ .ite) :
  nodeWith cut M h operand (.application op hs k) = (do
    let found ← hs.mapM operand
    match found.mapM id with
    | some args =>
      match op.valueWith cut args with
      | .ok v => return some v
      | .error e => throw e
    | none => return none)
  := by
  cases op with
  | ite => exact absurd rfl ne
  | _ => rfl

/-- Operands that are read and precede the node are found. -/
theorem Session.beforeWith_eq_of_reads {h g : Handle} {l : Literal} (earlier : g.index < h.index)
    (reads : ss.readingWith cut M g = some l) :
  ss.beforeWith cut M h g = .ok (some l)
  := by
  rw [beforeWith, if_pos earlier, readingWith_eq_some_iff.mp reads]

theorem Session.mapM_beforeWith_of_reads {h : Handle} {hs : List Handle} {ls : List Literal}
    (earlier : ∀ g ∈ hs, g.index < h.index) (reads : (ss.readingWith cut M).ReadsAll hs ls) :
  hs.mapM (ss.beforeWith cut M h) = .ok (ls.map some)
  := by
  induction reads with
  | nil => rfl
  | cons head _ ih =>
      rw [List.mapM_cons, beforeWith_eq_of_reads (earlier _ List.mem_cons_self) head,
        ih fun g mem => earlier g (List.mem_cons_of_mem _ mem)]
      rfl

/-- The value of a conditional. -/
theorem Evaluation.nodeWith_ite_of_value {h c t e : Handle}
    {operand : Handle → Except Error (Option Literal)} {x y z l : Literal}
    (hc : operand c = .ok (some x)) (ht : operand t = .ok (some y)) (he : operand e = .ok (some z))
    (value : Operator.ite.valueWith cut [x, y, z] = .ok l) :
  nodeWith cut M h operand (.application .ite [c, t, e] k) = .ok (some l)
  := by
  cases x with
  | bool p =>
      cases p with
      | true =>
          cases value
          simp [nodeWith, node, hc, ht, bind, Except.bind]
      | false =>
          cases value
          simp [nodeWith, node, hc, he, bind, Except.bind]
  | _ => cases value

/-- The values found are a reading of a well-kinded session. -/
theorem Session.WellKinded.interprets_readingWith (wk : ss.WellKinded) (cut : Slicing) (M : Model) :
  (ss.readingWith cut M).Interprets cut ss
  := by
  constructor
  · intro h l hn
    rw [readingWith_eq_some_iff, evaluateWith_of_node hn]
    rfl
  · intro h op hs k ls l hn reads value
    have earlier := wk.earlier hn
    rw [readingWith_eq_some_iff, evaluateWith_of_node hn]
    by_cases conditional : op = .ite
    · subst conditional
      obtain ⟨j, ⟨⟩ | ⟨_, ⟨⟩ | ⟨_, ⟨⟩ | ⟨_, ⟨⟩⟩⟩⟩, -⟩ := wk.kinds hn
      obtain ⟨⟩ | ⟨hc, ⟨⟩ | ⟨ht, ⟨⟩ | ⟨he, ⟨⟩⟩⟩⟩ := reads
      apply Evaluation.nodeWith_ite_of_value _ _ _ value
      · apply beforeWith_eq_of_reads (earlier _ (by simp)) hc
      · apply beforeWith_eq_of_reads (earlier _ (by simp)) ht
      · apply beforeWith_eq_of_reads (earlier _ (by simp)) he
    · rw [Evaluation.nodeWith_of_ne_ite conditional, mapM_beforeWith_of_reads earlier reads]
      simp only [bind, Except.bind, List.mapM_id_map_some, value]
      rfl

/-! ### Terms below which every variable has a value -/

/-- The terms below a term, itself among them. -/
inductive Session.Below (ss : Session) : Handle → Handle → Prop
  | refl (h : Handle) : ss.Below h h
  | operand {f g h : Handle} {op : Operator} {hs : List Handle} {k : Kind}
    (hn : ss.node? h = some (.application op hs k)) (mem : g ∈ hs) (below : ss.Below f g) :
    ss.Below f h

/-- The terms below a term do not come after it. -/
theorem Session.WellKinded.index_le_of_below (wk : ss.WellKinded) {g h : Handle} (below : ss.Below g h) :
  g.index ≤ h.index
  := by
  induction below with
  | refl => apply Nat.le_refl
  | operand hn mem _ ih => apply Nat.le_trans ih (Nat.le_of_lt (wk.earlier hn _ mem))

/-- Every variable below the term has a value of its own kind. -/
def Model.Assigns (M : Model) (ss : Session) (h : Handle) : Prop :=
  ∀ {g n k}, ss.Below g h → ss.node? g = some (.var n k) → ∃ v, M.value? g = some (.of k v)

/-- Every literal is that of a host value of its kind. -/
theorem Literal.exists_of (l : Literal) :
  ∃ v, l = .of l.kind v
  := by
  cases l <;> exact ⟨_, rfl⟩

/-- An operator has a value at operands of the kinds that it expects. -/
theorem Operator.exists_valueWith (cut : Slicing) (op : Operator) (j : Kind)
    (vs : Operands Kind.Carrier (op.operandKinds j)) :
  ∃ v, op.valueWith cut vs.literals = .ok (.of (op.kindAt j) v)
  := by
  cases op
  case eq =>
    obtain _ | ⟨x, _ | ⟨y, _ | _⟩⟩ := vs
    use decide (x = y)
    apply Logic.valueWith_eq x y
  case ite =>
    obtain _ | ⟨p, _ | ⟨x, _ | ⟨y, _ | _⟩⟩⟩ := vs
    use if p then x else y
    apply Logic.valueWith_ite p x y
  case and =>
    obtain _ | ⟨p, _ | ⟨q, _ | _⟩⟩ := vs
    use p && q
    cases p <;> rfl
  case or =>
    obtain _ | ⟨p, _ | ⟨q, _ | _⟩⟩ := vs
    use p || q
    cases p <;> rfl
  all_goals first
    | obtain _ | ⟨x, _ | _⟩ := vs; exact ⟨_, rfl⟩
    | obtain _ | ⟨x, _ | ⟨y, _ | _⟩⟩ := vs; exact ⟨_, rfl⟩

/-- Operands that all read as some value of their kinds read as some values. -/
theorem Reading.exists_readsAll {R : Reading} {hs : List Handle} (hk : ss.HaveKinds hs ks)
    (read : ∀ g ∈ hs, ∀ {k}, ss.kind? g = some k → ∃ v, R g = some (.of k v)) :
  ∃ vs : Operands Kind.Carrier ks, R.ReadsAll hs vs.literals
  := by
  induction hk with
  | nil => exact ⟨.nil, List.Forall₂.nil⟩
  | cons head _ ih =>
      obtain ⟨v, hv⟩ := read _ List.mem_cons_self head
      obtain ⟨vs, hvs⟩ := ih fun g mem => read g (List.mem_cons_of_mem _ mem)
      exact ⟨.cons v vs, List.Forall₂.cons hv hvs⟩

/-- A variable reads as its value in the model. -/
theorem Session.readingWith_var {h : Handle} {n : Nat} {k : Kind} {v : k.Carrier}
    (hn : ss.node? h = some (.var n k)) (hv : M.value? h = some (.of k v)) :
  ss.readingWith cut M h = some (.of k v)
  := by
  rw [readingWith_eq_some_iff, evaluateWith_of_node hn]
  simp only [Evaluation.nodeWith, Evaluation.node, hv, Literal.kind_of, if_true]
  rfl

/-- A term has a value of its kind where every variable below it has one. -/
theorem Session.WellKinded.readsWith_of_assigned (wk : ss.WellKinded) (cut : Slicing) {k : Kind}
    {h : Handle} (hk : ss.kind? h = some k) (assigned : M.Assigns ss h) :
  ∃ v, ss.readingWith cut M h = some (.of k v)
  := by
  have interprets := wk.interprets_readingWith cut M
  obtain ⟨n, hn, rfl⟩ := Option.map_eq_some_iff.mp hk
  cases n with
  | literal l =>
      obtain ⟨v, hv⟩ := l.exists_of
      use v
      rw [interprets.literal hn]
      apply congrArg some hv
  | var n k =>
      obtain ⟨v, hv⟩ := assigned (.refl h) hn
      use v
      apply readingWith_var hn hv
  | application op hs k =>
      obtain ⟨j, kinds, rfl⟩ := wk.kinds hn
      have read : ∀ g ∈ hs, ∀ {k}, ss.kind? g = some k →
          ∃ v, ss.readingWith cut M g = some (.of k v) := by
        intro g mem k hk
        have earlier := wk.earlier hn g mem
        apply readsWith_of_assigned wk cut hk
        intro f n k below
        apply assigned (.operand hn mem below)
      obtain ⟨vs, hvs⟩ := Reading.exists_readsAll kinds read
      obtain ⟨v, hv⟩ := op.exists_valueWith cut j vs
      exact ⟨v, interprets.application hn hvs hv⟩
termination_by h.index

/-! ### What a value depends on -/

theorem Evaluation.nodeWith_congr {h : Handle} {operand : Handle → Except Error (Option Literal)}
    {n : Node} (same : M.value? h = N.value? h) :
  nodeWith cut M h operand n = nodeWith cut N h operand n
  := by
  unfold nodeWith node
  rw [same]

/-- The value of a term depends only on the nodes up to it and on their values in the model. -/
theorem Session.evaluateWith_congr {h : Handle}
    (nodes : ∀ g, g.index ≤ h.index → ss.node? g = tt.node? g)
    (values : ∀ g, g.index ≤ h.index → M.value? g = N.value? g) :
  ss.evaluateWith cut M h = tt.evaluateWith cut N h
  := by
  have same : ss.beforeWith cut M h = tt.beforeWith cut N h := by
    funext g
    unfold beforeWith
    split
    case isTrue earlier =>
      apply evaluateWith_congr
      · intro f le
        apply nodes f (by omega)
      · intro f le
        apply values f (by omega)
    case isFalse => rfl
  cases hn : tt.node? h with
  | none =>
      rw [evaluateWith_of_none hn, evaluateWith_of_none (Eq.trans (nodes h (Nat.le_refl _)) hn)]
  | some n =>
      rw [evaluateWith_of_node hn,
        evaluateWith_of_node (Eq.trans (nodes h (Nat.le_refl _)) hn), same]
      apply Evaluation.nodeWith_congr (values h (Nat.le_refl _))
termination_by h.index

/-- The value of a node depends on the nodes alone. -/
theorem Session.evaluateWith_of_nodes (same : tt.nodes = ss.nodes) (h : Handle) :
  tt.evaluateWith cut M h = ss.evaluateWith cut M h
  := by
  apply evaluateWith_congr
  · intro g _
    rw [node?, same, node?]
  · intro _ _
    rfl

/-- An extension keeps the values of the terms of a session. -/
theorem Session.Extends.evaluateWith (h : ss.Extends tt) (cut : Slicing) (M : Model) {g : Handle}
    (hg : g.index < ss.nodes.size) :
  tt.evaluateWith cut M g = ss.evaluateWith cut M g
  := by
  apply evaluateWith_congr
  · intro f le
    obtain ⟨n, hn⟩ : ∃ n, ss.node? f = some n :=
      ⟨ss.nodes[f.index], Array.getElem?_eq_getElem (by omega)⟩
    rw [hn, h.node? hn]
  · intro _ _
    rfl

/-- Giving a variable a value does not change the values of the terms before it. -/
theorem Session.evaluateWith_assign (cut : Slicing) (M : Model) (v : Literal) {g h : Handle}
    (earlier : g.index < h.index) :
  ss.evaluateWith cut (M.assign h v) g = ss.evaluateWith cut M g
  := by
  apply evaluateWith_congr
  · intro _ _
    rfl
  · intro f le
    rw [Model.value?_assign, if_neg]
    rintro rfl
    omega

/-! ### Values of a session -/

/-- The host value of what was found for a node of kind `k`. -/
def Evaluation.host (h : Handle) (k : Kind) : Option Literal → Except Error (Option k.Carrier)
  | none => .ok none
  | some l =>
    match l.as? k with
    | some v => .ok (some v)
    | none => .error (.valueOfOtherKind h k)

theorem Evaluation.host_eq_some_iff {h : Handle} {k : Kind} {found : Option Literal}
    {v : k.Carrier} :
  host h k found = .ok (some v) ↔ found = some (.of k v)
  := by
  cases found with
  | none => simp [host]
  | some l =>
      rw [host, Option.some.injEq, ← Literal.as?_eq_some_iff]
      cases l.as? k <;> simp

/-- The host value of a value, with slices as given. -/
def Evaluation.valueWith (cut : Slicing) (ss : Session) (M : Model) :
    Value k → Except Error (Option k.Carrier)
  | .known v => .ok (some v)
  | .node h => ss.evaluateWith cut M h >>= host h k

/-- A value reads as a host value exactly when this is the value that is found. -/
theorem Evaluation.valueWith_eq_some_iff {x : Value k} {v : k.Carrier} :
  valueWith cut ss M x = .ok (some v) ↔ x.ReadsAs (ss.readingWith cut M) v
  := by
  cases x with
  | known u => simp [valueWith, Value.ReadsAs]
  | node h =>
      rw [valueWith, Value.ReadsAs, Session.readingWith_eq_some_iff]
      cases ss.evaluateWith cut M h with
      | error e => simp [bind, Except.bind]
      | ok found => simp [bind, Except.bind, host_eq_some_iff]

/-- An extension keeps what the values of a session read as. -/
theorem Session.Extends.readsWith_iff (h : ss.Extends tt) (cut : Slicing) (M : Model) {x : Value k}
    (hx : ss.Holds x) {v : k.Carrier} :
  x.ReadsAs (tt.readingWith cut M) v ↔ x.ReadsAs (ss.readingWith cut M) v
  := by
  cases x with
  | known u => rfl
  | node g =>
      rw [Value.ReadsAs, Value.ReadsAs, readingWith, readingWith,
        h.evaluateWith cut M (index_lt_of_kind? hx)]

/-- Giving a later variable a value does not change what a value of a session reads as. -/
theorem Session.readsWith_assign (cut : Slicing) (M : Model) (v : Literal) {x : Value k} {h : Handle}
    (hx : ss.Holds x) (later : ss.nodes.size ≤ h.index) {u : k.Carrier} :
  x.ReadsAs (ss.readingWith cut (M.assign h v)) u ↔ x.ReadsAs (ss.readingWith cut M) u
  := by
  cases x with
  | known u => rfl
  | node g =>
      have earlier := Nat.lt_of_lt_of_le (index_lt_of_kind? hx) later
      rw [Value.ReadsAs, Value.ReadsAs, readingWith, readingWith, evaluateWith_assign cut M v earlier]

/-- What a computation's value reads as is the value that is found for it. -/
theorem Session.Computes.value_eq {x : Builder (Value k)} {P : Reading → k.Carrier → Prop}
    (h : ss.Computes cut x P) {v : k.Carrier} (hP : P ((x ss).2.readingWith cut M) v) :
  Evaluation.valueWith cut (x ss).2 M (x ss).1 = .ok (some v)
  := by
  apply Evaluation.valueWith_eq_some_iff.mpr
  apply h.reads (h.wellKinded.interprets_readingWith cut M) hP

end StringTerms
