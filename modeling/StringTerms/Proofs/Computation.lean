import StringTerms.Folding
import StringTerms.Proofs.Reading

/-!
# What builders compute

`ss.Computes cut x P` says of a computation `x` that gives a value: performed in the session `ss`,
it only shares nodes and leaves a well-kinded session, of which the value is one; and in every
reading of that session, the value reads as whatever `P` allows.  Mostly `P` says that the operands
read as certain host values and that the result is a function of these.

A computation that is made of others is treated step by step: the reading belongs to the last
session, and is one of all the sessions before.
-/

namespace StringTerms

variable {cut : Slicing} {ss tt : Session} {k r : Kind} {ks : List Kind}

/-- The computation shares nodes, and its value reads as specified. -/
structure Session.Computes (cut : Slicing) (ss : Session) (x : Builder (Value k))
    (P : Reading → k.Carrier → Prop) : Prop where
  shares : ss.Shares (x ss).2
  wellKinded : (x ss).2.WellKinded
  holds : (x ss).2.Holds (x ss).1
  reads : ∀ {R : Reading} {v}, R.Interprets cut (x ss).2 → P R v → (x ss).1.ReadsAs R v

namespace Session.Computes

variable {x : Builder (Value k)} {P Q : Reading → k.Carrier → Prop}

/-- A value of the session is computed by returning it. -/
theorem value {a : Value k} (wk : ss.WellKinded) (ha : ss.Holds a)
    (h : ∀ {R : Reading} {v}, R.Interprets cut ss → P R v → a.ReadsAs R v) :
  ss.Computes cut (pure a) P
  := ⟨Shares.refl ss, wk, ha, h⟩

/-- A known value is computed by returning it. -/
theorem known {u : k.Carrier} (wk : ss.WellKinded)
    (h : ∀ {R : Reading} {v}, R.Interprets cut ss → P R v → u = v) :
  ss.Computes cut (pure (.known u)) P
  := ⟨Shares.refl ss, wk, trivial, h⟩

/-- A stronger condition on the value may be used. -/
theorem weaken (h : ss.Computes cut x P)
    (imp : ∀ {R : Reading} {v}, R.Interprets cut ss → Q R v → P R v) :
  ss.Computes cut x Q
  where
    shares := h.shares
    wellKinded := h.wellKinded
    holds := h.holds
    reads hR hQ := h.reads hR (imp (hR.of_extends h.shares.toExtends) hQ)

/-- A computation that does in `ss` what another does in an extension of `ss`. -/
theorem of_run {y : Builder (Value k)} (h : tt.Computes cut y P) (shares : ss.Shares tt)
    (run : x ss = y tt) :
  ss.Computes cut x P
  := by
  constructor
  · rw [run]
    apply shares.trans h.shares
  · rw [run]
    apply h.wellKinded
  · rw [run]
    apply h.holds
  · intro R v hR hP
    rw [run] at hR ⊢
    apply h.reads hR hP

/-- A computation may depend on the session. -/
theorem get {f : Session → Builder (Value k)} (h : ss.Computes cut (f ss) P) :
  ss.Computes cut (get >>= f) P
  := h.of_run (Shares.refl ss) rfl

/-- A computation after which the value is used by another. -/
theorem bind {f : Value k → Builder (Value r)} {Q : Reading → r.Carrier → Prop}
    (hx : ss.Computes cut x P)
    (hf : ∀ {a : Value k} {tt : Session}, ss.Shares tt → tt.WellKinded → tt.Holds a →
      tt.Computes cut (f a) fun R v => (∀ {u}, P R u → a.ReadsAs R u) ∧ Q R v) :
  ss.Computes cut (x >>= f) Q
  := by
  have h := hf hx.shares hx.wellKinded hx.holds
  constructor
  · apply hx.shares.trans h.shares
  · apply h.wellKinded
  · apply h.holds
  · intro R v hR hQ
    apply h.reads hR
    use fun hP => hx.reads (hR.of_extends h.shares.toExtends) hP

/-- A computation that tries to fold: either it goes on with the value of the host function, or it
goes on without. -/
theorem fold {α : Type} {operands : Option α} {host : α → Option r.Carrier}
    {f : Option (Value r) → Builder (Value k)}
    (folds : ∀ {a v}, operands = some a → host a = some v →
      ss.countFold.Computes cut (f (some (.known v))) P)
    (defers : ss.Computes cut (f none) P) :
  ss.Computes cut (fold? operands host >>= f) P
  := by
  obtain ⟨a, v, known, found, folded⟩ | skipped := fold?_cases operands host ss
  · have run : (fold? operands host >>= f) ss = f (some (.known v)) ss.countFold := by
      rw [Builder.bind_apply, folded]
    apply (folds known found).of_run (shares_countFold ss) run
  · have run : (fold? operands host >>= f) ss = f none ss := by
      rw [Builder.bind_apply, skipped]
    apply defers.of_run (Shares.refl ss) run

end Session.Computes

/-! ### Operands as nodes -/

/-- The computation shares nodes of the given kinds, which read as the operands do. -/
structure Session.Names (cut : Slicing) (ss : Session) (x : Builder (List Handle))
    (xs : Operands Value ks) : Prop where
  shares : ss.Shares (x ss).2
  wellKinded : (x ss).2.WellKinded
  kinds : (x ss).2.HaveKinds (x ss).1 ks
  reads : ∀ {R : Reading} {vs}, R.Interprets cut (x ss).2 → xs.ReadAs R vs →
    R.ReadsAll (x ss).1 vs.literals

/-- The node of a value is of its kind and reads as the value. -/
theorem Value.handle_spec {x : Value k} (wk : ss.WellKinded) (hx : ss.Holds x) :
  ss.Shares (x.handle ss).2 ∧ (x.handle ss).2.WellKinded
    ∧ (x.handle ss).2.kind? (x.handle ss).1 = some k
    ∧ ∀ {R : Reading} {cut v}, R.Interprets cut (x.handle ss).2 → x.ReadsAs R v →
        R (x.handle ss).1 = some (.of k v)
  := by
  cases x with
  | node h => use Session.Shares.refl ss, wk, hx, fun _ hv => hv
  | known u =>
      obtain ⟨shares, wk', hn⟩ := wk.share (n := .literal (.of k u)) trivial
      use shares, wk'
      constructor
      · apply Eq.trans (Session.kind?_of_node? hn)
        rw [Node.kind, Literal.kind_of]
      · intro R cut v hR hv
        rw [← hv]
        apply hR.literal hn

/-- The nodes of operands are of their kinds and read as the operands. -/
theorem Operands.names_handles {xs : Operands Value ks} (wk : ss.WellKinded)
    (hx : ss.HoldsAll xs) :
  ss.Names cut xs.handles xs
  := by
  induction xs generalizing ss with
  | nil =>
      constructor
      · apply Session.Shares.refl
      · apply wk
      · apply List.Forall₂.nil
      · rintro R ⟨⟩ - -
        apply List.Forall₂.nil
  | @cons k ks x xs ih =>
      obtain ⟨shares, wk', kind, reads⟩ := x.handle_spec wk hx.1
      have rest := ih wk' (shares.holdsAll hx.2)
      constructor
      · apply shares.trans rest.shares
      · apply rest.wellKinded
      · apply List.Forall₂.cons
        · apply rest.shares.kind? kind
        · apply rest.kinds
      · rintro R ⟨⟩ hR hv
        apply List.Forall₂.cons
        · apply reads (hR.of_extends rest.shares.toExtends) hv.1
        · apply rest.reads hR hv.2

/-! ### Nodes of operators -/

/-- The node of an operator reads as the operator's value at the operands. -/
theorem Session.WellKinded.computes_defer {xs : Operands Value ks} (wk : ss.WellKinded)
    (hx : ss.HoldsAll xs) {op : Operator} (j : Kind) (hks : ks = op.operandKinds j)
    (hr : r = op.kindAt j) :
  ss.Computes cut (defer r op xs) fun R v =>
    ∃ vs, xs.ReadAs R vs ∧ op.valueWith cut vs.literals = .ok (.of r v)
  := by
  have names : ss.Names cut xs.handles xs := Operands.names_handles wk hx
  have ok : (xs.handles ss).2.Accepts (.application op (xs.handles ss).1 r) :=
    ⟨j, hks ▸ names.kinds, hr⟩
  obtain ⟨shares, wk', hn⟩ := names.wellKinded.share ok
  constructor
  · apply names.shares.trans shares
  · apply wk'
  · apply kind?_of_node? hn
  · rintro R v hR ⟨vs, hv, value⟩
    apply hR.application hn _ value
    apply names.reads (hR.of_extends shares.toExtends) hv

/-- An operation that folds or makes the node of an operator reads as the operator's value at the
operands, where the host function gives the same value. -/
theorem Session.WellKinded.computes_compute {xs : Operands Value ks} (wk : ss.WellKinded)
    (hx : ss.HoldsAll xs) {op : Operator} (j : Kind) (hks : ks = op.operandKinds j)
    (hr : r = op.kindAt j) {host : Operands Kind.Carrier ks → Option r.Carrier}
    {fits : Operands Kind.Carrier ks → Prop}
    (agrees : ∀ {vs v}, fits vs → host vs = some v → op.valueWith cut vs.literals = .ok (.of r v)) :
  ss.Computes cut (compute op xs host) fun R v =>
    ∃ vs, xs.ReadAs R vs ∧ fits vs ∧ op.valueWith cut vs.literals = .ok (.of r v)
  := by
  apply Computes.get
  apply Computes.fold
  · intro us u known found
    apply Computes.known wk.countFold
    rintro R v hR ⟨vs, hv, short, value⟩
    have same : vs = us := hv.eq_known (hR.of_extends (extends_countFold ss)) known
    rw [same, agrees (same ▸ short) found] at value
    apply Literal.of_injective (Except.ok.inj value)
  · apply (wk.computes_defer hx j hks hr).weaken
    rintro R v - ⟨vs, hv, -, value⟩
    use vs, hv, value

/-! ### Operations with total host functions -/

section Total

variable {i j l : Kind} {a : Value i} {b : Value j} {c : Value l} {op : Operator}

/-- An operation on one operand, whose host function is the operator. -/
theorem Session.WellKinded.computes_one (wk : ss.WellKinded) (ha : ss.Holds a) (m : Kind)
    (hks : [i] = op.operandKinds m) (hr : r = op.kindAt m)
    {host : Operands Kind.Carrier [i] → Option r.Carrier} {f : i.Carrier → r.Carrier}
    (total : ∀ x, host (.one x) = some (f x))
    (value : ∀ x, op.valueWith cut [.of i x] = .ok (.of r (f x))) :
  ss.Computes cut (compute op (.one a) host) fun R v => ∃ x, a.ReadsAs R x ∧ v = f x
  := by
  have agrees : ∀ {vs v}, True → host vs = some v → op.valueWith cut vs.literals = .ok (.of r v) := by
    rintro (_ | ⟨x, _ | _⟩) v - h
    cases Eq.trans (total x).symm h
    apply value
  have held : ss.HoldsAll (.one a) := ⟨ha, trivial⟩
  apply (wk.computes_compute held m hks hr agrees).weaken
  rintro R v - ⟨x, hx, rfl⟩
  use .one x, ⟨hx, trivial⟩, trivial, value x

/-- An operation on two operands, whose host function is the operator. -/
theorem Session.WellKinded.computes_two (wk : ss.WellKinded) (ha : ss.Holds a) (hb : ss.Holds b)
    (m : Kind) (hks : [i, j] = op.operandKinds m) (hr : r = op.kindAt m)
    {host : Operands Kind.Carrier [i, j] → Option r.Carrier}
    {f : i.Carrier → j.Carrier → r.Carrier}
    (total : ∀ x y, host (.two x y) = some (f x y))
    (value : ∀ x y, op.valueWith cut [.of i x, .of j y] = .ok (.of r (f x y))) :
  ss.Computes cut (compute op (.two a b) host) fun R v =>
    ∃ x y, a.ReadsAs R x ∧ b.ReadsAs R y ∧ v = f x y
  := by
  have agrees : ∀ {vs v}, True → host vs = some v → op.valueWith cut vs.literals = .ok (.of r v) := by
    rintro (_ | ⟨x, _ | ⟨y, _ | _⟩⟩) v - h
    cases Eq.trans (total x y).symm h
    apply value
  have held : ss.HoldsAll (.two a b) := ⟨ha, hb, trivial⟩
  apply (wk.computes_compute held m hks hr agrees).weaken
  rintro R v - ⟨x, y, hx, hy, rfl⟩
  use .two x y, ⟨hx, hy, trivial⟩, trivial, value x y

/-- An operation on three operands, whose host function is the operator. -/
theorem Session.WellKinded.computes_three (wk : ss.WellKinded) (ha : ss.Holds a) (hb : ss.Holds b)
    (hc : ss.Holds c) (m : Kind) (hks : [i, j, l] = op.operandKinds m) (hr : r = op.kindAt m)
    {host : Operands Kind.Carrier [i, j, l] → Option r.Carrier}
    {f : i.Carrier → j.Carrier → l.Carrier → r.Carrier}
    (total : ∀ x y z, host (.three x y z) = some (f x y z))
    (value : ∀ x y z, op.valueWith cut [.of i x, .of j y, .of l z] = .ok (.of r (f x y z))) :
  ss.Computes cut (compute op (.three a b c) host) fun R v =>
    ∃ x y z, a.ReadsAs R x ∧ b.ReadsAs R y ∧ c.ReadsAs R z ∧ v = f x y z
  := by
  have agrees : ∀ {vs v}, True → host vs = some v → op.valueWith cut vs.literals = .ok (.of r v) := by
    rintro (_ | ⟨x, _ | ⟨y, _ | ⟨z, _ | _⟩⟩⟩) v - h
    cases Eq.trans (total x y z).symm h
    apply value
  have held : ss.HoldsAll (.three a b c) := ⟨ha, hb, hc, trivial⟩
  apply (wk.computes_compute held m hks hr agrees).weaken
  rintro R v - ⟨x, y, z, hx, hy, hz, rfl⟩
  use .three x y z, ⟨hx, hy, hz, trivial⟩, trivial, value x y z

end Total

end StringTerms
