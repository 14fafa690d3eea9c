import StringTerms.Proofs.Operation
import StringTerms.Proofs.Valuation

/-!
# Building and evaluating expression trees

A tree of operations over values can be built in a session, which folds what it can and makes nodes
of the rest, or it can be interpreted on the host, with the host functions of its operations at the
values of its leaves.  What is built evaluates to the interpretation, whether folding is on or off,
and whatever the leaves are: known values, literals, variables or other terms.  Extracting a
character is left out, as it makes a new variable.
-/

namespace StringTerms

variable {ks : List Kind} {k r : Kind} {ss tt : Session} {M : Model}

/-! ### Trees -/

/-- An expression over values. -/
inductive Tree : Kind → Type
  | leaf {k : Kind} (x : Value k) : Tree k
  | node {ks : List Kind} {r : Kind} (o : Operation ks r) (ts : Operands Tree ks) : Tree r

namespace Tree

mutual

/-- Builds a tree, operands first and from left to right. -/
def build : {k : Kind} → Tree k → Builder (Value k)
  | _, .leaf x => return x
  | _, .node o ts => do o.build (← buildAll ts)

/-- Builds trees from left to right. -/
def buildAll : {ks : List Kind} → Operands Tree ks → Builder (Operands Value ks)
  | _, .nil => return .nil
  | _, .cons t ts => do return .cons (← t.build) (← buildAll ts)

end

mutual

/-- Interprets a tree on the host, with the given values of its leaves. -/
def interpret (value : ∀ {k}, Value k → Option k.Carrier) : {k : Kind} → Tree k → Option k.Carrier
  | _, .leaf x => value x
  | _, .node o ts => do o.host (← interpretAll value ts)

/-- Interprets trees on the host. -/
def interpretAll (value : ∀ {k}, Value k → Option k.Carrier) : {ks : List Kind} →
    Operands Tree ks → Option (Operands Kind.Carrier ks)
  | _, .nil => some .nil
  | _, .cons t ts => do return .cons (← t.interpret value) (← interpretAll value ts)

end

mutual

/-- Every leaf has a property. -/
def Leaves (p : ∀ {k}, Value k → Prop) : {k : Kind} → Tree k → Prop
  | _, .leaf x => p x
  | _, .node _ ts => LeavesAll p ts

/-- Every leaf of the trees has a property. -/
def LeavesAll (p : ∀ {k}, Value k → Prop) : {ks : List Kind} → Operands Tree ks → Prop
  | _, .nil => True
  | _, .cons t ts => t.Leaves p ∧ LeavesAll p ts

end

mutual

/-- Every inner node, an operation and its operands, has a property. -/
def Inner (p : ∀ {ks r}, Operation ks r → Operands Tree ks → Prop) : {k : Kind} → Tree k → Prop
  | _, .leaf _ => True
  | _, .node o ts => p o ts ∧ InnerAll p ts

/-- Every inner node of the trees has a property. -/
def InnerAll (p : ∀ {ks r}, Operation ks r → Operands Tree ks → Prop) : {ks : List Kind} →
    Operands Tree ks → Prop
  | _, .nil => True
  | _, .cons t ts => t.Inner p ∧ InnerAll p ts

end

/-- No operation of the tree gives a character of a string. -/
def ExtractionFree (t : Tree k) : Prop := t.Inner fun o _ => o.extracts = false

/-- The strings that operations of the tree are applied to are short. -/
def Short (value : ∀ {k}, Value k → Option k.Carrier) (t : Tree k) : Prop :=
  t.Inner fun _ ts => ∀ vs, interpretAll value ts = some vs → vs.Short

end Tree

/-! ### Lists of values -/

/-- The computation shares nodes, and its values read as specified. -/
structure Session.ComputesAll (cut : Slicing) (ss : Session) (x : Builder (Operands Value ks))
    (P : Reading → Operands Kind.Carrier ks → Prop) : Prop where
  shares : ss.Shares (x ss).2
  wellKinded : (x ss).2.WellKinded
  holds : (x ss).2.HoldsAll (x ss).1
  reads : ∀ {R : Reading} {vs}, R.Interprets cut (x ss).2 → P R vs → (x ss).1.ReadAs R vs

section Lists

variable {cut : Slicing} {P : Reading → k.Carrier → Prop}
  {Q : Reading → Operands Kind.Carrier ks → Prop}

theorem Session.ComputesAll.nil (wk : ss.WellKinded)
    {Q : Reading → Operands Kind.Carrier [] → Prop} :
  ss.ComputesAll cut (pure .nil) Q
  := by
  constructor
  · apply Session.Shares.refl
  · apply wk
  · trivial
  · rintro R ⟨⟩ - -
    trivial

/-- A stronger condition on the values may be used. -/
theorem Session.ComputesAll.weaken {xs : Builder (Operands Value ks)}
    {Q' : Reading → Operands Kind.Carrier ks → Prop} (h : ss.ComputesAll cut xs Q)
    (imp : ∀ {R : Reading} {vs}, Q' R vs → Q R vs) :
  ss.ComputesAll cut xs Q'
  := ⟨h.shares, h.wellKinded, h.holds, fun hR hQ => h.reads hR (imp hQ)⟩

/-- A value computed before others. -/
theorem Session.Computes.cons {x : Builder (Value k)} {xs : Builder (Operands Value ks)}
    (hx : ss.Computes cut x P) (hxs : ∀ {tt}, ss.Shares tt → tt.WellKinded →
      tt.ComputesAll cut xs Q) :
  ss.ComputesAll cut (do return .cons (← x) (← xs)) fun R (.cons v vs) => P R v ∧ Q R vs
  := by
  have rest := hxs hx.shares hx.wellKinded
  constructor
  · apply hx.shares.trans rest.shares
  · apply rest.wellKinded
  · use rest.shares.holds hx.holds, rest.holds
  · rintro R (_ | ⟨v, vs⟩) hR ⟨hv, hvs⟩
    use hx.reads (hR.of_extends rest.shares.toExtends) hv, rest.reads hR hvs

/-- A computation after which the values are used by another. -/
theorem Session.ComputesAll.bind {xs : Builder (Operands Value ks)}
    {f : Operands Value ks → Builder (Value r)} {P : Reading → r.Carrier → Prop}
    (hxs : ss.ComputesAll cut xs Q)
    (hf : ∀ {as : Operands Value ks} {tt : Session}, tt.WellKinded → tt.HoldsAll as →
      tt.Computes cut (f as) fun R v => (∀ {us}, Q R us → as.ReadAs R us) ∧ P R v) :
  ss.Computes cut (xs >>= f) P
  := by
  have h := hf hxs.wellKinded hxs.holds
  constructor
  · apply hxs.shares.trans h.shares
  · apply h.wellKinded
  · apply h.holds
  · intro R v hR hP
    apply h.reads hR
    use fun hQ => hxs.reads (hR.of_extends h.shares.toExtends) hQ

end Lists

/-! ### What a tree computes -/

namespace Tree

variable {value : ∀ {k}, Value k → Option k.Carrier}

mutual

theorem leaves_imp {p q : ∀ {k}, Value k → Prop} {k : Kind} :
  (t : Tree k) → (∀ {k} {x : Value k}, p x → q x) → t.Leaves p → t.Leaves q
  | .leaf _, h, hp => h hp
  | .node _ ts, h, hp => leavesAll_imp ts h hp

theorem leavesAll_imp {p q : ∀ {k}, Value k → Prop} {ks : List Kind} :
  (ts : Operands Tree ks) → (∀ {k} {x : Value k}, p x → q x) → LeavesAll p ts → LeavesAll q ts
  | .nil, _, _ => trivial
  | .cons t ts, h, hp => ⟨leaves_imp t h hp.1, leavesAll_imp ts h hp.2⟩

end

mutual

/-- A tree reads as its interpretation, where its leaves read as they are interpreted. -/
theorem computes_build : {ss : Session} → ss.WellKinded → {k : Kind} → (t : Tree k) →
    t.Leaves ss.Holds → t.ExtractionFree → t.Short value →
  ss.Computes ByteString.slice t.build fun R v =>
    t.Leaves (fun x => ∀ {u}, value x = some u → x.ReadsAs R u) ∧ t.interpret value = some v
  | _, wk, _, .leaf x, held, _, _ => by
    apply Session.Computes.value wk held
    rintro R v - ⟨reads, hv⟩
    apply reads hv
  | _, wk, _, .node o ts, held, free, short => by
    apply (computes_buildAll wk ts held free.2 short.2).bind
    intro as tt wk' held'
    apply (o.computes_build wk' held' free.1).weaken
    rintro R v - ⟨readAll, leaves, hv⟩
    obtain ⟨vs, hvs, hv⟩ := Option.bind_eq_some_iff.mp hv
    use vs, readAll ⟨leaves, hvs⟩, short.1 vs hvs

theorem computes_buildAll : {ss : Session} → ss.WellKinded → {ks : List Kind} →
    (ts : Operands Tree ks) → LeavesAll ss.Holds ts →
    InnerAll (fun o _ => o.extracts = false) ts →
    InnerAll (fun _ ts => ∀ vs, interpretAll value ts = some vs → vs.Short) ts →
  ss.ComputesAll ByteString.slice (buildAll ts) fun R vs =>
    LeavesAll (fun x => ∀ {u}, value x = some u → x.ReadsAs R u) ts ∧ interpretAll value ts = some vs
  | _, wk, _, .nil, _, _, _ => .nil wk
  | _, wk, _, .cons t ts, held, free, short => by
    have first := computes_build wk t held.1 free.1 short.1
    apply (first.cons fun shares wk' => computes_buildAll wk' ts
      (leavesAll_imp ts (fun hx => shares.holds hx) held.2) free.2 short.2).weaken
    rintro R (_ | ⟨v, vs⟩) ⟨leaves, hv⟩
    obtain ⟨u, hu, hv⟩ := Option.bind_eq_some_iff.mp hv
    obtain ⟨us, hus, hv⟩ := Option.bind_eq_some_iff.mp hv
    cases hv
    exact ⟨⟨leaves.1, hu⟩, leaves.2, hus⟩

end

mutual

/-- A tree without extraction has an interpretation where its leaves have values. -/
theorem exists_interpret {k : Kind} : (t : Tree k) → t.ExtractionFree →
    t.Leaves (fun x => ∃ v, value x = some v) →
  ∃ v, t.interpret value = some v
  | .leaf x, _, leaves => leaves
  | .node o ts, free, leaves => by
    obtain ⟨vs, hvs⟩ := exists_interpretAll ts free.2 leaves
    obtain ⟨v, hv⟩ := Option.isSome_iff_exists.mp (o.host_isSome free.1 vs)
    use v
    apply Option.bind_eq_some_iff.mpr ⟨vs, hvs, hv⟩

theorem exists_interpretAll {ks : List Kind} : (ts : Operands Tree ks) →
    InnerAll (fun o _ => o.extracts = false) ts →
    LeavesAll (fun x => ∃ v, value x = some v) ts →
  ∃ vs, interpretAll value ts = some vs
  | .nil, _, _ => ⟨.nil, rfl⟩
  | .cons t ts, free, leaves => by
    obtain ⟨v, hv⟩ := exists_interpret t free.1 leaves.1
    obtain ⟨vs, hvs⟩ := exists_interpretAll ts free.2 leaves.2
    use .cons v vs
    simp only [interpretAll, hv, hvs]
    rfl

end

end Tree

/-! ### Evaluation -/

/-- The host value that the evaluator finds. -/
def Session.hostValue (ss : Session) (M : Model) (x : Value k) : Option k.Carrier :=
  match (Evaluation.value ss M x).answer with
  | .ok found => found
  | .error _ => none

/-- Every variable below the value is assigned. -/
def Value.Assigned (ss : Session) (M : Model) : Value k → Prop
  | .known _ => True
  | .node h => M.Assigns ss h

theorem Session.hostValue_eq_some_iff {x : Value k} {v : k.Carrier} :
  ss.hostValue M x = some v ↔ x.ReadsAs (ss.reading M) v
  := by
  rw [← Evaluation.answer_value_iff, hostValue]
  split <;> simp_all

/-- A value has a host value where every variable below it is assigned. -/
theorem Session.WellKinded.exists_hostValue (wk : ss.WellKinded) {x : Value k} (hx : ss.Holds x)
    (assigned : x.Assigned ss M) :
  ∃ v, ss.hostValue M x = some v
  := by
  cases x with
  | known v => exact ⟨v, rfl⟩
  | node h =>
      obtain ⟨v, hv⟩ := wk.reads_of_assigned hx assigned
      exact ⟨v, hostValue_eq_some_iff.mpr hv⟩

/-- Building a tree and evaluating what is built gives the interpretation of the tree on the host,
with its leaves evaluated where the building started. -/
theorem Tree.evaluate_build (wk : ss.WellKinded) (M : Model) (t : Tree k)
    (leaves : t.Leaves fun x => ss.Holds x ∧ x.Assigned ss M) (free : t.ExtractionFree)
    (short : t.Short (ss.hostValue M)) :
  ∃ v, t.interpret (ss.hostValue M) = some v
    ∧ (Evaluation.value (t.build ss).2 M (t.build ss).1).answer = .ok (some v)
  := by
  have built := computes_build wk t (t.leaves_imp And.left leaves) free short
  have valued : t.Leaves fun x => ∃ v, ss.hostValue M x = some v := by
    apply t.leaves_imp _ leaves
    rintro k x ⟨held, assigned⟩
    apply wk.exists_hostValue held assigned
  have read : t.Leaves fun x => ∀ {u}, ss.hostValue M x = some u →
      x.ReadsAs ((t.build ss).2.reading M) u := by
    apply t.leaves_imp _ leaves
    rintro k x ⟨held, -⟩ u hu
    rw [built.shares.readsAs_iff M held]
    apply Session.hostValue_eq_some_iff.mp hu
  obtain ⟨v, hv⟩ := exists_interpret t free valued
  use v, hv
  rw [Evaluation.answer_value_iff]
  apply built.reads (built.wellKinded.interprets_reading M)
  use read, hv

/-- Dropping the first character of a variable. -/
theorem Tree.evaluate_build_drop :
  let ss : Session := (Session.declare "s" .string {}).2
  let M : Model := Model.assign {} ⟨0⟩ (.string [97, 98, 99])
  let t : Tree .string := .node .drop (.two (.leaf (.int 1)) (.leaf (.node ⟨0⟩)))
  (Evaluation.value (t.build ss).2 M (t.build ss).1).answer = .ok (some [98, 99])
  := by
  intro ss M t
  have wk : ss.WellKinded := (Session.wellKinded_empty {}).addVariable "s" .string false
  have isVar : ss.node? ⟨0⟩ = some (.var 0 .string) := rfl
  have assigned : M.Assigns ss ⟨0⟩ := by
    rintro g n k (_ | ⟨hn, -, -⟩) hv
    · cases hv
      exact ⟨_, rfl⟩
    · cases hn
  have value : ss.hostValue M (.node ⟨0⟩ : Value .string) = some [97, 98, 99] := by
    apply Session.hostValue_eq_some_iff.mpr
    apply Session.reading_eq_some_iff.mpr
    rw [Session.direct_of_node isVar]
    rfl
  let operands : Operands Kind.Carrier [.int, .string] := .two 1 [97, 98, 99]
  have interpreted : interpretAll (ss.hostValue M)
      (.two (.leaf (.int 1)) (.leaf (.node ⟨0⟩))) = some operands := by
    have known : ss.hostValue M (.int 1) = some 1 := rfl
    simp only [interpretAll, interpret, known, value]
    rfl
  have short : t.Short (ss.hostValue M) := by
    constructor
    · intro vs hvs
      rw [interpreted] at hvs
      cases hvs
      exact ⟨by decide, trivial⟩
    · exact ⟨trivial, trivial, trivial⟩
  obtain ⟨v, hv, found⟩ := Tree.evaluate_build wk M t ⟨⟨trivial, trivial⟩, ⟨rfl, assigned⟩, trivial⟩
    ⟨rfl, trivial, trivial, trivial⟩ short
  have dropped : t.interpret (ss.hostValue M) = some [98, 99] := by
    simp only [t, interpret, interpreted]
    rfl
  cases Eq.trans hv.symm dropped
  apply found

end StringTerms
