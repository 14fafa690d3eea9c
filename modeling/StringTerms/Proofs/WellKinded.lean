import Mathlib.Data.List.Forall2
import StringTerms.Proofs.Extension

/-!
# Well-kinded sessions

In a well-kinded session the table names the nodes it is asked for, the operands of an application
precede it, and they have the kinds that its operator expects at some instance, of which the
recorded kind is the result.  Sharing a literal, or an application of this sort, keeps a session
well-kinded; it adds no variable, no assertion and no emulated value, which `Session.Shares` says
of an extension.
-/

namespace StringTerms.Session

/-- The handles name nodes of the given kinds. -/
def HaveKinds (ss : Session) (hs : List Handle) (ks : List Kind) : Prop :=
  List.Forall₂ (fun h k => ss.kind? h = some k) hs ks

/-- The node can be shared in the session: a literal, or an application to operands of the kinds
that the operator expects. -/
def Accepts (ss : Session) : Node → Prop
  | .literal _ => True
  | .var _ _ => False
  | .application op hs k => ∃ j, ss.HaveKinds hs (op.operandKinds j) ∧ k = op.kindAt j

/-- The table is sound, and every application is of the kind of its operator, applied to earlier
nodes of the kinds that the operator expects. -/
structure WellKinded (ss : Session) : Prop where
  table : ∀ {n h}, ss.table.get? n = some h → ss.node? h = some n
  earlier : ∀ {h op hs k}, ss.node? h = some (.application op hs k) → ∀ g ∈ hs, g.index < h.index
  kinds : ∀ {h op hs k}, ss.node? h = some (.application op hs k) →
    ∃ j, ss.HaveKinds hs (op.operandKinds j) ∧ k = op.kindAt j

/-- An extension by literals and applications alone. -/
structure Shares (ss tt : Session) : Prop extends ss.Extends tt where
  vars : tt.vars = ss.vars
  assertions : tt.assertions = ss.assertions
  emulations : tt.emulations = ss.emulations
  oldVar : ∀ {h n k}, tt.node? h = some (.var n k) → ss.node? h = some (.var n k)

theorem Shares.refl (ss : Session) :
  ss.Shares ss
  := ⟨Extends.refl ss, rfl, rfl, rfl, id⟩

theorem Shares.trans {ss tt uu : Session} (h : ss.Shares tt) (h' : tt.Shares uu) :
  ss.Shares uu
  where
    toExtends := h.toExtends.trans h'.toExtends
    vars := h'.vars.trans h.vars
    assertions := h'.assertions.trans h.assertions
    emulations := h'.emulations.trans h.emulations
    oldVar hv := h.oldVar (h'.oldVar hv)

theorem shares_countHit (ss : Session) :
  ss.Shares ss.countHit
  := ⟨extends_countHit ss, rfl, rfl, rfl, id⟩

theorem shares_countFold (ss : Session) :
  ss.Shares ss.countFold
  := ⟨extends_countFold ss, rfl, rfl, rfl, id⟩

theorem WellKinded.countHit {ss : Session} (wk : ss.WellKinded) :
  ss.countHit.WellKinded
  := ⟨wk.table, wk.earlier, wk.kinds⟩

theorem WellKinded.countFold {ss : Session} (wk : ss.WellKinded) :
  ss.countFold.WellKinded
  := ⟨wk.table, wk.earlier, wk.kinds⟩

theorem kind?_of_node? {ss : Session} {h : Handle} {n : Node} (hn : ss.node? h = some n) :
  ss.kind? h = some n.kind
  := by
  simp only [kind?, hn, Option.map_some]

/-- A handle with a kind precedes the next node. -/
theorem index_lt_of_kind? {ss : Session} {h : Handle} {k : Kind} (hk : ss.kind? h = some k) :
  h.index < ss.nodes.size
  := by
  obtain ⟨n, hn, -⟩ := Option.map_eq_some_iff.mp hk
  apply (Array.getElem?_eq_some_iff.mp hn).1

/-- An extension keeps the kinds of operands. -/
theorem HaveKinds.mono {ss tt : Session} {hs : List Handle} {ks : List Kind}
    (hk : ss.HaveKinds hs ks) (h : ss.Extends tt) :
  tt.HaveKinds hs ks
  := List.Forall₂.imp (fun _ _ => h.kind?) hk

/-- Each of the operands has a kind. -/
theorem HaveKinds.exists_kind {ss : Session} {hs : List Handle} {ks : List Kind}
    (hk : ss.HaveKinds hs ks) :
  ∀ g ∈ hs, ∃ k, ss.kind? g = some k
  := by
  induction hk with
  | nil => simp
  | @cons h k _ _ head _ ih =>
      intro g mem
      obtain rfl | mem := List.mem_cons.mp mem
      · use k, head
      · apply ih g mem

/-- Operands that have kinds precede the next node. -/
theorem HaveKinds.index_lt {ss : Session} {hs : List Handle} {ks : List Kind}
    (hk : ss.HaveKinds hs ks) :
  ∀ g ∈ hs, g.index < ss.nodes.size
  := by
  intro g mem
  obtain ⟨k, kind⟩ := hk.exists_kind g mem
  apply index_lt_of_kind? kind

/-- The node that a session is extended by stands at the next handle. -/
theorem node?_next_addShared (ss : Session) (n : Node) :
  (ss.addShared n).node? ss.next = some n
  := by
  rw [node?_addShared, if_pos rfl]

/-- Adding an accepted node keeps a session well-kinded. -/
theorem WellKinded.addShared {ss : Session} (wk : ss.WellKinded) {n : Node} (ok : ss.Accepts n)
    (new : ss.table.get? n = none) :
  (ss.addShared n).WellKinded
  := by
  have grows : ss.Extends (ss.addShared n) := extends_addShared new
  constructor
  · intro m h known
    rw [StringTerms.Session.addShared, FiniteMap.get?_insert] at known
    split at known
    case isTrue same =>
      cases known
      rw [same]
      apply node?_next_addShared
    case isFalse => apply grows.node? (wk.table known)
  · intro h op hs k hn g mem
    rw [node?_addShared] at hn
    split at hn
    case isTrue last =>
      cases hn
      obtain ⟨j, hk, -⟩ := ok
      rw [last]
      apply hk.index_lt g mem
    case isFalse => apply wk.earlier hn g mem
  · intro h op hs k hn
    rw [node?_addShared] at hn
    split at hn
    case isTrue =>
      cases hn
      obtain ⟨j, hk, same⟩ := ok
      use j, hk.mono grows
    case isFalse =>
      obtain ⟨j, hk, same⟩ := wk.kinds hn
      use j, hk.mono grows

theorem Accepts.var?_eq_none {ss : Session} {n : Node} (ok : ss.Accepts n) :
  n.var? = none
  := by
  cases n with
  | var => cases ok
  | _ => rfl

/-- Adding a node that is not a variable adds no variable. -/
theorem shares_addShared {ss : Session} {n : Node} (term : n.var? = none)
    (new : ss.table.get? n = none) :
  ss.Shares (ss.addShared n)
  where
    toExtends := extends_addShared new
    vars := rfl
    assertions := rfl
    emulations := rfl
    oldVar {h m k} hv := by
      rw [node?_addShared] at hv
      split at hv
      case isTrue =>
        cases hv
        cases term
      case isFalse => apply hv

/-- Sharing a node that is not a variable adds no variable. -/
theorem shares_share {ss : Session} {n : Node} (term : n.var? = none) :
  ss.Shares (share n ss).2
  := by
  cases known : ss.table.get? n with
  | some h =>
      rw [share_of_known known]
      apply shares_countHit
  | none =>
      rw [share_of_new known]
      apply shares_addShared term known

/-- Sharing an accepted node gives a handle of this very node, in a well-kinded session. -/
theorem WellKinded.share {ss : Session} (wk : ss.WellKinded) {n : Node} (ok : ss.Accepts n) :
  ss.Shares (share n ss).2 ∧ (share n ss).2.WellKinded
    ∧ (share n ss).2.node? (share n ss).1 = some n
  := by
  use shares_share ok.var?_eq_none
  cases known : ss.table.get? n with
  | some h =>
      rw [share_of_known known]
      use wk.countHit
      apply wk.table known
  | none =>
      rw [share_of_new known]
      use wk.addShared ok known
      apply node?_next_addShared

/-! ### Other changes to a session -/

/-- Whether a session is well-kinded is a matter of its arena and its table. -/
theorem WellKinded.congr {ss tt : Session} (wk : ss.WellKinded) (nodes : tt.nodes = ss.nodes)
    (table : tt.table = ss.table) :
  tt.WellKinded
  := by
  have same : ∀ h, tt.node? h = ss.node? h := fun h => by rw [node?, nodes, node?]
  have kinds : ∀ {hs ks}, tt.HaveKinds hs ks ↔ ss.HaveKinds hs ks := by
    intro hs ks
    simp only [HaveKinds, kind?, same]
  constructor
  · intro n h
    rw [table, same]
    apply wk.table
  · intro h op hs k
    rw [same]
    apply wk.earlier
  · intro h op hs k
    rw [same]
    simp only [kinds]
    apply wk.kinds

theorem wellKinded_empty (c : Configuration) :
  WellKinded { configuration := c }
  where
    table known := by cases known
    earlier hn := by cases hn
    kinds hn := by cases hn

/-- A new variable is no application, and the table does not know it. -/
theorem WellKinded.addVariable {ss : Session} (wk : ss.WellKinded) (name : String) (k : Kind)
    (internal : Bool) :
  (addVariable name k internal ss).2.WellKinded
  := by
  have grows := extends_addVariable name k internal ss
  constructor
  · intro n h known
    apply grows.node? (wk.table known)
  · intro h op hs j hn
    rw [node?_addVariable] at hn
    split at hn
    case isTrue => cases hn
    case isFalse => apply wk.earlier hn
  · intro h op hs j hn
    rw [node?_addVariable] at hn
    split at hn
    case isTrue => cases hn
    case isFalse =>
      obtain ⟨i, hk, same⟩ := wk.kinds hn
      use i, hk.mono grows

/-- Rolling back keeps whole terms, as operands precede the applications to them. -/
theorem WellKinded.truncate {ss : Session} (wk : ss.WellKinded) (cp : Checkpoint) :
  (ss.truncate cp).WellKinded
  := by
  constructor
  · intro n h known
    obtain ⟨known, kept⟩ := table_truncate_eq_some_iff.mp known
    apply node?_truncate_of_kept (wk.table known) kept
  · intro h op hs k hn
    rw [node?_truncate] at hn
    split at hn
    case isTrue => apply wk.earlier hn
    case isFalse => cases hn
  · intro h op hs k hn
    rw [node?_truncate] at hn
    split at hn
    case isTrue below =>
      obtain ⟨j, hk, same⟩ := wk.kinds hn
      have earlier := wk.earlier hn
      have inside : ∀ g ∈ hs, g.index < cp.nodes := fun g mem => by
        have := earlier g mem
        omega
      use j
      constructor
      · apply List.Forall₂.imp _ ((List.forall₂_and_left hs _).mpr ⟨inside, hk⟩)
        rintro g i ⟨inside, hg⟩
        rw [kind?, node?_truncate, if_pos inside]
        apply hg
      · apply same
    case isFalse => cases hn

end StringTerms.Session

namespace StringTerms

/-! ### Values of a session -/

/-- The value is known, or a node of its kind. -/
def Session.Holds (ss : Session) {k : Kind} : Value k → Prop
  | .known _ => True
  | .node h => ss.kind? h = some k

/-- All operands are values of the session. -/
def Session.HoldsAll (ss : Session) : {ks : List Kind} → Operands Value ks → Prop
  | _, .nil => True
  | _, .cons x xs => ss.Holds x ∧ ss.HoldsAll xs

variable {ss tt : Session} {k : Kind}

/-- An extension keeps the values of a session. -/
theorem Session.Extends.holds (h : ss.Extends tt) {x : Value k} (hx : ss.Holds x) :
  tt.Holds x
  := by
  cases x with
  | known v => trivial
  | node g => apply h.kind? hx

theorem Session.Extends.holdsAll (h : ss.Extends tt) {ks : List Kind} {xs : Operands Value ks}
    (hx : ss.HoldsAll xs) :
  tt.HoldsAll xs
  := by
  induction xs with
  | nil => trivial
  | cons x xs ih => use h.holds hx.1, ih hx.2

end StringTerms
