import StringTerms.Proofs.WellKinded

/-!
# Growth

A session grows when it is extended, its table stays exact, and no emulated value is remembered.
Adding nodes, variables and assertions grows the session, and so does a computation that only shares
nodes.
-/

namespace StringTerms

variable {α β : Type} {k r : Kind} {ks : List Kind}

/-- The table names nodes of the arena. -/
def Session.TableInside (ss : Session) : Prop :=
  ∀ n h, ss.table.get? n = some h → h.index < ss.nodes.size

theorem Session.TableExact.inside {ss : Session} (h : ss.TableExact) :
  ss.TableInside
  := fun _ _ known => (Array.getElem?_eq_some_iff.mp (h.exact.mp known).1).1

/-- An extension keeps the entries of the table. -/
theorem Session.Extends.table {ss tt : Session} (h : ss.Extends tt) (inside : ss.TableInside)
    {n : Node} {g : Handle} (known : ss.table.get? n = some g) :
  tt.table.get? n = some g
  := by
  have same : tt.table.filter (fun _ h => h.index < ss.nodes.size)
      = ss.table.filter (fun _ h => h.index < ss.nodes.size) :=
    (contents_eq_iff.mp h.contents).2.2.1
  apply FiniteMap.get?_of_filter same known
  simpa using inside n g known

/-- An extension that keeps the table exact, and in which no other values are remembered. -/
structure Session.GrowsTo (ss tt : Session) : Prop extends ss.Extends tt where
  emulations : tt.emulations = ss.emulations
  exact : ss.TableExact → tt.TableExact

theorem Session.GrowsTo.refl (ss : Session) :
  ss.GrowsTo ss
  := ⟨Extends.refl ss, rfl, id⟩

theorem Session.GrowsTo.trans {ss tt uu : Session} (h : ss.GrowsTo tt) (h' : tt.GrowsTo uu) :
  ss.GrowsTo uu
  := ⟨h.toExtends.trans h'.toExtends, h'.emulations.trans h.emulations, h'.exact ∘ h.exact⟩

/-- The computation extends every session and remembers no emulated value. -/
structure Grows (x : Builder α) : Prop where
  grown : ∀ ss : Session, ss.GrowsTo (x ss).2

namespace Grows

theorem pure (a : α) :
  Grows (Pure.pure a)
  := ⟨Session.GrowsTo.refl⟩

theorem bind {x : Builder α} {f : α → Builder β} (hx : Grows x) (hf : ∀ a, Grows (f a)) :
  Grows (x >>= f)
  := ⟨fun ss => (hx.grown ss).trans ((hf (x ss).1).grown (x ss).2)⟩

end Grows

/-! ### Nodes -/

theorem Session.growsTo_countFold (ss : Session) :
  ss.GrowsTo ss.countFold
  := ⟨extends_countFold ss, rfl, fun h => h.congr rfl rfl⟩

theorem Session.growsTo_addVariable (name : String) (k : Kind) (internal : Bool) (ss : Session) :
  ss.GrowsTo (addVariable name k internal ss).2
  := ⟨extends_addVariable name k internal ss, rfl, fun h => h.addVariable name k internal⟩

theorem Session.growsTo_freshInternal (k : Kind) (ss : Session) :
  ss.GrowsTo (freshInternal k ss).2
  := growsTo_addVariable _ k true ss

theorem Session.growsTo_addAssertion (h : Handle) (origin : Origin) (ss : Session) :
  ss.GrowsTo (ss.addAssertion h origin)
  := ⟨extends_addAssertion h origin ss, rfl, fun h => h.congr rfl rfl⟩

theorem Session.extends_share (n : Node) (ss : Session) :
  ss.Extends (share n ss).2
  := by
  cases known : ss.table.get? n with
  | some h =>
      rw [share_of_known known]
      apply extends_countHit
  | none =>
      rw [share_of_new known]
      apply extends_addShared known

theorem Session.growsTo_share {n : Node} (term : n.var? = none) (ss : Session) :
  ss.GrowsTo (share n ss).2
  := by
  refine ⟨extends_share n ss, ?_, fun h => h.share term⟩
  cases known : ss.table.get? n with
  | some h => rw [share_of_known known, countHit]
  | none => rw [share_of_new known, addShared]

/-- A shared node is in the table. -/
theorem Session.table_share (n : Node) (ss : Session) :
  (share n ss).2.table.get? n = some (share n ss).1
  := by
  cases known : ss.table.get? n with
  | some h =>
      rw [share_of_known known]
      apply known
  | none =>
      rw [share_of_new known, addShared, FiniteMap.get?_insert, if_pos rfl]

/-- The answer to a request for a node is a handle of this very node. -/
theorem Session.TableExact.node?_share {ss : Session} (h : ss.TableExact) {n : Node}
    (term : n.var? = none) :
  (Session.share n ss).2.node? (Session.share n ss).1 = some n
  := ((h.share term).exact.mp (table_share n ss)).1

theorem grows_share {n : Node} (term : n.var? = none) :
  Grows (Session.share n)
  := ⟨Session.growsTo_share term⟩

theorem grows_handle (x : Value k) :
  Grows x.handle
  := by
  cases x with
  | known v => apply grows_share rfl
  | node h => apply Grows.pure

theorem grows_handles (xs : Operands Value ks) :
  Grows xs.handles
  := by
  induction xs with
  | nil => apply Grows.pure
  | cons x xs ih =>
      apply (grows_handle x).bind
      intro h
      apply ih.bind
      intro hs
      apply Grows.pure

theorem grows_defer (r : Kind) (op : Operator) (xs : Operands Value ks) :
  Grows (defer r op xs)
  := by
  apply (grows_handles xs).bind
  intro hs
  apply (grows_share rfl).bind
  intro h
  apply Grows.pure

end StringTerms
