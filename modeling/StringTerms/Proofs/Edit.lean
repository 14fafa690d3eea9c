import StringTerms.Proofs.Discipline

/-!
# Edits

An edit is a request of the user's that is no checkpoint, no rollback and no definition of an
emulated value; `Edit.perform` is what it does to the session, which is nothing where the request is
refused.  An edit that extracts no character grows the session.
-/

namespace StringTerms

/-- A request of the user's that is no checkpoint, no rollback and no definition of an emulated
value. -/
inductive Edit where
  | literal (v : Literal)
  | declare (name : String) (k : Kind)
  | fresh (k : Kind)
  | freshInternal (k : Kind)
  | apply (op : Operator) (hs : List Handle)
  | intern (op : Operator) (hs : List Handle) (k : Kind)
  | defer {ks : List Kind} (r : Kind) (op : Operator) (xs : Operands Value ks)
  | operate {ks : List Kind} {r : Kind} (o : Operation ks r) (xs : Operands Value ks)
  | assert (h : Handle)
  | assertInternal (h : Handle)

/-- The session after an edit, which is the same session where the edit is refused. -/
def Edit.perform : Edit → Session → Session
  | .literal v, ss => (Session.literal v ss).2
  | .declare name k, ss => (Session.declare name k ss).2
  | .fresh k, ss => (Session.fresh k ss).2
  | .freshInternal k, ss => (Session.freshInternal k ss).2
  | .apply op hs, ss => ((Session.apply op hs).run ss).2
  | .intern op hs k, ss => (Session.intern op hs k ss).2
  | .defer r op xs, ss => (StringTerms.defer r op xs ss).2
  | .operate o xs, ss => (o.build xs ss).2
  | .assert h, ss => ((Session.assert h).run ss).2
  | .assertInternal h, ss => ((Session.assertInternal h).run ss).2

/-- Whether an edit extracts a character, which defines an emulated value. -/
def Edit.extracts : Edit → Bool
  | .operate o _ => o.extracts
  | _ => false

/-- Handles whose kinds are found have these kinds. -/
theorem Session.haveKinds_of_kinds {ss : Session} {hs : List Handle} {ks : List Kind}
    (found : ss.kinds hs = .ok ks) :
  ss.HaveKinds hs ks
  := by
  induction hs generalizing ks with
  | nil =>
      cases found
      apply List.Forall₂.nil
  | cons h hs ih =>
      unfold kinds at found
      cases head : ss.kind? h with
      | none => simp [head, throw, throwThe, MonadExceptOf.throw] at found
      | some k =>
          cases tail : ss.kinds hs with
          | error e => simp [head, tail, bind, Except.bind] at found
          | ok js =>
              simp only [head, tail, bind, Except.bind, pure, Except.pure] at found
              cases found
              exact List.Forall₂.cons head (ih tail)

/-- Handles that name nodes of kinds have these kinds. -/
theorem Session.HaveKinds.kinds_eq {ss : Session} {hs : List Handle} {ks : List Kind}
    (have_kinds : ss.HaveKinds hs ks) :
  ss.kinds hs = .ok ks
  := by
  induction have_kinds with
  | nil => rfl
  | cons head _ ih =>
      rw [kinds, head, ih]
      rfl

/-- The check of an application, which comes before it is built. -/
def Session.check (ss : Session) (op : Operator) (hs : List Handle) : Except Error Kind :=
  ss.kinds hs >>= op.resultKind

/-- The check accepts nodes of the kinds that the operator expects at some instance. -/
theorem Session.check_eq_ok_iff {ss : Session} {op : Operator} {hs : List Handle} {k : Kind} :
  ss.check op hs = .ok k ↔ ∃ j, ss.HaveKinds hs (op.operandKinds j) ∧ k = op.kindAt j
  := by
  unfold check
  constructor
  · intro accepted
    cases found : ss.kinds hs with
    | error e =>
        rw [found] at accepted
        cases accepted
    | ok ks =>
        rw [found] at accepted
        obtain ⟨j, rfl, rfl⟩ := Operator.resultKind_eq_ok_iff.mp accepted
        exact ⟨j, haveKinds_of_kinds found, rfl⟩
  · rintro ⟨j, kinds, rfl⟩
    rw [kinds.kinds_eq]
    exact Operator.resultKind_eq_ok_iff.mpr ⟨j, rfl, rfl⟩

/-- A checked application is built if the check accepts it. -/
theorem Session.run_apply (op : Operator) (hs : List Handle) (ss : Session) :
  (apply op hs).run ss
    = match ss.check op hs with
      | .ok k => (.ok (share (.application op hs k) ss).1, (share (.application op hs k) ss).2)
      | .error e => (.error e, ss)
  := by
  have start : (apply op hs).run ss = ((liftM (ss.kinds hs) : Request (List Kind)) >>= fun ks => do
      let k ← op.resultKind ks
      intern op hs k : Request Handle).run ss := rfl
  rw [start, check]
  cases ss.kinds hs with
  | error e => rfl
  | ok ks =>
      have next : ((liftM (.ok ks : Except Error (List Kind)) : Request (List Kind)) >>= fun ks => do
          let k ← op.resultKind ks
          intern op hs k : Request Handle).run ss
          = ((liftM (op.resultKind ks) : Request Kind) >>= fun k => intern op hs k).run ss := rfl
      have checked : (Except.ok ks >>= op.resultKind) = op.resultKind ks := rfl
      rw [next, checked]
      cases op.resultKind ks with
      | error e => rfl
      | ok k => rfl

/-- A checked application is refused, or shares an application to nodes of the right kinds. -/
theorem Session.apply_cases (op : Operator) (hs : List Handle) (ss : Session) :
  ((apply op hs).run ss).2 = ss
    ∨ ∃ j, ss.HaveKinds hs (op.operandKinds j)
      ∧ ((apply op hs).run ss).2 = (share (.application op hs (op.kindAt j)) ss).2
  := by
  rw [run_apply]
  cases checked : ss.check op hs with
  | error e => exact Or.inl rfl
  | ok k =>
      obtain ⟨j, kinds, rfl⟩ := check_eq_ok_iff.mp checked
      exact Or.inr ⟨j, kinds, rfl⟩

/-- An assertion is recorded for a node of kind Bool. -/
theorem Session.run_record (origin : Origin) (h : Handle) (ss : Session) :
  (record origin h).run ss
    = match ss.kind? h with
      | some .bool => (.ok (), ss.addAssertion h origin)
      | some k => (.error (.nonBooleanAssertion k), ss)
      | none => (.error (.unknownHandle h), ss)
  := by
  rw [record, Request.run_get_bind]
  cases ss.kind? h with
  | none => rfl
  | some k => cases k <;> rfl

/-- An assertion is refused, or adds a node of kind Bool. -/
theorem Session.record_cases (origin : Origin) (h : Handle) (ss : Session) :
  ((record origin h).run ss).2 = ss
    ∨ ss.kind? h = some .bool ∧ ((record origin h).run ss).2 = ss.addAssertion h origin
  := by
  rw [run_record]
  cases ss.kind? h with
  | none => exact Or.inl rfl
  | some k =>
      cases k with
      | bool => exact Or.inr ⟨rfl, rfl⟩
      | _ => exact Or.inl rfl

theorem Session.growsTo_apply (op : Operator) (hs : List Handle) (ss : Session) :
  ss.GrowsTo ((apply op hs).run ss).2
  := by
  obtain same | ⟨j, -, shared⟩ := apply_cases op hs ss
  · rw [same]
    apply GrowsTo.refl
  · rw [shared]
    apply growsTo_share rfl

theorem Session.growsTo_record (origin : Origin) (h : Handle) (ss : Session) :
  ss.GrowsTo ((record origin h).run ss).2
  := by
  obtain same | ⟨-, added⟩ := record_cases origin h ss
  · rw [same]
    apply GrowsTo.refl
  · rw [added]
    apply growsTo_addAssertion

/-- An edit that extracts no character extends the session and remembers no emulated value. -/
theorem Edit.growsTo_perform (e : Edit) (plain : e.extracts = false) (ss : Session) :
  ss.GrowsTo (e.perform ss)
  := by
  cases e with
  | literal v => apply Session.growsTo_share rfl
  | declare name k => apply Session.growsTo_addVariable
  | fresh k => apply Session.growsTo_addVariable
  | freshInternal k => apply Session.growsTo_addVariable
  | apply op hs => apply Session.growsTo_apply
  | intern op hs k => apply Session.growsTo_share rfl
  | defer r op xs => apply (grows_defer r op xs).grown
  | operate o xs => apply (o.grows_build xs plain).grown
  | assert h => apply Session.growsTo_record
  | assertInternal h => apply Session.growsTo_record

end StringTerms
