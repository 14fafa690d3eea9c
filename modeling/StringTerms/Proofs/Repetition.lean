import StringTerms.Proofs.Correspondence
import StringTerms.Proofs.HashConsing

/-!
# Repeating operations

What a session has shared or remembered is found again in every extension of it.  So an operation
corresponds to its own repetition in any session that extends the one after it: each request of the
repetition is answered from the table or from the memory, with the handle that was given before.
The repetition has the same value, and it leaves the contents of the session as they are.
-/

namespace StringTerms

variable {ss tt last : Session} {k r : Kind} {ks : List Kind}

/-! ### What extensions keep -/

namespace Session

/-- An extension keeps the remembered values. -/
theorem Extends.emulated? (h : ss.Extends tt) (inside : ss.EmulationsInside) {op : Operator}
    {hs : List Handle} {g : Handle} (known : ss.emulated? op hs = some g) :
  tt.emulated? op hs = some g
  := by
  have same : tt.emulations.filter (fun _ h => h.index < ss.nodes.size)
      = ss.emulations.filter (fun _ h => h.index < ss.nodes.size) :=
    (contents_eq_iff.mp h.contents).2.2.2.2.2
  apply FiniteMap.get?_of_filter same known
  simpa using inside op hs g known

/-- The table is exact, and what is remembered is in the arena. -/
structure Intact (ss : Session) : Prop extends ss.TableExact where
  emulations : ss.EmulationsInside

namespace Intact

theorem grow (intact : ss.Intact) (grows : ss.GrowsTo tt) :
  tt.Intact
  := ⟨grows.exact intact.toTableExact, intact.emulations.grow grows⟩

/-- Introducing a value whose definition grows the session. -/
theorem introduce (intact : ss.Intact) {define : Value k → Builder (Value .bool)}
    (grows : (freshInternal k ss).2.GrowsTo (Emulation.defined define ss).2) (op : Operator)
    (hs : List Handle) :
  (Emulation.introduce k op hs define ss).2.Intact
  := by
  cases found : ss.emulated? op hs with
  | some h =>
      rw [Emulation.introduce_of_known found]
      apply intact.grow (Emulation.growsTo_countReuse ss)
  | none =>
      rw [Emulation.introduce_of_new define found]
      have defined := intact.grow ((growsTo_freshInternal k ss).trans grows)
      have held : ss.next.index < (Emulation.defined define ss).2.nodes.size := by
        apply Nat.lt_of_lt_of_le _ grows.sizes.1
        simp [freshInternal, addVariable, checkpoint, next]
      exact ⟨defined.toTableExact.conclude _ _ _ _, defined.emulations.conclude held _⟩

end Intact

end Session

/-! ### The correspondence of a repetition -/

namespace Correspondence

/-- A session that is still to become the last one corresponds to any session of the contents of
the last one, and its handles are the same as themselves. -/
def repetition (last : Session) : Correspondence where
  within ss := ss.Extends last
  related ss tt := ss.Intact ∧ ss.Extends last ∧ tt.contents = last.contents
  same ss _ g h := g = h ∧ g.index < ss.nodes.size
  within_of_extends := Session.Extends.trans
  mono _ grows _ same := ⟨same.1, Nat.lt_of_lt_of_le same.2 grows.sizes.1⟩
  folding related := by
    obtain ⟨-, grows, contents⟩ := related
    rw [(Session.contents_eq_iff.mp contents).1, grows.configuration]
  literal related same := by
    obtain ⟨-, grows, contents⟩ := related
    obtain ⟨rfl, inside⟩ := same
    have node := Array.getElem?_eq_getElem inside
    have kept := grows.node? node
    rw [Session.node?, ← (Session.contents_eq_iff.mp contents).2.1] at kept
    rw [Session.literal?, Session.node?, node, Session.literal?, Session.node?, kept]
  unique _ same same' := by rw [same.1, same'.1]
  fold {ss _} related := by
    obtain ⟨intact, grows, contents⟩ := related
    have undone : ss.countFold.Extends ss := Session.Extends.of_contents rfl
    exact ⟨intact.grow (Session.growsTo_countFold ss), undone.trans grows, contents⟩
  share {ss tt n m} related alike grows := by
    obtain ⟨intact, -, contents⟩ := related
    have term : n.var? = none := by cases alike <;> rfl
    have same : n = m := by
      cases alike with
      | literal => rfl
      | @application op k gs hs operands =>
          have equal : List.Forall₂ Eq gs hs := operands.imp fun _ _ same => same.1
          rw [List.forall₂_eq_eq_eq] at equal
          rw [equal]
    subst same
    have intact := intact.grow (Session.growsTo_share term ss)
    have entry := Session.table_share n ss
    have known : tt.table.get? n = some (Session.share n ss).1 := by
      rw [(Session.contents_eq_iff.mp contents).2.2.1]
      apply grows.table intact.inside entry
    rw [Session.share_of_known known]
    exact ⟨⟨intact, grows, contents⟩, rfl, intact.inside n _ entry⟩

variable {x y : Value k}

theorem eq_of_alike_repetition (alike : (repetition last).Alike ss tt x y) :
  x = y
  := by
  cases alike with
  | known => rfl
  | node same => rw [same.1]

/-- Operands in the arena agree with themselves. -/
theorem agreesAll_repetition {xs : Operands Value ks} (held : Session.consing.AdmitsAll ss xs) :
  (repetition last).AgreesAll ss tt xs xs
  := by
  induction xs with
  | nil => trivial
  | cons x xs ih =>
      refine ⟨fun _ => ?_, ih held.2⟩
      cases x with
      | known v => apply Value.Alike.known
      | node h => exact Value.Alike.node ⟨rfl, held.1⟩

/-- A value that was introduced is remembered. -/
theorem parallel_introduce {define define' : Value k → Builder (Value .bool)} {op : Operator}
    {hs hs' : List Handle} (linked : (repetition last).Linked ss tt)
    (grows : (Session.freshInternal k ss).2.GrowsTo (Emulation.defined define ss).2)
    (same : (repetition last).within ss → hs = hs') :
  (repetition last).Parallel (repetition last).Alike ss tt (Emulation.introduce k op hs define)
    (Emulation.introduce k op hs' define')
  := by
  have extended := Emulation.extends_introduce grows.toExtends op hs
  refine ⟨extended, fun within => ?_⟩
  obtain ⟨intact, -, contents⟩ := linked (extended.trans within)
  obtain ⟨h, value, remembered⟩ := Emulation.introduce_remembers k op hs define ss
  have intact := intact.introduce grows op hs
  have found : tt.emulated? op hs' = some h := by
    rw [← same (extended.trans within), Session.emulated?_of_contents contents]
    apply within.emulated? intact.emulations remembered
  rw [Emulation.introduce_of_known found, value]
  refine ⟨(Emulation.growsTo_countReuse tt).toExtends, ⟨intact, within, contents⟩, ?_⟩
  exact Value.Alike.node ⟨rfl, intact.emulations op hs h remembered⟩

variable {s : Value .string} {i : Value .int}

theorem parallel_extract (linked : (repetition last).Linked ss tt)
    (hs : (repetition last).Agrees ss tt s s) (hi : (repetition last).Agrees ss tt i i) :
  (repetition last).Parallel (repetition last).Alike ss tt (Strings.extract s i)
    (Strings.extract s i)
  := by
  apply (parallel_handle linked hs).bind linked
  intro g g' _ _ later linked string
  apply (parallel_handle linked (hi.mono later)).bind linked
  intro h h' _ _ later linked position
  apply parallel_introduce linked (Strings.onlyShares_defined s i _).growsTo
  intro within
  rw [(string (later.grows.trans within)).1, (position within).1]

theorem parallel_charAt (linked : (repetition last).Linked ss tt)
    (hs : (repetition last).Agrees ss tt s s) (hi : (repetition last).Agrees ss tt i i) :
  (repetition last).Parallel (repetition last).Alike ss tt (Strings.charAt s i)
    (Strings.charAt s i)
  := by
  apply Parallel.get
  apply Parallel.of_within
  · intro within
    rw [← hs.known? linked within, ← hi.known? linked within]
  · cases (do ByteString.charAt? (← s.known? ss) (← i.known? ss) : Option UInt8) with
    | some c => apply Parallel.known linked
    | none => apply parallel_extract linked hs hi

/-- Every operation respects its repetition. -/
theorem parallel_repetition (linked : (repetition last).Linked ss tt) (o : Operation ks r)
    {xs : Operands Value ks} (agree : (repetition last).AgreesAll ss tt xs xs) :
  (repetition last).Parallel (repetition last).Alike ss tt (o.build xs) (o.build xs)
  := by
  cases plain : o.extracts with
  | false => apply parallel_build linked o xs xs agree plain
  | true =>
      cases o <;> cases plain
      case first.refl =>
        obtain _ | ⟨s, _ | _⟩ := xs
        apply parallel_charAt linked agree.1 (Agrees.known _)
      case charAt.refl =>
        obtain _ | ⟨s, _ | ⟨i, _ | _⟩⟩ := xs
        apply parallel_charAt linked agree.1 agree.2.1
      case extract.refl =>
        obtain _ | ⟨s, _ | ⟨i, _ | _⟩⟩ := xs
        apply parallel_extract linked agree.1 agree.2.1

end Correspondence

/-- An operation that is performed again after the session has been extended has the same value, and
leaves the contents of the session as they are. -/
theorem Operation.repeat (o : Operation ks r) {xs : Operands Value ks} (intact : ss.Intact)
    (held : Session.consing.AdmitsAll ss xs) (extended : (o.build xs ss).2.Extends tt) :
  (o.build xs tt).1 = (o.build xs ss).1 ∧ (o.build xs tt).2.contents = tt.contents
  := by
  have linked : (Correspondence.repetition tt).Linked ss tt := fun within =>
    ⟨intact, within, rfl⟩
  have parallel := Correspondence.parallel_repetition linked o
    (Correspondence.agreesAll_repetition held)
  obtain ⟨-, ⟨-, -, contents⟩, alike⟩ := parallel.ends extended
  exact ⟨(Correspondence.eq_of_alike_repetition alike).symm, contents⟩

/-! ### Runs -/

namespace Execution

variable {C : Conduct} {c : Configuration} {X Y : Execution}

/-- The execution goes on by edits and checkpoints, without a rollback. -/
inductive GoesOn (C : Conduct) : Execution → Execution → Prop
  | refl (X : Execution) : GoesOn C X X
  | edit {X Y : Execution} (earlier : GoesOn C X Y) (e : Edit) (made : C.edits Y.session e) :
    GoesOn C X { Y with session := e.perform Y.session }
  | checkpoint {X Y : Execution} (earlier : GoesOn C X Y) :
    GoesOn C X { Y with marks := ⟨Y.running.length, Y.session.checkpoint⟩ :: Y.marks }

theorem GoesOn.extends (later : GoesOn C X Y) :
  X.session.Extends Y.session
  := by
  induction later with
  | refl => apply Session.Extends.refl
  | edit _ e _ ih => apply ih.trans (e.extends_perform _)
  | checkpoint _ ih => apply ih

/-- Wherever an operation is performed in an execution, performing it again later, with edits and
checkpoints and no rollback in between, gives the same value and adds nothing to the session.  The
policy matters only to executions in which the user defines emulated values. -/
theorem Reached.operation_repeats (reached : Reached C c X) (own : C.policy.outer = false)
    (o : Operation ks r) (xs : Operands Value ks)
    (held : Session.consing.AdmitsAll X.session xs)
    (later : GoesOn C { X with session := (o.build xs X.session).2 } Y) :
  (o.build xs Y.session).1 = (o.build xs X.session).1
    ∧ (o.build xs Y.session).2.contents = Y.session.contents
  := o.repeat ⟨reached.tableExact, reached.emulationsInside own⟩ held later.extends

/-- The first character of a string is the same variable again after a condition has been declared
and asserted. -/
theorem operation_repeats_first :
  ∃ X Y : Execution, Reached { policy := ⟨false, true, true⟩ } {} X
    ∧ GoesOn { policy := ⟨false, true, true⟩ }
      { X with session := (Operation.first.build (.one (.node ⟨0⟩)) X.session).2 } Y
    ∧ Y.session.assertions = #[⟨⟨10⟩, .internal⟩, ⟨⟨11⟩, .user⟩]
    ∧ (Operation.first.build (.one (.node ⟨0⟩)) Y.session).1 = .node ⟨2⟩
    ∧ (Operation.first.build (.one (.node ⟨0⟩)) Y.session).2.contents = Y.session.contents
  := by
  have reached := (Reached.start (C := { policy := ⟨false, true, true⟩ }) (c := {})).step
    ⟨_, .edit (.declare "s" .string) trivial⟩
  have held : Session.consing.AdmitsAll (Edit.perform (.declare "s" .string) {})
      (.one (.node ⟨0⟩ : Value .string)) := ⟨Nat.one_pos, trivial⟩
  have extracted := GoesOn.refl (C := { policy := ⟨false, true, true⟩ })
    ⟨(Operation.first.build (.one (.node ⟨0⟩)) (Edit.perform (.declare "s" .string) {})).2, [], []⟩
  have later := (extracted.checkpoint.edit (.declare "p" .bool) trivial).edit (.assert ⟨11⟩) trivial
  obtain ⟨value, contents⟩ := reached.operation_repeats rfl .first (.one (.node ⟨0⟩)) held later
  exact ⟨_, _, reached, later, by decide +kernel, value.trans (by decide +kernel), contents⟩

end Execution

end StringTerms
