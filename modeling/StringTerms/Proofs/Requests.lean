import StringTerms.Proofs.WellFormed

/-!
# Checked requests

A checked application is built exactly if its operands are nodes of the kinds that the operator
expects at some instance.  Otherwise the request is refused for the first operand that is no node,
or else for the number of operands, or else for the first operand that no instance accepts behind
those before it, and the session is left as it was.  A node is asserted exactly if it is of kind
Bool.  What is built can be looked up, because in every session that is reached the table names the
nodes that it is asked for.
-/

namespace StringTerms

variable {ss tt : Session} {op : Operator} {hs : List Handle} {h : Handle} {e : Error}
  {found expected agreed l : List Kind} {a b j k : Kind}

/-! ### Kinds of operands -/

namespace Operator

/-- The number of operands, which is the same at every instance. -/
def arity (op : Operator) : Nat := (op.operandKinds .bool).length

theorem length_operandKinds (op : Operator) (k : Kind) :
  (op.operandKinds k).length = op.arity
  := by
  cases op <;> rfl

/-- The comparison fails where the kinds first differ. -/
theorem checkKinds_eq_error_iff (count : found.length = expected.length) :
  op.checkKinds expected found = .error e
    ↔ ∃ agreed a b, agreed ++ [b] <+: found ∧ agreed ++ [a] <+: expected ∧ a ≠ b
      ∧ e = .sortMismatch op a b
  := by
  induction expected generalizing found with
  | nil => simp [checkKinds, pure, Except.pure]
  | cons x expected ih =>
      obtain _ | ⟨y, found⟩ := found
      · cases count
      have shorter : found.length = expected.length := Nat.succ.inj count
      by_cases same : x = y
      · subst same
        rw [checkKinds, if_pos rfl, ih shorter]
        constructor
        · rintro ⟨agreed, a, b, here, there, differ, rfl⟩
          use x :: agreed, a, b
          simp [List.cons_prefix_cons, here, there, differ]
        · rintro ⟨_ | ⟨u, agreed⟩, a, b, here, there, differ, rfl⟩
          · simp only [List.nil_append, List.cons_prefix_cons] at here there
            exact absurd (there.1.trans here.1.symm) differ
          · simp only [List.cons_append, List.cons_prefix_cons] at here there
            exact ⟨agreed, a, b, here.2, there.2, differ, rfl⟩
      · rw [checkKinds, if_neg same]
        constructor
        · rintro ⟨⟩
          use [], x, y
          simp [List.cons_prefix_cons, same]
        · rintro ⟨_ | ⟨u, agreed⟩, a, b, here, there, differ, rfl⟩
          · simp only [List.nil_append, List.cons_prefix_cons] at here there
            rw [here.1, there.1]
            rfl
          · simp only [List.cons_append, List.cons_prefix_cons] at here there
            exact absurd (there.1.symm.trans here.1) same

/-- Kinds that fit some instance fit the one that is read off the operands. -/
theorem isPrefix_operandKinds_instanceOf (count : found.length = op.arity) (here : l <+: found)
    (there : l <+: op.operandKinds j) :
  l <+: op.operandKinds (op.instanceOf found)
  := by
  -- Only equality and the conditional have instances that differ.
  cases op
  case eq =>
    obtain ⟨x, y, rfl⟩ := List.length_eq_two.mp count
    obtain _ | ⟨u, _ | ⟨v, l⟩⟩ := l <;> simp_all [instanceOf, List.cons_prefix_cons]
  case ite =>
    obtain ⟨x, y, z, rfl⟩ := List.length_eq_three.mp count
    obtain _ | ⟨u, _ | ⟨v, _ | ⟨w, l⟩⟩⟩ := l <;> simp_all [instanceOf, List.cons_prefix_cons]
  all_goals exact there

/-- The kinds `found` start with `agreed` and go on with `b`, where an instance of the operator that
starts with `agreed` goes on with `a`, and no instance accepts `b` there. -/
structure Offends (op : Operator) (found agreed : List Kind) (a b : Kind) : Prop where
  found : agreed ++ [b] <+: found
  expected : ∃ k, agreed ++ [a] <+: op.operandKinds k
  refused : ∀ k, ¬ agreed ++ [b] <+: op.operandKinds k

/-- Where the instance that is read off the operands does not accept a kind, it expects the same
kind there as every instance that accepts the kinds before. -/
theorem Offends.isPrefix_instanceOf (offends : op.Offends found agreed a b)
    (count : found.length = op.arity) :
  agreed ++ [a] <+: op.operandKinds (op.instanceOf found)
  := by
  obtain ⟨here, ⟨j, there⟩, refused⟩ := offends
  have refused := refused (op.instanceOf found)
  cases op
  case eq =>
    obtain ⟨x, y, rfl⟩ := List.length_eq_two.mp count
    obtain _ | ⟨u, _ | ⟨v, l⟩⟩ := agreed <;> simp_all [instanceOf, List.cons_prefix_cons]
  case ite =>
    obtain ⟨x, y, z, rfl⟩ := List.length_eq_three.mp count
    obtain _ | ⟨u, _ | ⟨v, _ | ⟨w, l⟩⟩⟩ := agreed
      <;> simp_all [instanceOf, List.cons_prefix_cons]
  all_goals exact there

/-- The operand that offends is the first one at which the instance that is read off the operands
differs from them. -/
theorem offends_iff (count : found.length = op.arity) :
  op.Offends found agreed a b
    ↔ agreed ++ [b] <+: found ∧ agreed ++ [a] <+: op.operandKinds (op.instanceOf found) ∧ a ≠ b
  := by
  constructor
  · intro offends
    use offends.found, offends.isPrefix_instanceOf count
    rintro rfl
    obtain ⟨k, there⟩ := offends.expected
    exact offends.refused k there
  · rintro ⟨here, there, differ⟩
    refine ⟨here, ⟨_, there⟩, ?_⟩
    intro j accepted
    -- Both kinds would stand at the same place of the same instance.
    have accepted := isPrefix_operandKinds_instanceOf count here accepted
    have same := List.IsPrefix.eq_of_length
      (List.prefix_of_prefix_length_le there accepted (by simp)) (by simp)
    exact differ (List.singleton_inj.mp (List.append_cancel_left same))

/-- Kinds are refused for their number, or else for the first one that offends. -/
theorem resultKind_eq_error_iff :
  op.resultKind found = .error e
    ↔ found.length ≠ op.arity ∧ e = .arityMismatch op op.arity found.length
    ∨ found.length = op.arity ∧ ∃ agreed a b, op.Offends found agreed a b
      ∧ e = .sortMismatch op a b
  := by
  have arity := op.length_operandKinds (op.instanceOf found)
  by_cases count : found.length = op.arity
  · have checked : op.resultKind found = (do
        op.checkKinds (op.operandKinds (op.instanceOf found)) found
        return op.kindAt (op.instanceOf found)) := if_pos (count.trans arity.symm)
    have refused : op.resultKind found = .error e
        ↔ op.checkKinds (op.operandKinds (op.instanceOf found)) found = .error e := by
      rw [checked]
      cases op.checkKinds (op.operandKinds (op.instanceOf found)) found with
      | ok u => simp [bind, Except.bind, pure, Except.pure]
      | error d => simp [bind, Except.bind]
    rw [refused, checkKinds_eq_error_iff (count.trans arity.symm)]
    simp [count, offends_iff count, and_assoc]
  · have counted : op.resultKind found
        = .error (.arityMismatch op (op.operandKinds (op.instanceOf found)).length found.length) :=
      if_neg fun same => count (same.trans arity)
    rw [counted, arity]
    simp [count, eq_comm]

end Operator

/-! ### Applications -/

/-- The answer to a request is a result, or an error, and a session. -/
theorem Request.run_eq_iff {α : Type} {request : Request α} {answer : Except Error α} :
  request.run ss = (answer, tt) ↔ (request.run ss).1 = answer ∧ (request.run ss).2 = tt
  := Prod.ext_iff

namespace Session

theorem kind?_eq_none_iff :
  ss.kind? h = none ↔ ss.nodes.size ≤ h.index
  := by
  rw [kind?, Option.map_eq_none_iff, node?, Array.getElem?_eq_none_iff]

/-- Looking up the kinds of operands fails for the first of them that is no node. -/
theorem kinds_eq_error_iff :
  ss.kinds hs = .error e
    ↔ ∃ h, hs.find? (fun g => ss.nodes.size ≤ g.index) = some h ∧ e = .unknownHandle h
  := by
  induction hs with
  | nil => simp [kinds, pure, Except.pure]
  | cons g hs ih =>
      rw [kinds, List.find?_cons]
      cases head : ss.kind? g with
      | none =>
          rw [decide_eq_true (kind?_eq_none_iff.mp head)]
          simp [throw, throwThe, MonadExceptOf.throw, eq_comm]
      | some k =>
          rw [decide_eq_false (Nat.not_le_of_lt (index_lt_of_kind? head)), ← ih]
          cases ss.kinds hs with
          | ok ks => simp [bind, Except.bind, pure, Except.pure]
          | error d => simp [bind, Except.bind]

/-- Why an application is refused. -/
inductive Refusal (ss : Session) (op : Operator) (hs : List Handle) : Error → Prop
  /-- The first operand that is not in the arena. -/
  | unknown {h : Handle} (first : hs.find? (fun g => ss.nodes.size ≤ g.index) = some h) :
    Refusal ss op hs (.unknownHandle h)
  | arity (inside : ∀ g ∈ hs, g.index < ss.nodes.size) (count : hs.length ≠ op.arity) :
    Refusal ss op hs (.arityMismatch op op.arity hs.length)
  | sort {found agreed : List Kind} {a b : Kind} (kinds : ss.HaveKinds hs found)
    (count : hs.length = op.arity) (offends : op.Offends found agreed a b) :
    Refusal ss op hs (.sortMismatch op a b)

/-- The check refuses operands for the first of them that is unknown, or for their number, or for
the first of them that offends. -/
theorem check_eq_error_iff :
  ss.check op hs = .error e ↔ ss.Refusal op hs e
  := by
  unfold check
  constructor
  · intro refused
    cases found : ss.kinds hs with
    | error d =>
        rw [found] at refused
        cases refused
        obtain ⟨h, first, rfl⟩ := kinds_eq_error_iff.mp found
        apply Refusal.unknown first
    | ok ks =>
        rw [found] at refused
        have kinds := haveKinds_of_kinds found
        have same : hs.length = ks.length := List.Forall₂.length_eq kinds
        obtain ⟨count, rfl⟩ | ⟨count, agreed, a, b, offends, rfl⟩ :=
          Operator.resultKind_eq_error_iff.mp refused
        · rw [← same] at count ⊢
          apply Refusal.arity kinds.index_lt count
        · apply Refusal.sort kinds (same.trans count) offends
  · intro refusal
    cases refusal with
    | unknown first =>
        rw [kinds_eq_error_iff.mpr ⟨_, first, rfl⟩]
        rfl
    | arity inside count =>
        cases found : ss.kinds hs with
        | error d =>
            obtain ⟨h, first, -⟩ := kinds_eq_error_iff.mp found
            have outside : ss.nodes.size ≤ h.index := by simpa using List.find?_some first
            exact absurd (inside h (List.mem_of_find?_eq_some first)) (Nat.not_lt_of_le outside)
        | ok ks =>
            have same : hs.length = ks.length := List.Forall₂.length_eq (haveKinds_of_kinds found)
            rw [same] at count ⊢
            apply Operator.resultKind_eq_error_iff.mpr (Or.inl ⟨count, rfl⟩)
    | sort kinds count offends =>
        have same : hs.length = _ := List.Forall₂.length_eq kinds
        rw [kinds.kinds_eq]
        apply Operator.resultKind_eq_error_iff.mpr
        exact Or.inr ⟨same.symm.trans count, _, _, _, offends, rfl⟩

/-- An application to operands of the expected kinds is shared. -/
theorem apply_eq_ok_iff :
  (apply op hs).run ss = (.ok h, tt)
    ↔ ∃ k, ss.HaveKinds hs (op.operandKinds k)
      ∧ share (.application op hs (op.kindAt k)) ss = (h, tt)
  := by
  rw [run_apply]
  constructor
  · intro answered
    cases checked : ss.check op hs with
    | error e =>
        rw [checked] at answered
        cases answered
    | ok r =>
        rw [checked] at answered
        cases answered
        obtain ⟨k, kinds, rfl⟩ := check_eq_ok_iff.mp checked
        exact ⟨k, kinds, rfl⟩
  · rintro ⟨k, kinds, shared⟩
    rw [check_eq_ok_iff.mpr ⟨k, kinds, rfl⟩]
    simp only [shared]

/-- A refused application leaves the session as it was. -/
theorem apply_eq_error_iff :
  (apply op hs).run ss = (.error e, tt) ↔ tt = ss ∧ ss.Refusal op hs e
  := by
  rw [Request.run_eq_iff, run_apply, ← check_eq_error_iff]
  cases ss.check op hs with
  | ok k => simp
  | error d => simp [and_comm, eq_comm]

/-! ### Assertions -/

/-- The request asserts `h` on behalf of `origin` if it is a node of kind Bool, and otherwise it is
refused and leaves the session as it was. -/
structure AssertsChecked (ss : Session) (request : Request Unit) (h : Handle) (origin : Origin) :
    Prop where
  accepted : ∀ tt, request.run ss = (.ok (), tt)
    ↔ ss.kind? h = some .bool ∧ tt = ss.addAssertion h origin
  refused : ∀ e tt, request.run ss = (.error e, tt)
    ↔ tt = ss ∧ (ss.nodes.size ≤ h.index ∧ e = .unknownHandle h
      ∨ ∃ k, ss.kind? h = some k ∧ k ≠ .bool ∧ e = .nonBooleanAssertion k)

theorem assertsChecked_record (ss : Session) (origin : Origin) (h : Handle) :
  ss.AssertsChecked (record origin h) h origin
  := by
  constructor
  · intro tt
    rw [Request.run_eq_iff, run_record]
    cases ss.kind? h with
    | none => simp
    | some k => cases k <;> simp [eq_comm]
  · intro e tt
    rw [Request.run_eq_iff, run_record, ← kind?_eq_none_iff]
    cases ss.kind? h with
    | none => simp [and_comm, eq_comm]
    | some k => cases k <;> simp [and_comm, eq_comm]

/-! ### The table -/

/-- The answer to a request for a node: a node that was there before, or a new one. -/
theorem TableExact.share_cases (exact : ss.TableExact) {n : Node} (term : n.var? = none)
    (shared : Session.share n ss = (h, tt)) :
  tt.node? h = some n
    ∧ (ss.node? h = some n ∧ tt = ss.countHit ∨ h = ss.next ∧ tt = ss.addShared n)
  := by
  have stands := exact.node?_share term
  rw [shared] at stands
  use stands
  cases known : ss.table.get? n with
  | some g =>
      rw [share_of_known known] at shared
      cases shared
      exact Or.inl ⟨(exact.exact.mp known).1, rfl⟩
  | none =>
      rw [share_of_new known] at shared
      cases shared
      exact Or.inr ⟨rfl, rfl⟩

end Session

/-! ### Executions -/

namespace Execution

variable {C : Conduct} {c : Configuration} {X : Execution}

/-- A checked application is accepted exactly if its operands have the kinds of the operator at some
instance, and then the answer is its node, which is the only one that may have been added.  It is
refused exactly for one of the reasons of `Session.Refusal`, and then nothing changes.  Assertions
are accepted exactly for nodes of kind Bool. -/
theorem Reached.requests_checked (reached : Reached C c X) (op : Operator) (hs : List Handle) :
  ((∃ h tt, (Session.apply op hs).run X.session = (.ok h, tt))
    ↔ ∃ k, X.session.HaveKinds hs (op.operandKinds k))
  ∧ (∀ h tt, (Session.apply op hs).run X.session = (.ok h, tt) →
    ∃ k, X.session.HaveKinds hs (op.operandKinds k)
      ∧ tt.node? h = some (.application op hs (op.kindAt k))
      ∧ (X.session.node? h = some (.application op hs (op.kindAt k)) ∧ tt = X.session.countHit
        ∨ h = X.session.next ∧ tt = X.session.addShared (.application op hs (op.kindAt k))))
  ∧ (∀ e tt, (Session.apply op hs).run X.session = (.error e, tt)
    ↔ tt = X.session ∧ X.session.Refusal op hs e)
  ∧ ∀ h, X.session.AssertsChecked (Session.assert h) h .user
    ∧ X.session.AssertsChecked (Session.assertInternal h) h .internal
  := by
  refine ⟨?_, ?_, fun e tt => Session.apply_eq_error_iff, ?_⟩
  · constructor
    · rintro ⟨h, tt, answered⟩
      obtain ⟨k, kinds, -⟩ := Session.apply_eq_ok_iff.mp answered
      exact ⟨k, kinds⟩
    · rintro ⟨k, kinds⟩
      exact ⟨_, _, Session.apply_eq_ok_iff.mpr ⟨k, kinds, rfl⟩⟩
  · intro h tt answered
    obtain ⟨k, kinds, shared⟩ := Session.apply_eq_ok_iff.mp answered
    exact ⟨k, kinds, reached.tableExact.share_cases rfl shared⟩
  · intro h
    exact ⟨X.session.assertsChecked_record .user h, X.session.assertsChecked_record .internal h⟩

/-- A string can be compared to itself, but not to a number, and of two operands that do not exist
the first one is reported, whatever their number should be. -/
theorem requests_checked_equal :
  ∃ X : Execution, Reached { policy := ⟨true, true, true⟩ } {} X
    ∧ X.session.nodes = #[.var 0 .string, .var 1 .int]
    ∧ (∃ h tt, (Session.apply .eq [⟨0⟩, ⟨0⟩]).run X.session = (.ok h, tt)
      ∧ tt.node? h = some (.application .eq [⟨0⟩, ⟨0⟩] .bool))
    ∧ (Session.apply .eq [⟨0⟩, ⟨1⟩]).run X.session
      = (.error (.sortMismatch .eq .string .int), X.session)
    ∧ (Session.apply .length [⟨2⟩, ⟨3⟩]).run X.session = (.error (.unknownHandle ⟨2⟩), X.session)
  := by
  have declared := (Reached.start (C := { policy := ⟨true, true, true⟩ }) (c := {})).step
    ⟨_, .edit (.declare "s" .string) trivial⟩
  have reached := declared.step ⟨_, .edit (.declare "n" .int) trivial⟩
  refine ⟨_, reached, rfl, ?_, ?_, ?_⟩
  · obtain ⟨accepts, built, -⟩ := reached.requests_checked .eq [⟨0⟩, ⟨0⟩]
    obtain ⟨h, tt, answered⟩ := accepts.mpr ⟨.string, .cons rfl (.cons rfl .nil)⟩
    obtain ⟨k, -, stands, -⟩ := built h tt answered
    exact ⟨h, tt, answered, stands⟩
  · obtain ⟨-, -, refused, -⟩ := reached.requests_checked .eq [⟨0⟩, ⟨1⟩]
    have offends : Operator.Offends .eq [.string, .int] [.string] .string .int :=
      ⟨by decide, ⟨.string, by decide⟩, fun k => by cases k <;> decide⟩
    exact (refused _ _).mpr ⟨rfl, .sort (.cons rfl (.cons rfl .nil)) rfl offends⟩
  · obtain ⟨-, -, refused, -⟩ := reached.requests_checked .length [⟨2⟩, ⟨3⟩]
    exact (refused _ _).mpr ⟨rfl, .unknown rfl⟩

end Execution

end StringTerms
