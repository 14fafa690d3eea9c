import StringTerms.Error

/-!
# Kinds of applications

`Operator.resultKind` checks the kinds of the operands of an operator: first their number, then
each of them from left to right.  Equality takes its instance from its first operand, and the
conditional from its second, so the operand that disagrees is the other one.
-/

namespace StringTerms.Operator

/-- The kind at which the operator is used, read off its operands. -/
def instanceOf : Operator → List Kind → Kind
  | .eq, k :: _ => k
  | .ite, _ :: k :: _ => k
  | _, _ => .bool

/-- Compares the kinds of operands with the expected ones, from left to right. -/
def checkKinds (op : Operator) : (expected found : List Kind) → Except Error Unit
  | e :: expected, f :: found =>
    if e = f then checkKinds op expected found else throw (.sortMismatch op e f)
  | _, _ => pure ()

/-- The kind of an application to operands of the given kinds. -/
def resultKind (op : Operator) (found : List Kind) : Except Error Kind :=
  let k := op.instanceOf found
  let expected := op.operandKinds k
  if found.length = expected.length then do
    op.checkKinds expected found
    return op.kindAt k
  else
    throw (.arityMismatch op expected.length found.length)

theorem checkKinds_eq_ok_iff {op : Operator} {expected found : List Kind}
    (h : found.length = expected.length) :
  op.checkKinds expected found = .ok () ↔ found = expected
  := by
  induction expected generalizing found with
  | nil =>
    have empty := List.length_eq_zero_iff.mp h
    subst empty
    exact ⟨fun _ => rfl, fun _ => rfl⟩
  | cons e expected ih =>
    obtain - | ⟨f, found⟩ := found
    · simp at h
    · have rest : found.length = expected.length := by simpa using h
      by_cases same : e = f
      · subst same
        simp [checkKinds, ih rest]
      · simp [checkKinds, same, eq_comm, throw, throwThe, MonadExceptOf.throw]

/-- The operands at an instance determine it where the operator works at every kind. -/
theorem kindAt_instanceOf (op : Operator) (k : Kind) :
  op.kindAt (op.instanceOf (op.operandKinds k)) = op.kindAt k
  := by
  cases op <;> rfl

theorem operandKinds_instanceOf (op : Operator) (k : Kind) :
  op.operandKinds (op.instanceOf (op.operandKinds k)) = op.operandKinds k
  := by
  cases op <;> rfl

/-- An application is accepted exactly when its operands have the kinds that the operator expects
at some instance, and its kind is then the operator's at that instance. -/
theorem resultKind_eq_ok_iff {op : Operator} {found : List Kind} {r : Kind} :
  op.resultKind found = .ok r ↔ ∃ k, found = op.operandKinds k ∧ r = op.kindAt k
  := by
  constructor
  · intro h
    refine ⟨op.instanceOf found, ?_⟩
    unfold resultKind at h
    by_cases arity : found.length = (op.operandKinds (op.instanceOf found)).length
    · simp only [arity, if_true] at h
      cases checked : op.checkKinds (op.operandKinds (op.instanceOf found)) found with
      | error e => simp [checked, bind, Except.bind] at h
      | ok u =>
        simp only [checked, bind, Except.bind, pure, Except.pure, Except.ok.injEq] at h
        exact ⟨(checkKinds_eq_ok_iff arity).mp checked, h.symm⟩
    · simp [arity, throw, throwThe, MonadExceptOf.throw] at h
  · rintro ⟨k, rfl, rfl⟩
    have fits : op.checkKinds (op.operandKinds k) (op.operandKinds k) = .ok () :=
      (checkKinds_eq_ok_iff rfl).mpr rfl
    simp [resultKind, operandKinds_instanceOf, kindAt_instanceOf, fits, bind, Except.bind, pure,
      Except.pure]

end StringTerms.Operator
