import StringTerms.Evaluation.Operator
import StringTerms.Proofs.WellKinded

/-!
# Readings

A reading gives literals to handles.  It interprets a session when a literal node reads as its
literal, and an application all of whose operands are read as the value of its operator at them.
Variables are free.  The values of slices are a parameter, so that a slice that reaches out of its
string can have any value.

A reading of an extension is one of the session it extends, so what a value reads as does not
depend on when it was built.
-/

namespace StringTerms

/-- A value for every slice of a string, at an offset and of a length. -/
abbrev Slicing := ByteString → Int → Int → ByteString

/-- The value of an operator at literal operands, with slices as given. -/
def Operator.valueWith (cut : Slicing) (op : Operator) (args : List Literal) :
    Except Error Literal :=
  match op with
  | .slice => do
    return .string (cut (← op.operand args .string 0) (← op.operand args .int 1)
      (← op.operand args .int 2))
  | op => op.valueAt args

/-- With the slices of SMT-LIB 2, the value of an operator is the one of SMT-LIB 2. -/
theorem Operator.valueWith_slice (op : Operator) (args : List Literal) :
  op.valueWith ByteString.slice args = op.valueAt args
  := by
  cases op <;> rfl

/-- A slice that lies in its string is made of the characters it selects, as long as its length is
below the index bound. -/
def Slicing.Exact (cut : Slicing) : Prop :=
  ∀ {s : ByteString} {o l : Int} {r : ByteString}, ByteString.slice? s o l = some r →
    l < ByteString.indexBound → cut s o l = r

theorem Slicing.exact_slice :
  Slicing.Exact ByteString.slice
  := ByteString.slice_eq_of_slice?

/-- Literals for handles. -/
abbrev Reading := Handle → Option Literal

/-- The handles read as the literals. -/
def Reading.ReadsAll (R : Reading) (hs : List Handle) (ls : List Literal) : Prop :=
  List.Forall₂ (fun h l => R h = some l) hs ls

/-- The reading gives literals and applications their values. -/
structure Reading.Interprets (R : Reading) (cut : Slicing) (ss : Session) : Prop where
  literal : ∀ {h l}, ss.node? h = some (.literal l) → R h = some l
  application : ∀ {h op hs k ls l}, ss.node? h = some (.application op hs k) →
    R.ReadsAll hs ls → op.valueWith cut ls = .ok l → R h = some l

variable {R : Reading} {cut : Slicing} {ss tt : Session} {k : Kind} {ks : List Kind}

/-- A reading of an extension is a reading of the session. -/
theorem Reading.Interprets.of_extends (hR : R.Interprets cut tt) (h : ss.Extends tt) :
  R.Interprets cut ss
  where
    literal hn := hR.literal (h.node? hn)
    application hn := hR.application (h.node? hn)

/-- The value has the given host value in the reading. -/
def Value.ReadsAs (R : Reading) : Value k → k.Carrier → Prop
  | .known u, v => u = v
  | .node h, v => R h = some (.of k v)

/-- The operands have the given host values in the reading. -/
def Operands.ReadAs (R : Reading) :
    {ks : List Kind} → Operands Value ks → Operands Kind.Carrier ks → Prop
  | _, .nil, .nil => True
  | _, .cons x xs, .cons v vs => x.ReadsAs R v ∧ xs.ReadAs R vs

/-- Host values as a list of literals. -/
def Operands.literals : {ks : List Kind} → Operands Kind.Carrier ks → List Literal
  | _, .nil => []
  | k :: _, .cons v vs => .of k v :: vs.literals

/-- A literal is of one host value only. -/
theorem Literal.of_injective {u v : k.Carrier} (h : Literal.of k u = Literal.of k v) :
  u = v
  := by
  apply Option.some.inj
  rw [← as?_of k u, h, as?_of]

/-- A value reads as one host value only. -/
theorem Value.ReadsAs.unique {x : Value k} {u v : k.Carrier} (hu : x.ReadsAs R u)
    (hv : x.ReadsAs R v) :
  u = v
  := by
  cases x with
  | known w => apply Eq.trans (Eq.symm hu) hv
  | node h =>
      apply Literal.of_injective
      apply Option.some.inj (Eq.trans (Eq.symm hu) hv)

/-- What is known of a value is what it reads as. -/
theorem Value.readsAs_of_known? {x : Value k} {v : k.Carrier} (hR : R.Interprets cut ss)
    (h : x.known? ss = some v) :
  x.ReadsAs R v
  := by
  cases x with
  | known w => apply Option.some.inj h
  | node g =>
      obtain ⟨l, hl, hv⟩ := Option.bind_eq_some_iff.mp h
      obtain ⟨n, hn, hl⟩ := Option.bind_eq_some_iff.mp hl
      cases n with
      | literal w =>
          cases hl
          rw [Literal.as?_eq_some_iff.mp hv] at hn
          apply hR.literal hn
      | var => cases hl
      | application => cases hl

/-- A known value reads as nothing else. -/
theorem Value.ReadsAs.eq_known {x : Value k} {u v : k.Carrier} (hu : x.ReadsAs R u)
    (hR : R.Interprets cut ss) (h : x.known? ss = some v) :
  u = v
  := hu.unique (x.readsAs_of_known? hR h)

/-- What is known of operands is what they read as. -/
theorem Operands.ReadAs.eq_known {xs : Operands Value ks} {us vs : Operands Kind.Carrier ks}
    (hu : xs.ReadAs R us) (hR : R.Interprets cut ss) (h : xs.known? ss = some vs) :
  us = vs
  := by
  induction xs with
  | nil =>
      cases us
      cases vs
      rfl
  | cons x xs ih =>
      obtain ⟨v, hv, h⟩ := Option.bind_eq_some_iff.mp h
      obtain ⟨ws, hw, h⟩ := Option.bind_eq_some_iff.mp h
      cases h
      cases us with
      | cons u us => rw [hu.1.eq_known hR hv, ih hu.2 hw]

end StringTerms
