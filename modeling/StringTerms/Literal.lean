import StringTerms.Kind

/-!
# Literals

A literal is a host value together with its kind.  `Literal.of` wraps a value of a given kind, and
`Literal.as?` reads the value back when the literal has the kind that is asked for.
-/

namespace StringTerms

/-- A value of one of the four kinds. -/
inductive Literal where
  | bool (b : Bool)
  | int (n : Int)
  | char (c : UInt8)
  | string (s : ByteString)
deriving DecidableEq, Repr, Inhabited

namespace Literal

/-- The kind of a literal. -/
def kind : Literal → Kind
  | .bool _ => .bool
  | .int _ => .int
  | .char _ => .char
  | .string _ => .string

/-- A host value as a literal. -/
def of : (k : Kind) → k.Carrier → Literal
  | .bool, b => .bool b
  | .int, n => .int n
  | .char, c => .char c
  | .string, s => .string s

/-- The host value of a literal of kind `k`. -/
def as? : (k : Kind) → Literal → Option k.Carrier
  | .bool, .bool b => some b
  | .int, .int n => some n
  | .char, .char c => some c
  | .string, .string s => some s
  | _, _ => none

@[simp]
theorem kind_of (k : Kind) (v : k.Carrier) :
  (of k v).kind = k
  := by
  cases k <;> rfl

@[simp]
theorem as?_of (k : Kind) (v : k.Carrier) :
  (of k v).as? k = some v
  := by
  cases k <;> rfl

/-- A literal reads as a value exactly when it is that value. -/
theorem as?_eq_some_iff {k : Kind} {l : Literal} {v : k.Carrier} :
  l.as? k = some v ↔ l = of k v
  := by
  constructor
  · intro h
    cases k <;> cases l <;> simp_all [as?, of]
  · rintro rfl
    exact as?_of k v

/-- A literal has a value of a kind exactly when the kind is its own. -/
theorem as?_isSome_iff {k : Kind} {l : Literal} :
  (l.as? k).isSome ↔ l.kind = k
  := by
  cases k <;> cases l <;> simp [as?, kind]

end Literal

end StringTerms
