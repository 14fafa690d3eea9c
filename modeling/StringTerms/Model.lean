import StringTerms.Value

/-!
# Models

A model assigns literals to variables.  It is partial, and it may give a variable a literal of
another kind, which an evaluation then reports.
-/

namespace StringTerms

/-- An assignment of literals to handles. -/
structure Model where
  values : FiniteMap Handle Literal := ∅
deriving DecidableEq, Inhabited

namespace Model

/-- The model in which `h` has the value `v`. -/
def assign (M : Model) (h : Handle) (v : Literal) : Model := ⟨M.values.insert h v⟩

/-- The model in which a node has the given value; a known value is left alone. -/
def set {k : Kind} (M : Model) (x : Value k) (v : k.Carrier) : Model :=
  match x with
  | .known _ => M
  | .node h => M.assign h (.of k v)

/-- The value of a handle. -/
def value? (M : Model) (h : Handle) : Option Literal := M.values.get? h

/-- The number of assigned handles. -/
def size (M : Model) : Nat := M.values.size

/-- Whether no handle is assigned. -/
def isEmpty (M : Model) : Bool := M.values.isEmpty

theorem value?_assign (M : Model) (h g : Handle) (v : Literal) :
  (M.assign h v).value? g = if g = h then some v else M.value? g
  := FiniteMap.get?_insert M.values h g v

end Model

end StringTerms
