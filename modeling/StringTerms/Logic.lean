import StringTerms.Folding

/-!
# Boolean operations

Equality, the connectives and the conditional.  Equal nodes are equal without a new node, a
connective that one known operand decides does not look at the other, and a known condition
selects its branch, all of this also where folding is off.
-/

namespace StringTerms.Logic

variable {k : Kind}

/-- Whether two values are one node. -/
def sameNode : (a b : Value k) → Bool
  | .node g, .node h => g = h
  | _, _ => false

/-- Whether two values are equal. -/
def equal (a b : Value k) : Builder (Value .bool) :=
  if sameNode a b then
    return .known true
  else
    compute .eq (.two a b) fun (.two x y) => some (decide (x = y))

/-- The negation of a Boolean. -/
def negate (a : Value .bool) : Builder (Value .bool) :=
  compute .not (.one a) fun (.one x) => some (!x)

/-- Whether two values differ. -/
def distinct (a b : Value k) : Builder (Value .bool) := do
  negate (← equal a b)

/-- The conjunction of two Booleans. -/
def conjoin (a b : Value .bool) : Builder (Value .bool) := do
  let ss ← get
  match a.known? ss, b.known? ss with
  | some false, _ => return .known false
  | _, some false => return .known false
  | some true, _ => return b
  | _, some true => return a
  | none, none => compute .and (.two a b) fun (.two x y) => some (x && y)

/-- The disjunction of two Booleans. -/
def disjoin (a b : Value .bool) : Builder (Value .bool) := do
  let ss ← get
  match a.known? ss, b.known? ss with
  | some true, _ => return .known true
  | _, some true => return .known true
  | some false, _ => return b
  | _, some false => return a
  | none, none => compute .or (.two a b) fun (.two x y) => some (x || y)

/-- The first branch where the condition holds, and else the second. -/
def choose (c : Value .bool) (t e : Value k) : Builder (Value k) := do
  match c.known? (← get) with
  | some true => return t
  | some false => return e
  | none => if t = e then return t else defer k .ite (.three c t e)

end StringTerms.Logic
