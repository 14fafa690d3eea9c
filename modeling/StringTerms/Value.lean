import StringTerms.Session.Variables

/-!
# Values

A value of a kind is either known on the host or a node of the session.  A literal node counts as
known too, and a known value becomes a literal node where an operand has to be a node.  `Operands`
are lists of values, or of host values, whose kinds are given by a list.
-/

namespace StringTerms

/-- A host value of kind `k`, or a node that stands for one. -/
inductive Value (k : Kind) where
  | known (v : k.Carrier)
  | node (h : Handle)
deriving DecidableEq

namespace Value

variable {k : Kind}

/-- The host value, if it is known or the node is a literal of the kind. -/
def known? (ss : Session) : Value k → Option k.Carrier
  | .known v => some v
  | .node h => (ss.literal? h).bind (Literal.as? k)

/-- The node, if the value is one. -/
def node? : Value k → Option Handle
  | .known _ => none
  | .node h => some h

/-- The node of the value; a known value becomes a literal. -/
def handle : Value k → Builder Handle
  | .known v => Session.literal (.of k v)
  | .node h => pure h

/-- A new variable of the user as a value. -/
def declare (k : Kind) (name : String) : Builder (Value k) :=
  Value.node <$> Session.declare name k

/-- A new anonymous variable of the user as a value. -/
def fresh (k : Kind) : Builder (Value k) :=
  Value.node <$> Session.fresh k

/-- An integer as a value. -/
abbrev int (n : Int) : Value .int := .known n

end Value

/-- A list with one entry of each kind of a list of kinds. -/
inductive Operands (F : Kind → Type) : List Kind → Type where
  | nil : Operands F []
  | cons {k : Kind} {ks : List Kind} (head : F k) (tail : Operands F ks) : Operands F (k :: ks)

namespace Operands

/-- A single operand. -/
@[match_pattern] abbrev one {F : Kind → Type} {k : Kind} (a : F k) : Operands F [k] :=
  .cons a .nil

/-- Two operands. -/
@[match_pattern] abbrev two {F : Kind → Type} {j k : Kind} (a : F j) (b : F k) :
    Operands F [j, k] :=
  .cons a (.cons b .nil)

/-- Three operands. -/
@[match_pattern] abbrev three {F : Kind → Type} {i j k : Kind} (a : F i) (b : F j) (c : F k) :
    Operands F [i, j, k] :=
  .cons a (.cons b (.cons c .nil))

/-- Operands of one kind as a list. -/
def toList {F : Kind → Type} {k : Kind} :
    {n : Nat} → Operands F (List.replicate n k) → List (F k)
  | 0, .nil => []
  | _ + 1, .cons a as => a :: toList as

/-- The host values, if all operands are known. -/
def known? (ss : Session) : {ks : List Kind} → Operands Value ks →
    Option (Operands Kind.Carrier ks)
  | _, .nil => some .nil
  | _, .cons a as => do return .cons (← a.known? ss) (← as.known? ss)

/-- The nodes of the operands, from left to right. -/
def handles : {ks : List Kind} → Operands Value ks → Builder (List Handle)
  | _, .nil => return []
  | _, .cons a as => do return (← a.handle) :: (← as.handles)

end Operands

end StringTerms
