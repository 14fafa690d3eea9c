import StringTerms.Literal
import StringTerms.Operator

/-!
# Nodes

A node is a literal, a variable, or the application of an operator to earlier nodes.  Nodes are
kept in an arena and named by handles, which are positions in it; a variable is numbered in the
order of its allocation.
-/

namespace StringTerms

/-- The name of a node: its position in the arena.  Positions are not bounded here.  A machine that
keeps the indices of nodes and the numbers of variables in 32 bits gives the same handles as long as
the arena has fewer than 2 ^ 32 nodes, which are then fewer than 2 ^ 32 variables as well. -/
structure Handle where
  index : Nat
deriving DecidableEq, Repr, Inhabited

/-- The text of a handle. -/
def Handle.text (h : Handle) : String := "@" ++ toString h.index

/-- A term whose operands are given by their handles. -/
inductive Node where
  | literal (value : Literal)
  /-- The variable with the given number. -/
  | var (number : Nat) (kind : Kind)
  /-- The kind is recorded with the application, whatever the kinds of the operands are. -/
  | application (operator : Operator) (operands : List Handle) (kind : Kind)
deriving DecidableEq, Repr, Inhabited

namespace Node

/-- The kind of the values of a node. -/
def kind : Node → Kind
  | .literal v => v.kind
  | .var _ k => k
  | .application _ _ k => k

/-- The operands of an application; other nodes have none. -/
def operands : Node → List Handle
  | .application _ hs _ => hs
  | _ => []

/-- The value of a literal node. -/
def literal? : Node → Option Literal
  | .literal v => some v
  | _ => none

/-- The number of a variable. -/
def var? : Node → Option Nat
  | .var n _ => some n
  | _ => none

/-- The operator of an application. -/
def operator? : Node → Option Operator
  | .application op _ _ => some op
  | _ => none

end Node

end StringTerms
