import StringTerms.FiniteMap
import StringTerms.Node
import StringTerms.Statistics

/-!
# Sessions

A session holds the terms of one solving attempt: an arena of nodes, the table by which equal nodes
are shared, the variables, the assertions and the values introduced by emulation.  This module
defines the data and the look-ups; the modules beside it extend a session and roll it back.
-/

namespace StringTerms

/-- The settings of a session. -/
structure Configuration where
  /-- Whether an operation on known operands is computed on the host. -/
  fold : Bool := true
  /-- What the names of anonymous variables start with. -/
  freshPrefix : String := "s"
deriving DecidableEq, Repr, Inhabited

/-- The record of a variable. -/
structure Variable where
  name : String
  kind : Kind
  /-- The node of the variable. -/
  handle : Handle
  /-- Whether the variable was introduced by the library and not by the user. -/
  internal : Bool
deriving DecidableEq, Repr, Inhabited

/-- Who recorded an assertion. -/
inductive Origin where
  | user
  /-- The condition under which a value was introduced by emulation. -/
  | internal
deriving DecidableEq, Repr, Inhabited

/-- A term that has to be true. -/
structure Assertion where
  handle : Handle
  origin : Origin
deriving DecidableEq, Repr, Inhabited

/-- The terms, variables and assertions of a solving attempt. -/
structure Session where
  configuration : Configuration := {}
  /-- The arena: the node of a handle stands at the handle's index. -/
  nodes : Array Node := #[]
  /-- The handles of the literals and applications of the arena. -/
  table : FiniteMap Node Handle := ∅
  /-- The record of a variable stands at the variable's number. -/
  vars : Array Variable := #[]
  assertions : Array Assertion := #[]
  /-- The variable that stands for the value of an operator at given operands. -/
  emulations : FiniteMap (Operator × List Handle) Handle := ∅
  statistics : Statistics := {}
deriving DecidableEq, Inhabited

/-- A computation that extends a session. -/
abbrev Builder := StateM Session

/-- A computation that looks at the session continues with what it sees. -/
theorem Builder.get_bind {α : Type} (f : Session → Builder α) (ss : Session) :
  (get >>= f) ss = f ss ss
  := rfl

/-- A computation that follows another takes over its value and its session. -/
theorem Builder.bind_apply {α β : Type} (x : Builder α) (f : α → Builder β) (ss : Session) :
  (x >>= f) ss = f (x ss).1 (x ss).2
  := rfl

namespace Session

/-- The node of a handle. -/
def node? (ss : Session) (h : Handle) : Option Node := ss.nodes[h.index]?

/-- The kind of a node. -/
def kind? (ss : Session) (h : Handle) : Option Kind := (ss.node? h).map Node.kind

/-- The value of a literal node. -/
def literal? (ss : Session) (h : Handle) : Option Literal := (ss.node? h).bind Node.literal?

/-- The record of the variable with the given number. -/
def variableRecord? (ss : Session) (number : Nat) : Option Variable := ss.vars[number]?

/-- The variables that the user declared or asked for. -/
def userVariables (ss : Session) : List Variable :=
  ss.vars.toList.filter fun v => !v.internal

/-- The assertions of the user. -/
def userAssertions (ss : Session) : List Handle :=
  (ss.assertions.toList.filter fun a => a.origin = .user).map Assertion.handle

/-- The variable that stands for the value of `op` at the given operands. -/
def emulated? (ss : Session) (op : Operator) (operands : List Handle) : Option Handle :=
  ss.emulations.get? (op, operands)

end Session

end StringTerms
