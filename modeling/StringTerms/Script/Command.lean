import StringTerms.Operation
import StringTerms.Session.Checkpoint

/-!
# Commands

A script works on a session by commands.  A command is an action, or the introduction of an emulated
value whose definition is a script of its own.  It can give its result a name, under which later
commands use it as an operand; checkpoints are stored under names of their own.
-/

namespace StringTerms.Script

/-- A literal or a node, of any kind. -/
inductive Item where
  | literal (v : Literal)
  | handle (h : Handle)
deriving DecidableEq, Repr, Inhabited

/-- A value without its kind. -/
def Item.ofValue {k : Kind} : Value k → Item
  | .known v => .literal (.of k v)
  | .node h => .handle h

/-- The value of kind `k` that an item stands for; a handle stands for one of any kind. -/
def Item.value? (k : Kind) : Item → Option (Value k)
  | .literal v => (v.as? k).map .known
  | .handle h => some (.node h)

/-- An operand of a command. -/
inductive Operand where
  /-- The item that was last given the name. -/
  | named (name : String)
  | item (i : Item)
deriving DecidableEq, Repr, Inhabited

/-- A question to an evaluator. -/
inductive Query where
  /-- The value of a node. -/
  | term (x : Operand)
  /-- The host value of a value of kind `k`. -/
  | value (k : Kind) (x : Operand)
  /-- Whether the assertions are true. -/
  | assertions
deriving DecidableEq, Repr, Inhabited

/-- A request to the session of a script, or a question about it. -/
inductive Action where
  | literal (v : Literal)
  | declare (name : String) (k : Kind)
  | fresh (k : Kind)
  | freshInternal (k : Kind)
  | apply (op : Operator) (operands : List Operand)
  | intern (op : Operator) (operands : List Operand) (k : Kind)
  | assert (x : Operand)
  | assertInternal (x : Operand)
  /-- Stores the present sizes under a name. -/
  | checkpoint (name : String)
  /-- Rolls back to the sizes stored under a name. -/
  | rollback (name : String)
  | emulated (op : Operator) (operands : List Operand)
  /-- Asks for all that is known of a node. -/
  | describe (x : Operand)
  | variableRecord (number : Nat)
  | userVariables
  | userAssertions
  | statistics
  | isEmpty
  /-- Asks for the text of a term. -/
  | text (x : Operand)
  /-- Passes the operand on. -/
  | item (x : Operand)
  /-- Makes the operand a node. -/
  | handle (x : Operand)
  /-- Asks whether a value of kind `k` is known, and whether it is a node. -/
  | view (k : Kind) (x : Operand)
  /-- Performs an operation. -/
  | operate {ks : List Kind} {r : Kind} (o : Operation ks r) (operands : List Operand)
  /-- Makes the node of an operator at the instance `k`. -/
  | defer (op : Operator) (k : Kind) (operands : List Operand)
  | resetModel
  /-- Gives a node a value in the model. -/
  | assign (x : Operand) (v : Literal)
  /-- Gives a value that is a node a value in the model. -/
  | set {k : Kind} (x : Operand) (v : k.Carrier)
  | modelValue (x : Operand)
  | evaluate (x : Operand)
  | satisfied
  /-- Puts several queries to one evaluator. -/
  | evaluator (queries : List Query)

/-- A step of a script, which may give its result a name. -/
inductive Command where
  | act (name : Option String) (action : Action)
  /-- Introduces a value of kind `k` by emulation.  Its definition gives the new variable a name,
  performs the commands, and then either gives up for a reason or yields a condition. -/
  | emulate (name : Option String) (k : Kind) (op : Operator) (operands : List Operand)
      (variableName : Option String) (commands : List Command)
      (condition : Except String Operand)

end StringTerms.Script
