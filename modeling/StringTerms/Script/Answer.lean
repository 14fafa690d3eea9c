import StringTerms.Evaluation.Term
import StringTerms.Script.Command

/-!
# Answers

What a script answers to its commands: the result of each command, or the error that refused it,
together with the sizes and the statistics of the session after the command.
-/

namespace StringTerms.Script

/-- What is known of a node. -/
structure Description where
  node : Option Node
  kind : Option Kind
  /-- The value of a literal node, read off the node. -/
  literal : Option Literal
  /-- The value of a literal node, as the session answers. -/
  literalOfHandle : Option Literal
  number : Option Nat
  record : Option Variable
  operator : Option Operator
  /-- The text of the handle. -/
  text : String
deriving DecidableEq, Repr, Inhabited

/-- Describes the node of a handle. -/
def describe (ss : Session) (h : Handle) : Description where
  node := ss.node? h
  kind := ss.kind? h
  literal := (ss.node? h).bind Node.literal?
  literalOfHandle := ss.literal? h
  number := (ss.node? h).bind Node.var?
  record := ((ss.node? h).bind Node.var?).bind ss.variableRecord?
  operator := (ss.node? h).bind Node.operator?
  text := h.text

/-- The answer to a query. -/
inductive Reply where
  | literal (v : Option Literal)
  | verdict (b : Option Bool)
  | error (e : Error)
deriving DecidableEq, Repr, Inhabited

/-- The result of a command. -/
inductive Answer where
  | nothing
  /-- A literal or a node; this is the result that can be given a name. -/
  | item (i : Item)
  | foundLiteral (v : Option Literal)
  | description (d : Description)
  | record (v : Option Variable)
  | records (vs : List Variable)
  | handles (hs : List Handle)
  | statistics (s : Statistics)
  | flag (b : Bool)
  | text (t : String)
  /-- The known value of a value, and its node. -/
  | view (known : Option Literal) (node : Option Handle)
  | count (n : Nat)
  /-- The value of a handle in the model, the size of the model, and whether it is empty. -/
  | modelValue (v : Option Literal) (size : Nat) (isEmpty : Bool)
  | verdict (b : Option Bool)
  | replies (rs : List Reply)
deriving Inhabited

/-- The answer to a command, with the sizes and the statistics of the session after it. -/
inductive Outcome where
  | plain (result : Except Error Answer) (sizes : Checkpoint) (statistics : Statistics)
  /-- The answer to a request for an emulated value, with the outcomes of the commands of its
  definition; there are none where the value was introduced before. -/
  | emulation (result : Except Error Answer) (sizes : Checkpoint) (statistics : Statistics)
      (definition : Option (List Outcome))

/-- The answer to the command itself. -/
def Outcome.result : Outcome → Except Error Answer
  | .plain r _ _ => r
  | .emulation r _ _ _ => r

end StringTerms.Script
