import StringTerms.FixedPoint

/-!
# Statistics

A session counts what it does.  The counters only grow: nothing that a rollback discards is
subtracted again.
-/

namespace StringTerms

/-- What a session has done so far. -/
structure Statistics where
  /-- Nodes added to the arena. -/
  nodes : Nat := 0
  /-- Requests for a node that were answered by an earlier one. -/
  hits : Nat := 0
  /-- Operations computed on the host. -/
  folds : Nat := 0
  /-- Variables allocated. -/
  vars : Nat := 0
  /-- Assertions recorded. -/
  assertions : Nat := 0
  /-- Values introduced by an emulation. -/
  emulations : Nat := 0
  /-- Emulations answered by an earlier one. -/
  reused : Nat := 0
  /-- Rollbacks carried out. -/
  rollbacks : Nat := 0
deriving DecidableEq, Repr, Inhabited

namespace Statistics

/-- The share of the requests for a node that were answered by an earlier one. -/
def hitRate (s : Statistics) : Float :=
  if s.nodes + s.hits = 0 then 0 else s.hits.toFloat / (s.nodes + s.hits).toFloat

/-- The counters as text, one line each. -/
def text (s : Statistics) : String :=
  "nodes:       " ++ toString s.nodes ++ "\n"
    ++ "cache hits:  " ++ toString s.hits
    ++ " (" ++ FixedPoint.oneDecimal (s.hitRate * 100.0) ++ "%)\n"
    ++ "folds:       " ++ toString s.folds ++ "\n"
    ++ "variables:   " ++ toString s.vars ++ "\n"
    ++ "assertions:  " ++ toString s.assertions ++ "\n"
    ++ "emulations:  " ++ toString s.emulations ++ " (" ++ toString s.reused ++ " reused)\n"
    ++ "rollbacks:   " ++ toString s.rollbacks

end Statistics

end StringTerms
