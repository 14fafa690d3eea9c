import StringTerms.Session.Nodes

/-!
# Variables

Every request for a variable makes a new one, with a node of its own that the table does not know.
The names of declared variables are the user's affair; the name of an anonymous variable differs
from those of all present variables.
-/

namespace StringTerms.Session

/-- Adds a variable and its node. -/
def addVariable (name : String) (k : Kind) (internal : Bool) : Builder Handle := fun ss =>
  (ss.next,
    { ss with
      nodes := ss.nodes.push (.var ss.vars.size k)
      vars := ss.vars.push ⟨name, k, ss.next, internal⟩
      statistics.nodes := ss.statistics.nodes + 1
      statistics.vars := ss.statistics.vars + 1 })

/-- A node of an arena with one more variable is the variable or was there before. -/
theorem node?_addVariable (name : String) (k : Kind) (internal : Bool) (ss : Session) (h : Handle) :
  (addVariable name k internal ss).2.node? h
    = if h = ss.next then some (.var ss.vars.size k) else ss.node? h
  := by
  obtain ⟨i⟩ := h
  simp [addVariable, node?, next, Array.getElem?_push]

/-- A new variable of the user with a given name. -/
def declare (name : String) (k : Kind) : Builder Handle := addVariable name k false

/-- Whether a variable has the given name. -/
def nameTaken (ss : Session) (name : String) : Bool :=
  ss.vars.any fun v => v.name = name

/-- The name that carries the number `n` behind the prefix of the session and a separator. -/
def numberedName (ss : Session) (separator : String) (n : Nat) : String :=
  ss.configuration.freshPrefix ++ separator ++ toString n

/-- The first unused name among those numbered from the number of variables on.  One more of them
is tried than there are variables, and they differ, so one is unused. -/
def unusedName (ss : Session) (separator : String) : String :=
  let count := ss.vars.size
  match (List.range' count (count + 1)).find? fun n =>
      !ss.nameTaken (ss.numberedName separator n) with
  | some n => ss.numberedName separator n
  | none => ""

/-- A new anonymous variable of the user. -/
def fresh (k : Kind) : Builder Handle := fun ss =>
  addVariable (ss.unusedName "") k false ss

/-- A new variable of the library, hidden from the user. -/
def freshInternal (k : Kind) : Builder Handle := fun ss =>
  addVariable (ss.unusedName "!") k true ss

end StringTerms.Session
