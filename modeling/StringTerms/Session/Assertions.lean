import StringTerms.Session.Nodes

/-!
# Assertions

A term of kind Bool can be asserted, by the user or by the library.
-/

namespace StringTerms.Session

/-- The session with one more assertion. -/
def addAssertion (ss : Session) (h : Handle) (origin : Origin) : Session :=
  { ss with
    assertions := ss.assertions.push ⟨h, origin⟩
    statistics.assertions := ss.statistics.assertions + 1 }

/-- Asserts a node of kind Bool. -/
def record (origin : Origin) (h : Handle) : Request Unit := do
  match (← get).kind? h with
  | some .bool => modify (·.addAssertion h origin)
  | some k => throw (.nonBooleanAssertion k)
  | none => throw (.unknownHandle h)

/-- Asserts a term for the user. -/
def assert (h : Handle) : Request Unit := record .user h

/-- Asserts a term for the library. -/
def assertInternal (h : Handle) : Request Unit := record .internal h

end StringTerms.Session
