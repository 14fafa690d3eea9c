import StringTerms.Arithmetic
import StringTerms.Logic

/-!
# Strings

Length, emptiness, concatenation and singleton strings, on values.  A string that is known to be
empty is the unit of concatenation without a node.
-/

namespace StringTerms.Strings

/-- The empty string. -/
def empty : Value .string := .known []

/-- Whether a string is known to be empty. -/
def knownEmpty (ss : Session) (s : Value .string) : Bool :=
  match s.known? ss with
  | some cs => cs.isEmpty
  | none => false

/-- The number of characters of a string. -/
def length (s : Value .string) : Builder (Value .int) :=
  compute .length (.one s) fun (.one cs) => some cs.length

/-- Whether a string is empty. -/
def isEmpty (s : Value .string) : Builder (Value .bool) := do
  match s.known? (← get) with
  | some cs => return .known cs.isEmpty
  | none => Logic.equal s empty

/-- The string of one character. -/
def singleton (c : Value .char) : Builder (Value .string) :=
  compute .unit (.one c) fun (.one x) => some [x]

/-- The concatenation of two strings. -/
def append (s t : Value .string) : Builder (Value .string) := do
  let ss ← get
  if knownEmpty ss s then
    return t
  else if knownEmpty ss t then
    return s
  else
    compute .append (.two s t) fun (.two x y) => some (x ++ y)

/-- The concatenation of strings, from left to right. -/
def join (parts : List (Value .string)) : Builder (Value .string) :=
  parts.foldlM append empty

/-- The string of the given characters, built from the last one on. -/
def ofChars (cs : List (Value .char)) : Builder (Value .string) := do
  let ss ← get
  match ← fold? (cs.mapM (Value.known? ss)) (fun xs => some xs) with
  | some s => return s
  | none => cs.foldrM (fun c rest => do append (← singleton c) rest) empty

end StringTerms.Strings
