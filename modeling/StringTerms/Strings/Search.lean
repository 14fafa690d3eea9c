import StringTerms.ByteString.Search
import StringTerms.Strings.Basic

/-!
# Search and replacement

The empty string occurs everywhere, so tests for it need no node, and a string longer than another
is not replaced in it.
-/

namespace StringTerms.Strings

/-- Whether `sub` occurs in `s`. -/
def contains (sub s : Value .string) : Builder (Value .bool) := do
  if knownEmpty (← get) sub then
    return .known true
  else
    compute .contains (.two s sub) fun (.two x y) => some (ByteString.contains y x)

/-- Whether `s` starts with `sub`. -/
def startsWith (sub s : Value .string) : Builder (Value .bool) := do
  if knownEmpty (← get) sub then
    return .known true
  else
    compute .startsWith (.two sub s) fun (.two x y) => some (ByteString.startsWith x y)

/-- Whether `s` ends with `sub`. -/
def endsWith (sub s : Value .string) : Builder (Value .bool) := do
  if knownEmpty (← get) sub then
    return .known true
  else
    compute .endsWith (.two sub s) fun (.two x y) => some (ByteString.endsWith x y)

/-- Whether a string is known to be shorter than another. -/
def knownShorter (ss : Session) (s t : Value .string) : Bool :=
  match s.known? ss, t.known? ss with
  | some cs, some ds => cs.length < ds.length
  | _, _ => false

/-- Replaces the first occurrence of `old`; the empty string is replaced at the start. -/
def replaceFirst (s old new : Value .string) : Builder (Value .string) := do
  let ss ← get
  if knownEmpty ss old then
    append new s
  else if knownShorter ss s old then
    return s
  else
    compute .replaceFirst (.three s old new)
      fun (.three x y z) => some (ByteString.replaceFirst x y z)

/-- Replaces every occurrence of `old`; the empty string is nowhere replaced. -/
def replaceAll (s old new : Value .string) : Builder (Value .string) := do
  if knownEmpty (← get) old then
    return s
  else
    compute .replaceAll (.three s old new)
      fun (.three x y z) => some (ByteString.replaceAll x y z)

/-- Whether `i` is known to be neither a position nor the end of `s`. -/
def knownOutside (ss : Session) (s : Value .string) (i : Value .int) : Bool :=
  match s.known? ss, i.known? ss with
  | some cs, some n => n < 0 || (cs.length : Int) < n
  | _, _ => false

/-- The least position from `start` on at which `sub` occurs in `s`, or -1. -/
def indexOfFrom (s sub : Value .string) (start : Value .int) : Builder (Value .int) := do
  if knownOutside (← get) s start then
    return .int (-1)
  else
    compute .indexOf (.three s sub start)
      fun (.three x y i) => some (ByteString.indexOfFrom x y i)

/-- The least position at which `sub` occurs in `s`, or -1. -/
def indexOf (s sub : Value .string) : Builder (Value .int) := do
  let operands : Operands Value [.string, .string] := .two s sub
  match ← fold? (operands.known? (← get)) fun (.two x y) => some (ByteString.indexOf x y) with
  | some v => return v
  | none => indexOfFrom s sub (.int 0)

end StringTerms.Strings
