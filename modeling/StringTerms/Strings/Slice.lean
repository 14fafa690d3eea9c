import StringTerms.ByteString.Slice
import StringTerms.Strings.Basic

/-!
# Slices

A slice that reaches out of a known string is not computed on the host but left to the solver as a
node.  Taking and dropping are defined for all counts: the nodes that stand for them guard the
slice by conditionals on the count.
-/

namespace StringTerms.Strings

/-- The slice of length `l` at offset `o`; unspecified where it reaches out of the string. -/
def slice (s : Value .string) (o l : Value .int) : Builder (Value .string) :=
  compute .slice (.three s o l) fun (.three cs x y) => ByteString.slice? cs x y

/-- The slice of length one at position `i`; unspecified where `i` is not a position. -/
def sliceAt (s : Value .string) (i : Value .int) : Builder (Value .string) :=
  slice s i (.int 1)

/-- All but the first character; unspecified for the empty string. -/
def rest (s : Value .string) : Builder (Value .string) := do
  match s.known? (← get) with
  | some (_ :: cs) => return .known cs
  | _ =>
    let n ← length s
    let count ← Arithmetic.subtract n (.int 1)
    slice s (.int 1) count

/-- The first `i` characters of `s`, or `s` itself where `i` is past the end, for an `i` that is not
negative. -/
def front (i : Value .int) (s : Value .string) (pastEnd : Value .bool) :
    Builder (Value .string) :=
  if pastEnd = .known true then
    return s
  else do
    let part ← slice s (.int 0) i
    Logic.choose pastEnd s part

/-- The first `i` characters, as in `ByteString.take`. -/
def take (i : Value .int) (s : Value .string) : Builder (Value .string) := do
  let operands : Operands Value [.int, .string] := .two i s
  match ← fold? (operands.known? (← get)) fun (.two n cs) => some (ByteString.take n cs) with
  | some v => return v
  | none =>
    let nonPositive ← Arithmetic.atMost i (.int 0)
    if nonPositive = .known true then
      return empty
    else
      let n ← length s
      let pastEnd ← Arithmetic.atLeast i n
      let part ← front i s pastEnd
      Logic.choose nonPositive empty part

/-- All but the first `i` of the `n` characters of `s`, or `s` itself where `i` is not positive, for
an `i` that is not past the end. -/
def back (i : Value .int) (s : Value .string) (n : Value .int) (nonPositive : Value .bool) :
    Builder (Value .string) :=
  if nonPositive = .known true then
    return s
  else do
    let count ← Arithmetic.subtract n i
    let part ← slice s i count
    Logic.choose nonPositive s part

/-- All but the first `i` characters, as in `ByteString.drop`. -/
def drop (i : Value .int) (s : Value .string) : Builder (Value .string) := do
  let operands : Operands Value [.int, .string] := .two i s
  match ← fold? (operands.known? (← get)) fun (.two n cs) => some (ByteString.drop n cs) with
  | some v => return v
  | none =>
    let n ← length s
    let pastEnd ← Arithmetic.atLeast i n
    if pastEnd = .known true then
      return empty
    else
      let nonPositive ← Arithmetic.atMost i (.int 0)
      let part ← back i s n nonPositive
      Logic.choose pastEnd empty part

end StringTerms.Strings
