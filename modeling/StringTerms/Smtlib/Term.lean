import StringTerms.Session.Basic
import StringTerms.Smtlib.Literal

/-!
# Text of terms

The SMT-LIB 2 text of the term that a handle stands for, with shared nodes written out wherever they
occur.  A variable is written as its name.
-/

namespace StringTerms.Smtlib

/-- The text of a handle that names no node. -/
def unknown (h : Handle) : String := "<unknown " ++ h.text ++ ">"

/-- The text of a variable; one without a record is written by its number. -/
def variableText (ss : Session) (number : Nat) : String :=
  match ss.variableRecord? number with
  | some v => v.name
  | none => "<var " ++ toString number ++ ">"

/-- The text of a node, with the texts of its operands given by `operand`. -/
def node (ss : Session) (operand : Handle → String) : Node → String
  | .literal v => literal v
  | .var number _ => variableText ss number
  | .application op hs _ =>
    "(" ++ op.symbol ++ String.join (hs.map fun h => " " ++ operand h) ++ ")"

/-- The text of a term.  The operands of a node precede it in the arena. -/
def term (ss : Session) (h : Handle) : String :=
  match ss.node? h with
  | some n => node ss (fun g => if _before : g.index < h.index then term ss g else unknown g) n
  | none => unknown h
termination_by h.index

end StringTerms.Smtlib
