import StringTerms.Proofs.Growth
import StringTerms.Strings.Character

/-!
# Introducing emulated values

What introducing an emulated value does, by cases: a value that is remembered is given again, and a
new one is defined, constrained and remembered.  Looking up a character is an extraction, unless
the character is known.
-/

namespace StringTerms

variable {ss : Session} {k : Kind} {op : Operator} {hs : List Handle}

namespace Emulation

theorem growsTo_countReuse (ss : Session) :
  ss.GrowsTo (countReuse ss)
  := ⟨Session.Extends.of_contents rfl, rfl, fun h => h.congr rfl rfl⟩

/-- A remembered value is given again. -/
theorem introduce_of_known {h : Handle} {define : Value k → Builder (Value .bool)}
    (found : ss.emulated? op hs = some h) :
  introduce k op hs define ss = (.node h, countReuse ss)
  := by
  rw [introduce, Builder.get_bind, found]
  rfl

/-- A remembered value is given again, however it would be defined. -/
theorem attempt_of_known {h : Handle} (define : Value k → ExceptT Error Builder (Value .bool))
    (found : ss.emulated? op hs = some h) :
  (attempt k op hs define).run ss = (.ok (.node h), countReuse ss)
  := by
  rw [attempt, ExceptT.run_mk, found]
  rfl

/-- What a definition yields for the next variable, and the session after it. -/
def defined (define : Value k → Builder (Value .bool)) (ss : Session) : Value .bool × Session :=
  define (.node ss.next) (Session.freshInternal k ss).2

/-- A new value is a variable, which is defined, constrained and remembered. -/
theorem introduce_of_new (define : Value k → Builder (Value .bool))
    (new : ss.emulated? op hs = none) :
  introduce k op hs define ss
    = (.node ss.next, (conclude op hs ss.next (defined define ss).1 (defined define ss).2).2)
  := by
  rw [introduce, Builder.get_bind, new]
  rfl

/-- A new value whose definition may give up is settled when the definition has ended. -/
theorem attempt_of_new {define : Value k → ExceptT Error Builder (Value .bool)}
    (new : ss.emulated? op hs = none) {result : Except Error (Value .bool)} {tt : Session}
    (ends : (define (.node ss.next)).run (Session.freshInternal k ss).2 = (result, tt)) :
  (attempt k op hs define).run ss = settle ss.checkpoint op hs ss.next tt result
  := by
  have run : (attempt k op hs define).run ss = settle ss.checkpoint op hs ss.next
      ((define (.node ss.next)).run (Session.freshInternal k ss).2).2
      ((define (.node ss.next)).run (Session.freshInternal k ss).2).1 := by
    rw [attempt, ExceptT.run_mk, new]
    rfl
  rw [run, ends]

end Emulation

/-- Looking up a character gives it, where it is known, and extracts it otherwise. -/
theorem Strings.charAt_cases (s : Value .string) (i : Value .int) (ss : Session) :
  (∃ c, charAt s i ss = (.known c, ss)) ∨ charAt s i ss = extract s i ss
  := by
  rw [charAt, Builder.get_bind]
  cases (do ByteString.charAt? (← s.known? ss) (← i.known? ss) : Option UInt8) with
  | some c => exact Or.inl ⟨c, rfl⟩
  | none => exact Or.inr rfl

end StringTerms
