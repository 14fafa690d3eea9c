/-!
# Kinds

The terms of this library have four kinds: Booleans, unbounded integers, characters of eight bits
and finite strings of such characters.  `Kind.Carrier` is the type of the host values of a kind,
and `Kind.sort` is the sort that stands for the kind in SMT-LIB 2 text.
-/

namespace StringTerms

/-- A string is the list of its characters, each a byte. -/
abbrev ByteString : Type := List UInt8

/-- The kind of a value or of a term. -/
inductive Kind where
  | bool
  | int
  | char
  | string
deriving DecidableEq, Repr, Inhabited

namespace Kind

/-- The type of the host values of a kind. -/
@[reducible] def Carrier : Kind → Type
  | .bool => Bool
  | .int => Int
  | .char => UInt8
  | .string => ByteString

instance : (k : Kind) → DecidableEq k.Carrier
  | .bool => inferInstanceAs (DecidableEq Bool)
  | .int => inferInstanceAs (DecidableEq Int)
  | .char => inferInstanceAs (DecidableEq UInt8)
  | .string => inferInstanceAs (DecidableEq (List UInt8))

/-- The SMT-LIB 2 sort of a kind; a character is a bit vector. -/
def sort : Kind → String
  | .bool => "Bool"
  | .int => "Int"
  | .char => "(_ BitVec 8)"
  | .string => "String"

theorem sort_injective {j k : Kind} (h : j.sort = k.sort) :
  j = k
  := by
  cases j <;> cases k <;> revert h <;> decide

end Kind

end StringTerms
