import StringTerms.Smtlib.Literal

/-!
# Expressions

The text of a term is that of an expression: a word, a quoted string, or a form, which is a head with
operands in parentheses.  Words are free of spaces, parentheses and quotes, and a quoted string is
followed by no quote.  So an expression and the place where it ends can be read off any longer text
in which a space, a closing parenthesis or nothing follows it.
-/

namespace StringTerms.Smtlib

/-- A word, a quoted string, or a head with operands. -/
inductive Expression where
  | word (w : List Char)
  | quoted (s : ByteString)
  | form (head : List Char) (operands : List Expression)

namespace Expression

mutual

/-- The text of an expression. -/
def print : Expression → List Char
  | .word w => w
  | .quoted s => '"' :: (s.flatMap escapeChar ++ ['"'])
  | .form head es => '(' :: (head ++ printAll es ++ [')'])

/-- The text of operands, each of them behind a space. -/
def printAll : List Expression → List Char
  | [] => []
  | e :: es => ' ' :: (print e ++ printAll es)

end

end Expression

variable {d : Char} {a b : UInt8} {s t : ByteString} {w v x y : List Char}

/-! ### Words -/

/-- The characters that are not part of a word. -/
def delimits (c : Char) : Bool := c = ' ' || c = '(' || c = ')' || c = '"'

/-- A word is not empty and has no delimiters. -/
def IsWord (w : List Char) : Prop := w ≠ [] ∧ ∀ c ∈ w, delimits c = false

instance (w : List Char) : Decidable (IsWord w) :=
  decidable_of_iff (w.isEmpty = false ∧ w.all (fun c => !delimits c) = true) (by simp [IsWord])

/-- A text that can follow a word: it is empty, or starts with a space or a closing parenthesis. -/
def Follows (x : List Char) : Prop := ∀ c ∈ x.head?, c = ' ' ∨ c = ')'

theorem follows_nil :
  Follows []
  := fun c mem => by cases mem

theorem follows_close (x : List Char) :
  Follows (')' :: x)
  := by simp [Follows]

theorem follows_space (x : List Char) :
  Follows (' ' :: x)
  := by simp [Follows]

/-- A text that can follow a word does not start with a quote. -/
theorem Follows.head?_ne (hx : Follows x) :
  x.head? ≠ some '"'
  := by
  intro quote
  obtain same | same := hx '"' quote <;> cases same

/-- A word ends where the text that follows it begins. -/
theorem IsWord.takeWhile (hw : IsWord w) (hx : Follows x) :
  (w ++ x).takeWhile (fun c => !delimits c) = w
  := by
  have rest : x.takeWhile (fun c => !delimits c) = [] := by
    cases x with
    | nil => rfl
    | cons c x =>
        obtain rfl | rfl := hx c rfl <;> rfl
  rw [List.takeWhile_append_of_pos, rest, List.append_nil]
  intro c mem
  rw [hw.2 c mem]
  rfl

/-- Words can be cancelled in front of texts that follow them. -/
theorem IsWord.append_injective (hw : IsWord w) (hv : IsWord v) (hx : Follows x) (hy : Follows y)
    (same : w ++ x = v ++ y) :
  w = v ∧ x = y
  := by
  have words : w = v := by rw [← hw.takeWhile hx, same, hv.takeWhile hy]
  rw [words] at same
  exact ⟨words, List.append_cancel_left same⟩

/-- The first character of a word is no delimiter. -/
theorem IsWord.head_ne (hw : IsWord w) (hd : delimits d = true) :
  w ++ x ≠ d :: y
  := by
  intro same
  cases w with
  | nil => exact hw.1 rfl
  | cons c w =>
      cases same
      have plain := hw.2 d List.mem_cons_self
      rw [hd] at plain
      cases plain

/-! ### Quoted strings -/

/-- The value of hexadecimal digits. -/
def hexValue (ds : List Char) : Nat :=
  ds.foldl (fun n d => 16 * n + if d.isDigit then d.toNat - 48 else d.toNat - 87) 0

/-- The hexadecimal digits of a byte have its value. -/
theorem hexValue_toDigits :
  ∀ n < 256, hexValue (Nat.toDigits 16 n) = n ∧ '\x7d' ∉ Nat.toDigits 16 n
  := by decide +kernel

theorem hexValue_toDigits_toNat (a : UInt8) :
  hexValue (Nat.toDigits 16 a.toNat) = a.toNat ∧ '\x7d' ∉ Nat.toDigits 16 a.toNat
  := hexValue_toDigits a.toNat a.toNat_lt

/-- The digits of a code are as many as there are characters before the brace. -/
theorem takeWhile_toDigits (a : UInt8) (x : List Char) :
  (Nat.toDigits 16 a.toNat ++ '\x7d' :: x).takeWhile (· ≠ '\x7d') = Nat.toDigits 16 a.toNat
  := by
  rw [List.takeWhile_append_of_pos]
  · simp
  · intro d mem
    simpa using ne_of_mem_of_not_mem mem (hexValue_toDigits_toNat a).2

/-- The character with the code of a byte has this code. -/
theorem toNat_ofNat_of_lt :
  ∀ n < 256, (Char.ofNat n).toNat = n
  := by decide +kernel

/-- The text of a character is a doubled quote, a character other than a quote and a backslash, or
the digits of its code. -/
theorem escapeChar_cases (a : UInt8) :
  a = 34 ∧ escapeChar a = ['"', '"']
  ∨ (∃ c : Char, c ≠ '"' ∧ c ≠ '\\' ∧ a.toNat = c.toNat ∧ escapeChar a = [c])
  ∨ escapeChar a = '\\' :: 'u' :: '\x7b' :: (Nat.toDigits 16 a.toNat ++ ['\x7d'])
  := by
  unfold escapeChar
  split
  case isTrue quote => exact Or.inl ⟨quote, rfl⟩
  case isFalse noQuote =>
    split
    case isTrue shown =>
      have code := toNat_ofNat_of_lt a.toNat a.toNat_lt
      have noBackslash : a ≠ 92 := by simpa using (Bool.and_eq_true_iff.mp shown).2
      right
      left
      refine ⟨Char.ofNat a.toNat, ?_, ?_, code.symm, rfl⟩
      · intro same
        rw [same] at code
        exact noQuote (UInt8.toNat_inj.mp code.symm)
      · intro same
        rw [same] at code
        exact noBackslash (UInt8.toNat_inj.mp code.symm)
    case isFalse => exact Or.inr (Or.inr rfl)

/-- The text of a character that starts with a quote is that of a quote. -/
theorem head?_of_escapeChar_append (same : escapeChar a ++ x = '"' :: y) :
  y.head? = some '"'
  := by
  obtain ⟨-, text⟩ | ⟨c, noQuote, -, -, text⟩ | text := escapeChar_cases a
  · rw [text] at same
    cases same
    rfl
  · rw [text] at same
    cases same
    exact absurd rfl noQuote
  · rw [text] at same
    cases same

/-- The text of a character can be cancelled. -/
theorem escapeChar_append_injective (same : escapeChar a ++ x = escapeChar b ++ y) :
  a = b ∧ x = y
  := by
  obtain ⟨quote, text⟩ | ⟨c, noQuote, noBackslash, code, text⟩ | text := escapeChar_cases a
  all_goals obtain ⟨quote', text'⟩ | ⟨d, noQuote', noBackslash', code', text'⟩ | text' :=
    escapeChar_cases b
  all_goals rw [text, text'] at same
  case inl.inl => exact ⟨quote.trans quote'.symm, List.append_cancel_left same⟩
  case inr.inl.inr.inl =>
    obtain ⟨rfl, rfl⟩ := List.cons.inj same
    exact ⟨UInt8.toNat_inj.mp (code.trans code'.symm), rfl⟩
  case inr.inr.inr.inr =>
    simp only [List.cons_append, List.append_assoc, List.nil_append, List.cons.injEq,
      true_and] at same
    have digits : Nat.toDigits 16 a.toNat = Nat.toDigits 16 b.toNat := by
      rw [← takeWhile_toDigits a x, same, takeWhile_toDigits]
    have value : a.toNat = b.toNat := by
      rw [← (hexValue_toDigits_toNat a).1, digits, (hexValue_toDigits_toNat b).1]
    rw [digits] at same
    exact ⟨UInt8.toNat_inj.mp value, List.tail_eq_of_cons_eq (List.append_cancel_left same)⟩
  all_goals obtain ⟨⟨⟩, -⟩ := List.cons.inj same <;> contradiction

/-- Quoted strings can be cancelled in front of texts that start with no quote. -/
theorem escape_append_injective (hx : x.head? ≠ some '"') (hy : y.head? ≠ some '"')
    (same : s.flatMap escapeChar ++ '"' :: x = t.flatMap escapeChar ++ '"' :: y) :
  s = t ∧ x = y
  := by
  induction s generalizing t with
  | nil =>
      cases t with
      | nil => exact ⟨rfl, List.tail_eq_of_cons_eq same⟩
      | cons b t =>
          rw [List.flatMap_cons, List.append_assoc] at same
          exact absurd (head?_of_escapeChar_append same.symm) hx
  | cons a s ih =>
      rw [List.flatMap_cons, List.append_assoc] at same
      cases t with
      | nil => exact absurd (head?_of_escapeChar_append same) hy
      | cons b t =>
          rw [List.flatMap_cons, List.append_assoc] at same
          obtain ⟨rfl, rest⟩ := escapeChar_append_injective same
          obtain ⟨rfl, rfl⟩ := ih rest
          exact ⟨rfl, rfl⟩

/-! ### Expressions -/

namespace Expression

/-- The words and the heads of an expression are words. -/
inductive Readable : Expression → Prop
  | word {w : List Char} (hw : IsWord w) : Readable (.word w)
  | quoted (s : ByteString) : Readable (.quoted s)
  | form {head : List Char} {es : List Expression} (hh : IsWord head)
    (he : ∀ e ∈ es, Readable e) :
    Readable (.form head es)

/-- What follows a head or an operand in a form. -/
theorem follows_printAll (es : List Expression) (x : List Char) :
  Follows (printAll es ++ ')' :: x)
  := by
  cases es with
  | nil => apply follows_close
  | cons e es => apply follows_space

mutual

/-- Expressions can be cancelled in front of texts that follow them. -/
theorem print_append_injective : {e f : Expression} → e.Readable → f.Readable → {x y : List Char} →
    Follows x → Follows y → e.print ++ x = f.print ++ y → e = f ∧ x = y
  | .word w, .word v, .word hw, .word hv, _, _, hx, hy, same => by
    obtain ⟨rfl, rfl⟩ := hw.append_injective hv hx hy same
    exact ⟨rfl, rfl⟩
  | .word _, .quoted _, .word hw, _, _, _, _, _, same => absurd same (hw.head_ne rfl)
  | .word _, .form _ _, .word hw, _, _, _, _, _, same => absurd same (hw.head_ne rfl)
  | .quoted _, .word _, _, .word hv, _, _, _, _, same => absurd same.symm (hv.head_ne rfl)
  | .form _ _, .word _, _, .word hv, _, _, _, _, same => absurd same.symm (hv.head_ne rfl)
  | .quoted s, .quoted t, _, _, _, _, hx, hy, same => by
    simp only [print, List.cons_append, List.append_assoc, List.nil_append] at same
    obtain ⟨rfl, rfl⟩ := escape_append_injective hx.head?_ne hy.head?_ne
      (List.tail_eq_of_cons_eq same)
    exact ⟨rfl, rfl⟩
  | .quoted _, .form _ _, _, _, _, _, _, _, same => by cases same
  | .form _ _, .quoted _, _, _, _, _, _, _, same => by cases same
  | .form _ es, .form _ fs, .form hh he, .form hh' hf, x, y, _, _, same => by
    simp only [print, List.cons_append, List.append_assoc, List.nil_append] at same
    obtain ⟨rfl, rest⟩ := hh.append_injective hh' (follows_printAll es x) (follows_printAll fs y)
      (List.tail_eq_of_cons_eq same)
    obtain ⟨rfl, rfl⟩ := printAll_append_injective he hf rest
    exact ⟨rfl, rfl⟩

/-- Operands can be cancelled in front of closing parentheses. -/
theorem printAll_append_injective : {es fs : List Expression} → (∀ e ∈ es, e.Readable) →
    (∀ f ∈ fs, f.Readable) → {x y : List Char} →
    printAll es ++ ')' :: x = printAll fs ++ ')' :: y → es = fs ∧ x = y
  | [], [], _, _, _, _, same => ⟨rfl, List.tail_eq_of_cons_eq same⟩
  | [], _ :: _, _, _, _, _, same => by cases same
  | _ :: _, [], _, _, _, _, same => by cases same
  | e :: es, f :: fs, he, hf, x, y, same => by
    simp only [printAll, List.cons_append, List.append_assoc] at same
    obtain ⟨rfl, rest⟩ := print_append_injective (he e List.mem_cons_self)
      (hf f List.mem_cons_self) (follows_printAll es x) (follows_printAll fs y)
      (List.tail_eq_of_cons_eq same)
    obtain ⟨rfl, rfl⟩ := printAll_append_injective (fun e mem => he e (List.mem_cons_of_mem _ mem))
      (fun f mem => hf f (List.mem_cons_of_mem _ mem)) rest
    exact ⟨rfl, rfl⟩

end

end Expression

end StringTerms.Smtlib
