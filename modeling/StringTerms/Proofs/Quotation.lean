import StringTerms.Proofs.Expression

/-!
# Reading quoted strings

SMT-LIB 2.6 reads a string literal up to the first quote that is not doubled.  A doubled quote is
one quote, a backslash before `u` and one to five hexadecimal digits in braces is the character with
this code, and every other character is itself.  A reader by these rules gets a string back from its
text, whatever the string, and stops at the closing quote of the text, whatever follows it except
for a quote.
-/

namespace StringTerms.Smtlib

variable {a : UInt8} {s t : ByteString} {c : Char} {n : Nat} {x y : List Char}

/-! ### The reader -/

/-- The value of a hexadecimal digit, with a small or a capital letter. -/
def hexDigit? (d : Char) : Option Nat :=
  if '0' ≤ d ∧ d ≤ '9' then
    some (d.toNat - 48)
  else if 'a' ≤ d ∧ d ≤ 'f' then
    some (d.toNat - 87)
  else if 'A' ≤ d ∧ d ≤ 'F' then
    some (d.toNat - 55)
  else
    none

/-- The code that is written with one to five hexadecimal digits. -/
def hexCode? (ds : List Char) : Option Nat :=
  if 1 ≤ ds.length ∧ ds.length ≤ 5 then
    ds.foldlM (fun n d => (hexDigit? d).map fun m => 16 * n + m) 0
  else
    none

/-- The code that a text escapes behind a backslash, and the text that follows. -/
def escaped? : List Char → Option (Nat × List Char)
  | 'u' :: '\x7b' :: x =>
    match x.dropWhile (· ≠ '\x7d') with
    | _ :: y => (hexCode? (x.takeWhile (· ≠ '\x7d'))).map fun n => (n, y)
    | [] => none
  | _ => none

/-- What stands inside a literal or closes it. -/
inductive Lexeme where
  | char (code : Nat)
  | close

/-- What a text inside a literal starts with, and the text that follows. -/
def readLexeme : List Char → Option (Lexeme × List Char)
  | '"' :: '"' :: x => some (.char 34, x)
  | '"' :: x => some (.close, x)
  | '\\' :: x =>
    match escaped? x with
    | some (n, y) => some (.char n, y)
    | none => some (.char 92, x)
  | c :: x => some (.char c.toNat, x)
  | [] => none

theorem length_lt_of_escaped? (found : escaped? x = some (n, y)) :
  y.length < x.length
  := by
  unfold escaped? at found
  split at found
  case h_1 x =>
    split at found
    case h_1 d z rest =>
      obtain ⟨m, -, same⟩ := Option.map_eq_some_iff.mp found
      cases same
      have bound := (List.dropWhile_suffix (l := x) (· ≠ '\x7d')).length_le
      rw [rest] at bound
      simp only [List.length_cons] at bound ⊢
      omega
    case h_2 => cases found
  case h_2 => cases found

/-- What is read takes up some of the text. -/
theorem length_lt_of_readLexeme {l : Lexeme} (found : readLexeme x = some (l, y)) :
  y.length < x.length
  := by
  unfold readLexeme at found
  split at found
  case h_3 x =>
    split at found
    case h_1 code =>
      cases found
      apply Nat.lt_succ_of_lt (length_lt_of_escaped? code)
    case h_2 =>
      cases found
      apply Nat.lt_succ_self
  case h_5 => cases found
  all_goals
    cases found
    simp only [List.length_cons]
    omega

/-- The codes of the characters up to the closing quote, and the text behind it. -/
def readContent (x : List Char) : Option (List Nat × List Char) :=
  match _found : readLexeme x with
  | some (.char n, y) => (readContent y).map fun (ns, z) => (n :: ns, z)
  | some (.close, y) => some ([], y)
  | none => none
termination_by x.length
decreasing_by apply length_lt_of_readLexeme _found

/-- The codes of the characters of the literal that a text starts with, and the text behind it. -/
def readQuoted : List Char → Option (List Nat × List Char)
  | '"' :: x => readContent x
  | _ => none

/-! ### Reading what is written -/

theorem readLexeme_of_plain (noQuote : c ≠ '"') (noBackslash : c ≠ '\\') :
  readLexeme (c :: x) = some (.char c.toNat, x)
  := by
  unfold readLexeme
  split <;> simp_all

theorem readLexeme_of_close (hx : x.head? ≠ some '"') :
  readLexeme ('"' :: x) = some (.close, x)
  := by
  cases x with
  | nil => rfl
  | cons c x =>
      have noQuote : c ≠ '"' := by simpa using hx
      simp [readLexeme, noQuote]

/-- The digits of a byte are read as the byte. -/
theorem hexCode?_toDigits :
  ∀ n < 256, hexCode? (Nat.toDigits 16 n) = some n
  := by decide +kernel

theorem escaped?_toDigits (a : UInt8) (x : List Char) :
  escaped? ('u' :: '\x7b' :: (Nat.toDigits 16 a.toNat ++ '\x7d' :: x)) = some (a.toNat, x)
  := by
  have digits := takeWhile_toDigits a x
  have whole := List.takeWhile_append_dropWhile (p := (· ≠ '\x7d'))
    (l := Nat.toDigits 16 a.toNat ++ '\x7d' :: x)
  rw [digits] at whole
  have rest := List.append_cancel_left whole
  rw [escaped?, digits, rest, hexCode?_toDigits a.toNat a.toNat_lt]
  rfl

/-- The text of a character is read as this character, whatever follows. -/
theorem readLexeme_escapeChar (a : UInt8) (x : List Char) :
  readLexeme (escapeChar a ++ x) = some (.char a.toNat, x)
  := by
  obtain ⟨rfl, text⟩ | ⟨c, noQuote, noBackslash, code, text⟩ | text := escapeChar_cases a
  · rw [text]
    rfl
  · rw [text, code]
    apply readLexeme_of_plain noQuote noBackslash
  · rw [text]
    simp [readLexeme, escaped?_toDigits]

/-- The text of a string, with its closing quote, is read as the string. -/
theorem readContent_escape (s : ByteString) (hx : x.head? ≠ some '"') :
  readContent (s.flatMap escapeChar ++ '"' :: x) = some (s.map UInt8.toNat, x)
  := by
  induction s with
  | nil =>
      rw [readContent, List.flatMap_nil, List.nil_append, readLexeme_of_close hx]
      rfl
  | cons a s ih =>
      rw [readContent, List.flatMap_cons, List.append_assoc, readLexeme_escapeChar]
      simp [ih]

/-! ### Quotes in the text -/

/-- Every quote in the text belongs to a pair of neighbours. -/
inductive QuotesPaired : List Char → Prop
  | nil : QuotesPaired []
  | pair {x : List Char} (rest : QuotesPaired x) : QuotesPaired ('"' :: '"' :: x)
  | other {c : Char} {x : List Char} (noQuote : c ≠ '"') (rest : QuotesPaired x) :
    QuotesPaired (c :: x)

theorem QuotesPaired.append (hx : QuotesPaired x) (hy : QuotesPaired y) :
  QuotesPaired (x ++ y)
  := by
  induction hx with
  | nil => exact hy
  | pair _ ih => exact .pair ih
  | other noQuote _ ih => exact .other noQuote ih

theorem QuotesPaired.of_not_mem (noQuote : '"' ∉ x) :
  QuotesPaired x
  := by
  induction x with
  | nil => exact .nil
  | cons c x ih =>
      rw [List.mem_cons, not_or] at noQuote
      exact .other (Ne.symm noQuote.1) (ih noQuote.2)

theorem all_toDigits :
  ∀ n < 256, (Nat.toDigits 16 n).all (fun d => 32 ≤ d.toNat && d.toNat ≤ 126 && d ≠ '"') = true
  := by decide +kernel

/-- The hexadecimal digits of a byte are printable and no quotes. -/
theorem printable_toDigits (a : UInt8) :
  ∀ d ∈ Nat.toDigits 16 a.toNat, (32 ≤ d.toNat ∧ d.toNat ≤ 126) ∧ d ≠ '"'
  := by
  intro d mem
  simpa using List.all_eq_true.mp (all_toDigits a.toNat a.toNat_lt) d mem

theorem quotesPaired_escapeChar (a : UInt8) :
  QuotesPaired (escapeChar a)
  := by
  obtain ⟨-, text⟩ | ⟨c, noQuote, -, -, text⟩ | text := escapeChar_cases a
  · rw [text]
    exact .pair .nil
  · rw [text]
    exact .other noQuote .nil
  · rw [text]
    apply QuotesPaired.of_not_mem
    have digits : '"' ∉ Nat.toDigits 16 a.toNat := fun mem => (printable_toDigits a '"' mem).2 rfl
    simp [digits]

theorem quotesPaired_escape (s : ByteString) :
  QuotesPaired (escape s).toList
  := by
  rw [escape, String.toList_ofList]
  induction s with
  | nil => exact .nil
  | cons a s ih =>
      rw [List.flatMap_cons]
      apply (quotesPaired_escapeChar a).append ih

/-- The text of a character consists of printable characters. -/
theorem printable_escapeChar (a : UInt8) :
  ∀ c ∈ escapeChar a, 32 ≤ c.toNat ∧ c.toNat ≤ 126
  := by
  unfold escapeChar
  split
  case isTrue =>
    intro c mem
    have quote : c = '"' := by simpa using mem
    rw [quote]
    decide
  case isFalse =>
    split
    case isTrue shown =>
      have bounds : 32 ≤ a ∧ a ≤ 126 := by
        simpa [printable] using (Bool.and_eq_true_iff.mp shown).1
      intro c mem
      rw [List.mem_singleton.mp mem, toNat_ofNat_of_lt a.toNat a.toNat_lt]
      exact bounds
    case isFalse =>
      intro c mem
      simp only [List.cons_append, List.nil_append, List.mem_cons, List.mem_append,
        List.not_mem_nil, or_false] at mem
      obtain rfl | rfl | rfl | mem | rfl := mem
      case inr.inr.inr.inl => exact (printable_toDigits a c mem).1
      all_goals decide

/-- The text of a string consists of printable characters, its quotes are paired, and behind an
opening quote and before a closing one it is read as the string, up to the closing quote, unless
another quote follows; so no other string has this text. -/
theorem readQuoted_literal (s : ByteString) :
  (∀ c ∈ (escape s).toList, 32 ≤ c.toNat ∧ c.toNat ≤ 126)
  ∧ QuotesPaired (escape s).toList
  ∧ (∀ x : List Char, x.head? ≠ some '"' →
    readQuoted ((literal (.string s)).toList ++ x) = some (s.map UInt8.toNat, x))
  ∧ ∀ t, escape t = escape s → t = s
  := by
  have reads : ∀ (s : ByteString) (x : List Char), x.head? ≠ some '"' →
      readQuoted ((literal (.string s)).toList ++ x) = some (s.map UInt8.toNat, x) := by
    intro s x hx
    have text : (literal (.string s)).toList ++ x
        = '"' :: (s.flatMap escapeChar ++ '"' :: x) := by
      simp [literal, escape]
    rw [text, readQuoted, readContent_escape s hx]
  refine ⟨?_, quotesPaired_escape s, reads s, ?_⟩
  · intro c mem
    rw [escape, String.toList_ofList] at mem
    obtain ⟨a, -, mem⟩ := List.mem_flatMap.mp mem
    apply printable_escapeChar a c mem
  · intro t same
    have texts : literal (.string t) = literal (.string s) := by rw [literal, same, literal]
    have codes := reads t [] (by decide)
    rw [texts, reads s [] (by decide)] at codes
    have codes : s.map UInt8.toNat = t.map UInt8.toNat := congrArg Prod.fst (Option.some.inj codes)
    exact ((List.map_inj_right fun _ _ => UInt8.toNat_inj.mp).mp codes).symm

/-- A string that looks like an escaped quote between quotes, with bytes that are not printable,
before a further literal. -/
theorem readQuoted_literal_escape :
  (literal (.string [34, 92, 117, 123, 50, 50, 125, 34, 0, 255]))
    = "\"\"\"\\u\x7b5c\x7du\x7b22\x7d\"\"\\u\x7b0\x7d\\u\x7bff\x7d\""
  ∧ (" \"y\"".toList.head? ≠ some '"')
  ∧ readQuoted ((literal (.string [34, 92, 117, 123, 50, 50, 125, 34, 0, 255])).toList
      ++ " \"y\"".toList)
    = some ([34, 92, 117, 123, 50, 50, 125, 34, 0, 255], " \"y\"".toList)
  := by
  have follows : " \"y\"".toList.head? ≠ some '"' := by decide +kernel
  refine ⟨by decide +kernel, follows, ?_⟩
  apply (readQuoted_literal _).2.2.1 _ follows

end StringTerms.Smtlib
