import Mathlib.Data.List.Nodup
import StringTerms.Proofs.Expression
import StringTerms.Proofs.KindSoundness
import StringTerms.Proofs.Traversal
import StringTerms.Smtlib.Term

/-!
# Printing is injective

In a session that is built without loose rollbacks, and whose variables have distinct names that are
simple symbols and no Boolean constants, no two handles of the arena have the same text.  The text of
a term determines its expression, and the expression determines the node: the words of literals and
of variables differ by their first characters, a negative number has one operand where a difference
has two, and equal nodes are shared.
-/

namespace StringTerms

namespace Smtlib

/-! ### Expressions of terms -/

/-- The expression of a literal; a negative number is a form. -/
def literalExpression : Literal → Expression
  | .bool b => .word (if b then "true" else "false").toList
  | .int n =>
    if n < 0 then .form ['-'] [.word n.natAbs.repr.toList] else .word n.natAbs.repr.toList
  | .char c => .word (character c).toList
  | .string s => .quoted s

/-- The expression of a node, with the expressions of its operands given by `operand`. -/
def nodeExpression (ss : Session) (operand : Handle → Expression) : Node → Expression
  | .literal v => literalExpression v
  | .var number _ => .word (variableText ss number).toList
  | .application op hs _ => .form op.symbol.toList (hs.map operand)

/-- The expression of a term. -/
def termExpression (ss : Session) (h : Handle) : Expression :=
  match ss.node? h with
  | some n =>
    nodeExpression ss (fun g =>
      if _before : g.index < h.index then termExpression ss g else .word (unknown g).toList) n
  | none => .word (unknown h).toList
termination_by h.index

/-- The text of a literal is that of its expression. -/
theorem print_literalExpression (v : Literal) :
  (literalExpression v).print = (literal v).toList
  := by
  cases v with
  | bool b => rfl
  | int n =>
      rw [literalExpression, literal, integer]
      split
      case isTrue => simp [Expression.print, Expression.printAll]
      case isFalse => rfl
  | char c => rfl
  | string s => simp [literalExpression, literal, escape, Expression.print]

/-- The text of a node is that of its expression, if the texts of its operands are. -/
theorem print_nodeExpression (ss : Session) {operand : Handle → Expression} {text : Handle → String}
    (same : ∀ g, (operand g).print = (text g).toList) (n : Node) :
  (nodeExpression ss operand n).print = (node ss text n).toList
  := by
  cases n with
  | literal v => apply print_literalExpression
  | var number k => rfl
  | application op hs k =>
      have all : Expression.printAll (hs.map operand)
          = (String.join (hs.map fun g => " " ++ text g)).toList := by
        induction hs with
        | nil => rfl
        | cons g hs ih =>
            simp [Expression.printAll, same, ih, String.toList_join]
      simp [nodeExpression, node, Expression.print, all]

/-- The text of a term is that of its expression. -/
theorem print_termExpression (ss : Session) (h : Handle) :
  (termExpression ss h).print = (term ss h).toList
  := by
  rw [termExpression, term]
  cases ss.node? h with
  | none => rfl
  | some n =>
      apply print_nodeExpression
      intro g
      split
      case isTrue => apply print_termExpression ss g
      case isFalse => rfl
termination_by h.index

/-- The expression of a node whose operands precede it. -/
theorem termExpression_of_node {ss : Session} {h : Handle} {n : Node} (hn : ss.node? h = some n)
    (earlier : ∀ g ∈ n.operands, g.index < h.index) :
  termExpression ss h = nodeExpression ss (termExpression ss) n
  := by
  rw [termExpression, hn]
  cases n with
  | literal v => rfl
  | var number k => rfl
  | application op hs k =>
      have operands : ∀ g ∈ hs, (if _before : g.index < h.index then termExpression ss g
          else .word (unknown g).toList) = termExpression ss g :=
        fun g mem => dif_pos (earlier g mem)
      exact congrArg (Expression.form op.symbol.toList) (List.map_congr_left operands)

/-! ### Symbols and names -/

/-- The characters of simple symbols other than letters and digits. -/
def punctuation : List Char := "~!@$%^&*_-+=<>.?/".toList

/-- A simple symbol is not empty, does not start with a digit, and consists of letters, digits and
certain punctuation. -/
structure IsSimple (name : String) : Prop where
  nonempty : name.toList ≠ []
  leading : ∀ c ∈ name.toList.head?, c.isDigit = false
  characters : ∀ c ∈ name.toList, c.isAlphanum = true ∨ c ∈ punctuation

theorem isSimple_iff {name : String} :
  IsSimple name ↔ name.toList.isEmpty = false ∧ name.toList.head?.any Char.isDigit = false
    ∧ name.toList.all (fun c => c.isAlphanum || punctuation.contains c) = true
  := by
  rw [Option.any_eq_false]
  constructor
  · rintro ⟨nonempty, leading, characters⟩
    exact ⟨by simpa using nonempty, leading, by simpa using characters⟩
  · rintro ⟨nonempty, leading, characters⟩
    exact ⟨by simpa using nonempty, leading, by simpa using characters⟩

instance (name : String) : Decidable (IsSimple name) := decidable_of_iff _ isSimple_iff.symm

/-- Delimiters and the hash are no characters of simple symbols. -/
theorem not_delimits_of_simple {c : Char} (simple : c.isAlphanum = true ∨ c ∈ punctuation) :
  delimits c = false ∧ c ≠ '#'
  := by
  constructor
  · by_contra delimiter
    simp only [delimits, Bool.not_eq_false, Bool.or_eq_true, decide_eq_true_eq, or_assoc]
      at delimiter
    obtain rfl | rfl | rfl | rfl := delimiter <;> revert simple <;> decide
  · rintro rfl
    revert simple
    decide

theorem IsSimple.isWord {name : String} (simple : IsSimple name) :
  IsWord name.toList
  := ⟨simple.nonempty, fun c mem => (not_delimits_of_simple (simple.characters c mem)).1⟩

/-- The operators, in the order of their declaration. -/
def operators : List Operator :=
  [.eq, .not, .and, .or, .ite, .add, .sub, .le, .lt, .ge, .gt, .length, .append, .charAt, .slice,
    .contains, .startsWith, .endsWith, .replaceFirst, .replaceAll, .indexOf, .toInt, .ofInt, .unit,
    .code]

theorem mem_operators (op : Operator) :
  op ∈ operators
  := by cases op <;> decide

/-- Different operators have different symbols. -/
theorem symbol_injective {op op' : Operator} (same : op.symbol = op'.symbol) :
  op = op'
  := by
  have distinct : (operators.map Operator.symbol).Nodup := by decide +kernel
  exact List.inj_on_of_nodup_map distinct (mem_operators op) (mem_operators op') same

theorem isWord_symbol (op : Operator) :
  IsWord op.symbol.toList
  := by
  have words : ∀ op ∈ operators, IsWord op.symbol.toList := by decide +kernel
  exact words op (mem_operators op)

/-! ### Words of literals -/

theorem isDigit_repr {n : Nat} :
  ∀ c ∈ n.repr.toList, c.isDigit = true
  := by
  intro c mem
  rw [Nat.toList_repr] at mem
  apply Nat.isDigit_of_mem_toDigits (by decide) (by decide) mem

theorem delimits_of_isDigit {c : Char} (digit : c.isDigit = true) :
  delimits c = false
  := by
  apply (not_delimits_of_simple (Or.inl _)).1
  simp [Char.isAlphanum, digit]

theorem isWord_repr (n : Nat) :
  IsWord n.repr.toList
  := by
  constructor
  · rw [Nat.toList_repr]
    apply Nat.toDigits_ne_nil
  · exact fun c mem => delimits_of_isDigit (isDigit_repr c mem)

/-- The two digits of a byte are no delimiters, and they determine it. -/
theorem character_digits :
  ∀ n < 16, delimits n.digitChar = false ∧ ∀ m < 16, n.digitChar = m.digitChar → n = m
  := by decide +kernel

theorem toList_character (c : UInt8) :
  (character c).toList = ['#', 'x', (c.toNat / 16).digitChar, (c.toNat % 16).digitChar]
  := String.toList_ofList

theorem isWord_character (c : UInt8) :
  IsWord (character c).toList
  := by
  have high := character_digits (c.toNat / 16) (by have := c.toNat_lt; omega)
  have low := character_digits (c.toNat % 16) (by omega)
  simp [IsWord, character, high.1, low.1]
  decide

theorem character_injective {c d : UInt8} (same : character c = character d) :
  c = d
  := by
  have bound := c.toNat_lt
  have bound' := d.toNat_lt
  have digits := String.ofList_injective same
  simp only [List.cons.injEq, true_and, and_true] at digits
  have high := (character_digits (c.toNat / 16) (by omega)).2 (d.toNat / 16) (by omega) digits.1
  have low := (character_digits (c.toNat % 16) (by omega)).2 (d.toNat % 16) (by omega) digits.2
  apply UInt8.toNat_inj.mp
  omega

/-- A numeral determines its number. -/
theorem repr_injective {m n : Nat} (same : m.repr.toList = n.repr.toList) :
  m = n
  := by
  rw [Nat.toList_repr, Nat.toList_repr] at same
  rw [← Nat.ofDigitChars_toDigits (b := 10) (n := m) (by decide) (by decide), same,
    Nat.ofDigitChars_toDigits (by decide) (by decide)]

theorem readable_literalExpression (v : Literal) :
  (literalExpression v).Readable
  := by
  cases v with
  | bool b =>
      apply Expression.Readable.word
      cases b <;> decide
  | int n =>
      rw [literalExpression]
      split
      case isTrue =>
        apply Expression.Readable.form (by decide)
        intro e mem
        rw [List.mem_singleton.mp mem]
        apply Expression.Readable.word (isWord_repr _)
      case isFalse => apply Expression.Readable.word (isWord_repr _)
  | char c => apply Expression.Readable.word (isWord_character c)
  | string s => apply Expression.Readable.quoted

/-- A numeral, with or without a sign, determines its number. -/
theorem literalExpression_int_injective {m n : Int}
    (same : literalExpression (.int m) = literalExpression (.int n)) :
  m = n
  := by
  simp only [literalExpression] at same
  split at same <;> split at same
  case isTrue.isTrue =>
    simp only [Expression.form.injEq, List.cons.injEq, Expression.word.injEq, and_true,
      true_and] at same
    have size := repr_injective same
    omega
  case isFalse.isFalse =>
    simp only [Expression.word.injEq] at same
    have size := repr_injective same
    omega
  all_goals cases same

/-- The kind of a literal, as its expression shows it: a character starts with a hash, and a numeral
with a digit. -/
def Expression.literalKind : Expression → Kind
  | .quoted _ => .string
  | .form _ _ => .int
  | .word [] => .bool
  | .word (c :: _) => if c = '#' then .char else if c.isDigit then .int else .bool

theorem literalKind_word_repr (n : Nat) :
  (Expression.word n.repr.toList).literalKind = .int
  := by
  have digits := isDigit_repr (n := n)
  have word := isWord_repr n
  cases same : n.repr.toList with
  | nil => exact absurd same word.1
  | cons c w =>
      rw [same] at digits
      have digit := digits c List.mem_cons_self
      have noHash : c ≠ '#' := by
        rintro rfl
        cases digit
      simp [Expression.literalKind, noHash, digit]

theorem literalKind_literalExpression (v : Literal) :
  (literalExpression v).literalKind = v.kind
  := by
  cases v with
  | bool b => cases b <;> rfl
  | int n =>
      rw [literalExpression]
      split
      case isTrue => rfl
      case isFalse => apply literalKind_word_repr
  | char c =>
      rw [literalExpression, toList_character]
      rfl
  | string s => rfl

/-- The expression of a literal determines the literal. -/
theorem literalExpression_injective {u v : Literal}
    (same : literalExpression u = literalExpression v) :
  u = v
  := by
  have kinds : u.kind = v.kind := by
    rw [← literalKind_literalExpression, same, literalKind_literalExpression]
  cases u <;> cases v <;> try cases kinds
  case bool.bool b c =>
    have distinct : ∀ b c : Bool, (if b then "true" else "false") = (if c then "true" else "false")
        → b = c := by decide
    rw [distinct b c (String.toList_inj.mp (Expression.word.inj same))]
  case int.int => rw [literalExpression_int_injective same]
  case char.char => rw [character_injective (String.toList_inj.mp (Expression.word.inj same))]
  case string.string =>
    cases same
    rfl

/-- The word of a literal is no simple symbol other than the Boolean constants. -/
theorem IsSimple.word_ne {name : String} (simple : IsSimple name) (noTrue : name ≠ "true")
    (noFalse : name ≠ "false") (v : Literal) :
  literalExpression v ≠ .word name.toList
  := by
  intro same
  have kind : (Expression.word name.toList).literalKind = .bool := by
    cases characters : name.toList with
    | nil => rfl
    | cons c w =>
        have letter := simple.leading c (by simp [characters])
        have noHash := (not_delimits_of_simple (simple.characters c (by simp [characters]))).2
        simp [Expression.literalKind, noHash, letter]
  rw [← same, literalKind_literalExpression] at kind
  cases v with
  | bool b =>
      have text := String.toList_inj.mp (Expression.word.inj same)
      cases b with
      | true => exact noTrue text.symm
      | false => exact noFalse text.symm
  | _ => cases kind

end Smtlib

namespace Session

open Smtlib

variable {ss : Session} {cps : List Checkpoint}

/-- The names of the variables are pairwise distinct simple symbols other than the Boolean
constants. -/
structure DistinctlyNamed (ss : Session) : Prop where
  simple : ∀ v ∈ ss.vars, IsSimple v.name
  noConstant : ∀ v ∈ ss.vars, v.name ≠ "true" ∧ v.name ≠ "false"
  distinct : ∀ {i j u v}, ss.variableRecord? i = some u → ss.variableRecord? j = some v →
    u.name = v.name → i = j

/-- What a session needs so that the texts of its terms can be read. -/
structure Legible (ss : Session) : Prop where
  wellKinded : ss.WellKinded
  wellFormed : ss.WellFormed
  consed : ss.Consed
  named : ss.DistinctlyNamed

namespace Legible

/-- The expression of a node of the session. -/
theorem termExpression_eq (legible : ss.Legible) {h : Handle} {n : Node}
    (hn : ss.node? h = some n) :
  termExpression ss h = nodeExpression ss (termExpression ss) n
  := termExpression_of_node hn (legible.consed.earlier hn)

/-- A variable has a record, and its expression is its name. -/
theorem exists_name (legible : ss.Legible) {h : Handle} {i : Nat} {k : Kind}
    (hn : ss.node? h = some (.var i k)) :
  ∃ v, ss.variableRecord? i = some v ∧ v.handle = h ∧ v ∈ ss.vars
    ∧ termExpression ss h = .word v.name.toList
  := by
  obtain ⟨v, record, handle⟩ := legible.wellFormed.recorded hn
  have text : variableText ss i = v.name := by rw [variableText, record]
  refine ⟨v, record, handle, Array.mem_of_getElem? record, ?_⟩
  rw [legible.termExpression_eq hn, nodeExpression, text]

/-- The operands of an application are nodes of the arena. -/
theorem exists_operand (legible : ss.Legible) {h : Handle} {op : Operator} {hs : List Handle}
    {k : Kind} (hn : ss.node? h = some (.application op hs k)) :
  ∀ g ∈ hs, ∃ n, ss.node? g = some n
  := by
  intro g mem
  obtain ⟨j, kinds, -⟩ := legible.wellKinded.kinds hn
  obtain ⟨_, kind⟩ := kinds.exists_kind g mem
  obtain ⟨n, node, -⟩ := Option.map_eq_some_iff.mp kind
  exact ⟨n, node⟩

/-- The words of the expression of a node are words. -/
theorem readable (legible : ss.Legible) {h : Handle} {n : Node} (hn : ss.node? h = some n) :
  (termExpression ss h).Readable
  := by
  cases n with
  | literal v =>
      rw [legible.termExpression_eq hn]
      apply readable_literalExpression
  | var i k =>
      obtain ⟨v, -, -, named, text⟩ := legible.exists_name hn
      rw [text]
      apply Expression.Readable.word (legible.named.simple v named).isWord
  | application op hs k =>
      rw [legible.termExpression_eq hn]
      apply Expression.Readable.form (isWord_symbol op)
      intro e operand
      obtain ⟨g, mem, rfl⟩ := List.mem_map.mp operand
      obtain ⟨m, hm⟩ := legible.exists_operand hn g mem
      have earlier := legible.wellKinded.earlier hn g mem
      exact legible.readable hm
termination_by h.index

/-- Applications of one operator to the same operands are of one kind. -/
theorem kind_unique (legible : ss.Legible) {g h : Handle} {op : Operator} {hs : List Handle}
    {k l : Kind} (hg : ss.node? g = some (.application op hs k))
    (hh : ss.node? h = some (.application op hs l)) :
  k = l
  := by
  obtain ⟨i, kinds, rfl⟩ := legible.wellKinded.kinds hg
  obtain ⟨j, kinds', rfl⟩ := legible.wellKinded.kinds hh
  have same : op.operandKinds i = op.operandKinds j := by
    have found := kinds.kinds_eq
    rw [kinds'.kinds_eq] at found
    exact (Except.ok.inj found).symm
  have result := op.resultKind_operandKinds i
  rw [same, op.resultKind_operandKinds j] at result
  exact (Except.ok.inj result).symm

/-- A negative number is no application: it has one operand, and a difference has two. -/
theorem literalExpression_ne (legible : ss.Legible) {h : Handle} {op : Operator}
    {hs : List Handle} {k : Kind} (hn : ss.node? h = some (.application op hs k)) (v : Literal) :
  literalExpression v ≠ .form op.symbol.toList (hs.map (termExpression ss))
  := by
  intro same
  cases v with
  | int n =>
      rw [literalExpression] at same
      split at same
      case isTrue =>
        obtain ⟨head, operands⟩ := Expression.form.inj same
        have sub : op = .sub := symbol_injective (String.toList_inj.mp head.symm)
        subst sub
        obtain ⟨j, kinds, -⟩ := legible.wellKinded.kinds hn
        have two := kinds.length_eq
        have one := congrArg List.length operands
        simp [Operator.operandKinds] at one two
        omega
      case isFalse => cases same
  | _ => cases same

/-- No other node has the expression of a literal. -/
theorem eq_of_literal (legible : ss.Legible) {g h : Handle} {v : Literal} {b : Node}
    (hg : ss.node? g = some (.literal v)) (hh : ss.node? h = some b)
    (same : termExpression ss g = termExpression ss h) :
  g = h
  := by
  rw [legible.termExpression_eq hg, nodeExpression] at same
  cases b with
  | literal u =>
      rw [legible.termExpression_eq hh, nodeExpression] at same
      rw [literalExpression_injective same] at hg
      apply legible.consed.unique hg hh rfl
  | var i k =>
      obtain ⟨u, -, -, mem, text⟩ := legible.exists_name hh
      rw [text] at same
      obtain ⟨noTrue, noFalse⟩ := legible.named.noConstant u mem
      exact absurd same ((legible.named.simple u mem).word_ne noTrue noFalse v)
  | application op hs k =>
      rw [legible.termExpression_eq hh, nodeExpression] at same
      exact absurd same (legible.literalExpression_ne hh v)

/-- No other node has the expression of a variable. -/
theorem eq_of_var (legible : ss.Legible) {g h : Handle} {i : Nat} {k : Kind} {b : Node}
    (hg : ss.node? g = some (.var i k)) (hh : ss.node? h = some b)
    (same : termExpression ss g = termExpression ss h) :
  g = h
  := by
  cases b with
  | literal v => exact (legible.eq_of_literal hh hg same.symm).symm
  | var j l =>
      obtain ⟨u, record, rfl, -, text⟩ := legible.exists_name hg
      obtain ⟨v, record', rfl, -, text'⟩ := legible.exists_name hh
      rw [text, text'] at same
      have names := String.toList_inj.mp (Expression.word.inj same)
      rw [legible.named.distinct record record' names, record'] at record
      cases record
      rfl
  | application op hs l =>
      obtain ⟨u, -, -, -, text⟩ := legible.exists_name hg
      rw [text, legible.termExpression_eq hh] at same
      cases same

/-- Different nodes of the arena have different expressions. -/
theorem eq_of_termExpression (legible : ss.Legible) {g h : Handle} {a b : Node}
    (hg : ss.node? g = some a) (hh : ss.node? h = some b)
    (same : termExpression ss g = termExpression ss h) :
  g = h
  := by
  match a, b with
  | .literal v, _ => exact legible.eq_of_literal hg hh same
  | .var i k, _ => exact legible.eq_of_var hg hh same
  | .application _ _ _, .literal v => exact (legible.eq_of_literal hh hg same.symm).symm
  | .application _ _ _, .var i k => exact (legible.eq_of_var hh hg same.symm).symm
  | .application op hs k, .application op' hs' l =>
    rw [legible.termExpression_eq hg, legible.termExpression_eq hh] at same
    obtain ⟨head, operands⟩ := Expression.form.inj same
    obtain rfl := symbol_injective (String.toList_inj.mp head)
    have shared : ∀ f ∈ hs, ∀ f' ∈ hs', termExpression ss f = termExpression ss f' → f = f' := by
      intro f mem f' mem' same
      obtain ⟨m, hm⟩ := legible.exists_operand hg f mem
      obtain ⟨m', hm'⟩ := legible.exists_operand hh f' mem'
      have earlier := legible.wellKinded.earlier hg f mem
      exact legible.eq_of_termExpression hm hm' same
    obtain rfl := List.eq_of_map_eq_map shared operands
    obtain rfl := legible.kind_unique hg hh
    apply legible.consed.unique hg hh rfl
termination_by g.index

end Legible

/-! ### Texts of terms -/

/-- Handles of the arena with the same text are equal. -/
theorem Built.text_injective (built : Built false ss cps) (named : ss.DistinctlyNamed)
    {g h : Handle} (hg : g.index < ss.nodes.size) (hh : h.index < ss.nodes.size)
    (same : term ss g = term ss h) :
  g = h
  := by
  have legible : ss.Legible := ⟨built.kinded.toWellKinded, built.wellFormed, built.consed, named⟩
  obtain ⟨a, ha⟩ : ∃ a, ss.node? g = some a := ⟨_, Array.getElem?_eq_getElem hg⟩
  obtain ⟨b, hb⟩ : ∃ b, ss.node? h = some b := ⟨_, Array.getElem?_eq_getElem hh⟩
  have texts : (termExpression ss g).print ++ [] = (termExpression ss h).print ++ [] := by
    rw [print_termExpression, print_termExpression, same]
  have expressions := Expression.print_append_injective (legible.readable ha)
    (legible.readable hb) follows_nil follows_nil texts
  exact legible.eq_of_termExpression ha hb expressions.1

/-- Beside a variable with the name -7, the string with this content and the difference of zero and
the number 7, only the number -7 has the text of a negative number. -/
theorem text_injective_negative :
  ∃ ss : Session, Built false ss [] ∧ ss.DistinctlyNamed ∧ term ss ⟨0⟩ = "-7"
    ∧ term ss ⟨1⟩ = "\"-7\"" ∧ term ss ⟨4⟩ = "(- 0 7)" ∧ term ss ⟨5⟩ = "(- 7)"
    ∧ ∀ h : Handle, h.index < 6 → term ss h = "(- 7)" → h = ⟨5⟩
  := by
  have start : Built false {} [] := .start {}
  have declared := start.edit (.declare "-7" .int) trivial
  have subtracted := ((((declared.edit (.literal (.string [45, 55])) trivial).edit
    (.literal (.int 0)) trivial).edit (.literal (.int 7)) trivial).edit
    (.apply .sub [⟨2⟩, ⟨3⟩]) trivial)
  have built := subtracted.edit (.literal (.int (-7))) trivial
  obtain ⟨ss, built, vars, size, name, string, difference, negative⟩ : ∃ ss : Session,
      Built false ss [] ∧ ss.vars = #[⟨"-7", .int, ⟨0⟩, false⟩] ∧ ss.nodes.size = 6
      ∧ term ss ⟨0⟩ = "-7" ∧ term ss ⟨1⟩ = "\"-7\"" ∧ term ss ⟨4⟩ = "(- 0 7)"
      ∧ term ss ⟨5⟩ = "(- 7)" :=
    ⟨_, built, by decide +kernel⟩
  have named : ss.DistinctlyNamed := by
    constructor
    · rw [vars]
      intro v mem
      rw [Array.mem_singleton.mp mem]
      decide
    · rw [vars]
      intro v mem
      rw [Array.mem_singleton.mp mem]
      decide
    · intro i j u v hu hv _
      rw [variableRecord?, vars] at hu hv
      obtain ⟨first, -⟩ := Array.getElem?_eq_some_iff.mp hu
      obtain ⟨first', -⟩ := Array.getElem?_eq_some_iff.mp hv
      exact (Nat.lt_one_iff.mp first).trans (Nat.lt_one_iff.mp first').symm
  refine ⟨ss, built, named, name, string, difference, negative, ?_⟩
  intro h inside text
  apply built.text_injective named (by rwa [size]) (by rw [size]; decide)
  rw [text, negative]

end Session

end StringTerms
