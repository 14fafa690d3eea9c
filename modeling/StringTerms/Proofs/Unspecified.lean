import StringTerms.Proofs.Pinning

/-!
# Unspecified slices

A slice that reaches out of its string may have any value.  The operations that are fully specified
do not depend on it: a part taken or dropped, the rest of a non-empty string and the condition on an
extracted character have the values of their host functions, whatever values such slices are given.
-/

namespace StringTerms

/-- Slices that lie in their strings are made of the characters that they select, and all others
have the given values. -/
def Slicing.within (w : Slicing) : Slicing :=
  fun s o l => (ByteString.slice? s o l).getD (w s o l)

theorem Slicing.exact_within (w : Slicing) :
  (Slicing.within w).Exact
  := by
  intro s o l r found _
  rw [within, found]
  rfl

open Strings

variable {ss tt : Session} {M : Model} {cut : Slicing} {s : Value .string} {i : Value .int}
  {cs : ByteString} {m : Int}

/-! ### Parts of a string -/

/-- A part of a string, as selected by a count, has the value of its host function. -/
theorem Session.Computes.value_part {x : Builder (Value .string)}
    {f : Int → ByteString → ByteString}
    (h : ss.Computes cut x fun R v =>
      ∃ m cs, i.ReadsAs R m ∧ s.ReadsAs R cs ∧ cs.length < ByteString.indexBound ∧ v = f m cs)
    (hi : ss.Holds i) (hs : ss.Holds s) (string : s.ReadsAs (ss.readingWith cut M) cs)
    (count : i.ReadsAs (ss.readingWith cut M) m) (short : cs.length < ByteString.indexBound) :
  Evaluation.valueWith cut (x ss).2 M (x ss).1 = .ok (some (f m cs))
  := by
  have grows := h.shares.toExtends
  apply h.value_eq
  exact ⟨m, cs, (grows.readsWith_iff cut M hi).mpr count,
    (grows.readsWith_iff cut M hs).mpr string, short, rfl⟩

/-- The rest of a non-empty string has its value. -/
theorem Strings.value_rest (exact : cut.Exact) (wk : ss.WellKinded) (hs : ss.Holds s) {c : UInt8}
    (string : s.ReadsAs (ss.readingWith cut M) (c :: cs))
    (short : (c :: cs).length < ByteString.indexBound) :
  Evaluation.valueWith cut (rest s ss).2 M (rest s ss).1 = .ok (some cs)
  := by
  have computes := computes_rest exact wk hs
  apply computes.value_eq
  exact ⟨c :: cs, (computes.shares.toExtends.readsWith_iff cut M hs).mpr string, short, rfl⟩

/-! ### Extracted characters -/

/-- From `ss` to `tt`, either nothing is asserted and the position is out of range, or one term is
asserted, which is true exactly when `x` is the character at the position, if there is one. -/
def Strings.AssertsCharacter (cut : Slicing) (M : Model) (ss tt : Session) (cs : ByteString)
    (m : Int) (x : UInt8) : Prop :=
  tt.assertions = ss.assertions ∧ ¬ (0 ≤ m ∧ m < cs.length)
  ∨ ∃ g b, tt.assertions = ss.assertions.push ⟨g, .internal⟩
    ∧ tt.evaluateWith cut M g = .ok (some (.bool b))
    ∧ (b = true ↔ (0 ≤ m → m < cs.length → ByteString.charAt? cs m = some x))

/-- A condition that is known to hold says nothing of the character, so the position is out of
range. -/
theorem Strings.Describes.outside (describes : Describes cut ss s i (.known true) tt)
    (hs : ss.Holds s) (hi : ss.Holds i) (string : s.ReadsAs (ss.readingWith cut M) cs)
    (position : i.ReadsAs (ss.readingWith cut M) m) :
  ¬ (0 ≤ m ∧ m < cs.length)
  := by
  rintro ⟨nonneg, below⟩
  have later : ss.nodes.size ≤ ss.next.index := Nat.le_refl _
  -- Whatever value the variable is given, it would have to be the character of the string.
  have every : ∀ y : UInt8, ByteString.charAt? cs m = some y := by
    intro y
    have value : (M.assign ss.next (.char y)).value? ss.next = some (.of .char y) := by
      rw [Model.value?_assign, if_pos rfl]
      rfl
    obtain ⟨v, reads, meaning⟩ := describes.reads
      ((Session.readsWith_assign cut M _ hs later).mpr string)
      ((Session.readsWith_assign cut M _ hi later).mpr position) value
    apply meaning.mp (Eq.symm reads) nonneg below
  cases (every 0).symm.trans (every 1)

/-- Requiring the condition of a character asserts the character. -/
theorem Strings.Describes.require {condition : Value .bool} {x : UInt8}
    (describes : Describes cut ss s i condition tt) (hs : ss.Holds s) (hi : ss.Holds i)
    (string : s.ReadsAs (ss.readingWith cut M) cs) (position : i.ReadsAs (ss.readingWith cut M) m)
    (character : M.value? ss.next = some (.of .char x)) :
  AssertsCharacter cut M ss (Emulation.require condition tt).2 cs m x
  := by
  obtain ⟨known, same⟩ | ⟨-, asserted⟩ := Emulation.require_cases condition tt
  · left
    rw [known] at describes
    rw [same]
    use describes.assertions
    apply describes.outside hs hi string position
  · right
    obtain ⟨b, reads, meaning⟩ := describes.reads string position character
    obtain ⟨shares, wk, -, named⟩ := condition.handle_spec describes.wellKinded describes.holds
    have read := named (wk.interprets_readingWith cut M)
      ((shares.toExtends.readsWith_iff cut M describes.holds).mpr reads)
    have nodes : (Emulation.require condition tt).2.nodes = (condition.handle tt).2.nodes := by
      rw [asserted]
      rfl
    refine ⟨(condition.handle tt).1, b, ?_, ?_, meaning⟩
    · rw [asserted, Session.addAssertion, shares.assertions, describes.assertions]
    · rw [Session.evaluateWith_of_nodes nodes, ← Session.readingWith_eq_some_iff, read]
      rfl

/-- The variable that is concluded has a character as its value, and the assertion is about it. -/
theorem Strings.Describes.conclude {condition : Value .bool} {op : Operator} {gs : List Handle}
    (describes : Describes cut ss s i condition tt) (wk : ss.WellKinded) (hs : ss.Holds s)
    (hi : ss.Holds i) (total : M.Total (Emulation.conclude op gs ss.next condition tt).2) :
  ∃ cs m x, s.ReadsAs (ss.readingWith cut M) cs ∧ i.ReadsAs (ss.readingWith cut M) m
    ∧ (Emulation.conclude op gs ss.next condition tt).2.readingWith cut M ss.next
      = some (.of .char x)
    ∧ AssertsCharacter cut M ss (Emulation.conclude op gs ss.next condition tt).2 cs m x
  := by
  have grows := Emulation.growsTo_require condition tt
  rw [Emulation.conclude_eq] at total ⊢
  have nodes : (Emulation.remember op gs ss.next (Emulation.require condition tt).2).nodes
    = (Emulation.require condition tt).2.nodes := rfl
  have isVariable := grows.node? describes.isVariable
  have required : M.Total (Emulation.require condition tt).2 := total
  have before := (required.of_extends grows.toExtends).of_extends describes.toExtends
  obtain ⟨cs, string⟩ := wk.exists_readsWith cut before hs
  obtain ⟨m, position⟩ := wk.exists_readsWith cut before hi
  obtain ⟨x, character⟩ := required _ _ _ isVariable
  refine ⟨cs, m, x, string, position, Session.readingWith_var isVariable character, ?_⟩
  rw [AssertsCharacter]
  simp only [Session.evaluateWith_of_nodes nodes]
  apply describes.require hs hi string position character

/-- An extraction of a character that is not remembered gives a new variable and asserts that it is
the character. -/
theorem Strings.extract_asserts (exact : cut.Exact) (wk : ss.WellKinded) (hs : ss.Holds s)
    (hi : ss.Holds i) (new : (named s i ss).2.emulated? .charAt
      [(named s i ss).1.1, (named s i ss).1.2] = none) :
  ∃ c, (extract s i ss).1 = .node c ∧ ss.node? c = none
    ∧ ∀ M : Model, M.Total (extract s i ss).2 → ∃ cs m x,
      Evaluation.valueWith cut ss M s = .ok (some cs)
      ∧ Evaluation.valueWith cut ss M i = .ok (some m)
      ∧ Evaluation.valueWith cut (extract s i ss).2 M (extract s i ss).1 = .ok (some x)
      ∧ AssertsCharacter cut M ss (extract s i ss).2 cs m x
  := by
  obtain ⟨shares, wk', -⟩ := named_spec wk hs hi
  have hs' := shares.holds hs
  have hi' := shares.holds hi
  have describes := describes_defined exact wk' hs' hi'
  rw [extract_eq, Emulation.introduce_of_new (characterCondition s i) new]
  refine ⟨(named s i ss).2.next, rfl, Array.getElem?_eq_none shares.sizes.1, ?_⟩
  intro M total
  obtain ⟨cs, m, x, string, position, character, asserts⟩ :=
    describes.conclude wk' hs' hi' total
  rw [AssertsCharacter, shares.assertions] at asserts
  refine ⟨cs, m, x, Evaluation.valueWith_eq_some_iff.mpr ?_,
    Evaluation.valueWith_eq_some_iff.mpr ?_, Evaluation.valueWith_eq_some_iff.mpr character, asserts⟩
  · apply (shares.toExtends.readsWith_iff cut M hs).mp string
  · apply (shares.toExtends.readsWith_iff cut M hi).mp position

/-! ### All values of unspecified slices -/

/-- Whatever values are given to slices that reach out of their strings, in every total model taking
and dropping have the values of their host functions, and so does the rest of a string that is not
empty, as long as the string is short; and the assertion that an extraction adds is true exactly
when the new variable is the character at the position, if there is one. -/
theorem Session.WellKinded.specified_within (wk : ss.WellKinded) (hs : ss.Holds s) (hi : ss.Holds i)
    (w : Slicing) :
  (∀ M : Model, M.Total ss → ∃ cs m,
    Evaluation.valueWith (.within w) ss M s = .ok (some cs)
    ∧ Evaluation.valueWith (.within w) ss M i = .ok (some m)
    ∧ (cs.length < ByteString.indexBound →
      Evaluation.valueWith (.within w) (take i s ss).2 M (take i s ss).1
        = .ok (some (ByteString.take m cs))
      ∧ Evaluation.valueWith (.within w) (drop i s ss).2 M (drop i s ss).1
        = .ok (some (ByteString.drop m cs))
      ∧ ∀ c ds, cs = c :: ds →
        Evaluation.valueWith (.within w) (rest s ss).2 M (rest s ss).1 = .ok (some ds)))
  ∧ ((named s i ss).2.emulated? .charAt [(named s i ss).1.1, (named s i ss).1.2] = none →
    ∃ c, (extract s i ss).1 = .node c ∧ ss.node? c = none
      ∧ ∀ M : Model, M.Total (extract s i ss).2 → ∃ cs m x,
        Evaluation.valueWith (.within w) ss M s = .ok (some cs)
        ∧ Evaluation.valueWith (.within w) ss M i = .ok (some m)
        ∧ Evaluation.valueWith (.within w) (extract s i ss).2 M (extract s i ss).1 = .ok (some x)
        ∧ AssertsCharacter (.within w) M ss (extract s i ss).2 cs m x)
  := by
  have exact : Slicing.Exact (.within w) := Slicing.exact_within w
  constructor
  · intro M total
    obtain ⟨cs, string⟩ := wk.exists_readsWith (.within w) total hs
    obtain ⟨m, position⟩ := wk.exists_readsWith (.within w) total hi
    refine ⟨cs, m, Evaluation.valueWith_eq_some_iff.mpr string,
      Evaluation.valueWith_eq_some_iff.mpr position, ?_⟩
    intro short
    use (computes_take exact wk hi hs).value_part hi hs string position short,
      (computes_drop exact wk hi hs).value_part hi hs string position short
    rintro c ds rfl
    apply value_rest exact wk hs string short
  · intro new
    apply extract_asserts exact wk hs hi new

/-- Taking five characters of a string of two gives the string, also where the slice of five
characters that the term contains is some other string, and the sixth character of the string is a
new variable. -/
theorem Session.specified_within_past_end :
  ∃ (ss : Session) (M : Model) (s : Value .string) (i : Value .int), M.Total ss
    ∧ Evaluation.valueWith (.within fun _ _ _ => [33]) (slice s (.int 0) i ss).2 M
        (slice s (.int 0) i ss).1 = .ok (some [33])
    ∧ Evaluation.valueWith (.within fun _ _ _ => [33]) (take i s ss).2 M (take i s ss).1
        = .ok (some [97, 98])
    ∧ ∃ c, (extract s i ss).1 = .node c ∧ ss.node? c = none
  := by
  let w : Slicing := fun _ _ _ => [33]
  let ss := (Session.declare "i" .int (Session.declare "s" .string {}).2).2
  let M := (Model.assign {} ⟨0⟩ (.string [97, 98])).assign ⟨1⟩ (.int 5)
  have wk : ss.WellKinded :=
    ((wellKinded_empty {}).addVariable "s" .string false).addVariable "i" .int false
  have hs : ss.Holds (.node ⟨0⟩ : Value .string) := rfl
  have hi : ss.Holds (.node ⟨1⟩ : Value .int) := rfl
  have total : M.Total ss := by
    rintro ⟨j⟩ n k hn
    obtain ⟨inside, hn⟩ := Array.getElem?_eq_some_iff.mp hn
    have below : j < 2 := inside
    obtain rfl | rfl : j = 0 ∨ j = 1 := by omega
    all_goals
      cases hn
      exact ⟨_, rfl⟩
  have exact : Slicing.Exact (.within w) := Slicing.exact_within w
  have string : (.node ⟨0⟩ : Value .string).ReadsAs (ss.readingWith (.within w) M) [97, 98] :=
    readingWith_var (n := 0) rfl rfl
  have count : (.node ⟨1⟩ : Value .int).ReadsAs (ss.readingWith (.within w) M) 5 :=
    readingWith_var (n := 1) rfl rfl
  obtain ⟨parts, extracts⟩ := wk.specified_within hs hi w
  obtain ⟨cs, m, hcs, hm, values⟩ := parts M total
  obtain rfl := (Evaluation.valueWith_eq_some_iff.mp hcs).unique string
  obtain rfl := (Evaluation.valueWith_eq_some_iff.mp hm).unique count
  obtain ⟨taken, -⟩ := values (by decide)
  obtain ⟨c, extracted, new, -⟩ := extracts rfl
  refine ⟨ss, M, .node ⟨0⟩, .node ⟨1⟩, total, ?_, taken, c, extracted, new⟩
  have computes := computes_slice exact wk hs (o := .int 0) trivial hi
  have grows := computes.shares.toExtends
  apply computes.value_eq
  exact ⟨[97, 98], 0, 5, (grows.readsWith_iff _ M hs).mpr string, rfl,
    (grows.readsWith_iff _ M hi).mpr count, fun _ => by decide, rfl⟩

end StringTerms
