import StringTerms.Proofs.Emulation
import StringTerms.Proofs.Operation
import StringTerms.Proofs.Valuation

/-!
# Extracting characters

The condition on an extracted character reads as true exactly when the character is the one at the
given position, if that is a position of the string.
-/

namespace StringTerms

open Strings

variable {cut : Slicing} {ss : Session} {s : Value .string} {i : Value .int} {c : Value .char}

/-- Whether a position is one of the string. -/
theorem Strings.computes_isPosition (wk : ss.WellKinded) (hs : ss.Holds s) (hi : ss.Holds i) :
  ss.Computes cut (isPosition s i) fun R v =>
    ∃ cs m, s.ReadsAs R cs ∧ i.ReadsAs R m ∧ v = (decide (0 ≤ m) && decide (m < cs.length))
  := by
  apply (Arithmetic.computes_atMost wk (a := .int 0) trivial hi).bind
  intro nonNegative _ shares₁ wk hnon
  apply (computes_length wk (shares₁.holds hs)).bind
  intro n _ shares₂ wk hn
  apply (Arithmetic.computes_lessThan wk (shares₂.holds (shares₁.holds hi)) hn).bind
  intro below _ shares₃ wk hbelow
  apply (Logic.computes_conjoin wk (shares₃.holds (shares₂.holds hnon)) hbelow).weaken
  rintro R v - ⟨readsBelow, readsLength, readsNon, cs, m, hs, hi, rfl⟩
  use decide (0 ≤ m), decide (m < cs.length), readsNon ⟨0, m, rfl, hi, rfl⟩,
    readsBelow ⟨m, cs.length, hi, readsLength ⟨cs, hs, rfl⟩, rfl⟩

/-- The condition on an extracted character. -/
theorem Strings.computes_characterCondition (exact : cut.Exact) (wk : ss.WellKinded)
    (hs : ss.Holds s) (hi : ss.Holds i) (hc : ss.Holds c) :
  ss.Computes cut (characterCondition s i c) fun R v =>
    ∃ cs m x, s.ReadsAs R cs ∧ i.ReadsAs R m ∧ c.ReadsAs R x
      ∧ v = (!(decide (0 ≤ m) && decide (m < cs.length)) || decide ([x] = cut cs m 1))
  := by
  apply (computes_singleton wk hc).bind
  intro unit _ shares₁ wk hunit
  have hs := shares₁.holds hs
  have hi := shares₁.holds hi
  apply (computes_sliceAt exact wk hs hi).bind
  intro there _ shares₂ wk hthere
  have hs := shares₂.holds hs
  have hi := shares₂.holds hi
  apply (Logic.computes_equal wk (shares₂.holds hunit) hthere).bind
  intro same _ shares₃ wk hsame
  apply (computes_isPosition wk (shares₃.holds hs) (shares₃.holds hi)).bind
  intro inside _ shares₄ wk hinside
  apply (Logic.computes_negate wk hinside).bind
  intro outside _ shares₅ wk houtside
  apply (Logic.computes_disjoin wk houtside (shares₅.holds (shares₄.holds hsame))).weaken
  rintro R v - ⟨readsOutside, readsInside, readsSame, readsThere, readsUnit, cs, m, x, hs, hi, hc,
    rfl⟩
  have hinside := readsInside ⟨cs, m, hs, hi, rfl⟩
  have hunit := readsUnit ⟨x, hc, rfl⟩
  have hthere := readsThere ⟨cs, m, hs, hi, rfl⟩
  use !(decide (0 ≤ m) && decide (m < cs.length)), decide ([x] = cut cs m 1),
    readsOutside ⟨_, hinside, rfl⟩, readsSame ⟨[x], cut cs m 1, hunit, hthere, rfl⟩

/-- There is a character at each position of a string. -/
theorem ByteString.exists_char (s : ByteString) (m : Int) :
  ∃ x, 0 ≤ m → m < s.length → charAt? s m = some x
  := by
  by_cases inside : m.toNat < s.length
  · use s[m.toNat]
    intro nonneg _
    rw [charAt?, if_pos nonneg, List.getElem?_eq_getElem inside]
  · use 0
    intro _ below
    omega

/-- The condition holds exactly when the character is the one at the position, if there is one. -/
theorem ByteString.condition_iff (exact : cut.Exact) (cs : ByteString) (m : Int) (x : UInt8) :
  (!(decide (0 ≤ m) && decide (m < cs.length)) || decide ([x] = cut cs m 1)) = true
    ↔ (0 ≤ m → m < cs.length → charAt? cs m = some x)
  := by
  by_cases inside : 0 ≤ m ∧ m < cs.length
  · obtain ⟨nonneg, below⟩ := inside
    obtain ⟨y, hy⟩ := exists_char cs m
    have hy := hy nonneg below
    have slice : cut cs m 1 = [y] := exact ((charAt?_eq_some_iff cs m y).mp hy) (by decide)
    simp [nonneg, below, slice, hy, eq_comm]
  · have outside : (decide (0 ≤ m) && decide (m < cs.length)) = false := by
      simpa only [Bool.and_eq_false_iff, decide_eq_false_iff_not, ← not_and_or] using inside
    rw [outside]
    constructor
    · intro _ nonneg below
      exact absurd ⟨nonneg, below⟩ inside
    · intro _
      rfl

/-- The nodes of a string and of a position, from left to right, and the session with them. -/
def Strings.named (s : Value .string) (i : Value .int) (ss : Session) :
    (Handle × Handle) × Session :=
  (((s.handle ss).1, (i.handle (s.handle ss).2).1), (i.handle (s.handle ss).2).2)

/-- An extraction introduces a character under the nodes of the string and of the position. -/
theorem Strings.extract_eq (s : Value .string) (i : Value .int) (ss : Session) :
  extract s i ss
    = Emulation.introduce .char .charAt [(named s i ss).1.1, (named s i ss).1.2]
        (characterCondition s i) (named s i ss).2
  := rfl

/-- The string and the position are nodes of their kinds, which read as they do. -/
theorem Strings.named_spec (wk : ss.WellKinded) (hs : ss.Holds s) (hi : ss.Holds i) :
  ss.Shares (named s i ss).2 ∧ (named s i ss).2.WellKinded
    ∧ (named s i ss).2.kind? (named s i ss).1.1 = some .string
    ∧ (named s i ss).2.kind? (named s i ss).1.2 = some .int
    ∧ ∀ {R : Reading} {cut cs m}, R.Interprets cut (named s i ss).2 → s.ReadsAs R cs →
        i.ReadsAs R m →
        R (named s i ss).1.1 = some (.string cs) ∧ R (named s i ss).1.2 = some (.int m)
  := by
  obtain ⟨shares₁, wk₁, kind₁, reads₁⟩ := s.handle_spec wk hs
  obtain ⟨shares₂, wk₂, kind₂, reads₂⟩ := i.handle_spec wk₁ (shares₁.holds hi)
  use shares₁.trans shares₂, wk₂, shares₂.kind? kind₁, kind₂
  intro R cut cs m hR hs hi
  use reads₁ (hR.of_extends shares₂.toExtends) hs, reads₂ hR hi

/-- The condition on a character has the value that says that it is the one at the position. -/
theorem Strings.reads_characterCondition (exact : cut.Exact) (wk : ss.WellKinded) (hs : ss.Holds s)
    (hi : ss.Holds i) (hc : ss.Holds c) {M : Model} {cs : ByteString} {m : Int} {x : UInt8}
    (string : s.ReadsAs (ss.readingWith cut M) cs) (position : i.ReadsAs (ss.readingWith cut M) m)
    (character : c.ReadsAs (ss.readingWith cut M) x) :
  ∃ v, (characterCondition s i c ss).1.ReadsAs ((characterCondition s i c ss).2.readingWith cut M) v
    ∧ (v = true ↔ (0 ≤ m → m < cs.length → ByteString.charAt? cs m = some x))
  := by
  have computes := computes_characterCondition exact wk hs hi hc
  have grows := computes.shares.toExtends
  refine ⟨_, computes.reads (computes.wellKinded.interprets_readingWith cut M)
    ⟨cs, m, x, ?_, ?_, ?_, rfl⟩, ByteString.condition_iff exact cs m x⟩
  · apply (grows.readsWith_iff cut M hs).mpr string
  · apply (grows.readsWith_iff cut M hi).mpr position
  · apply (grows.readsWith_iff cut M hc).mpr character

/-- The session `tt` has the next variable of `ss`, and the condition says that this is the
character at position `i` of `s`, if that is a position of `s`. -/
structure Strings.Describes (cut : Slicing) (ss : Session) (s : Value .string) (i : Value .int)
    (condition : Value .bool) (tt : Session) : Prop extends ss.Extends tt where
  assertions : tt.assertions = ss.assertions
  emulations : tt.emulations = ss.emulations
  wellKinded : tt.WellKinded
  isVariable : tt.node? ss.next = some (.var ss.vars.size .char)
  holds : tt.Holds condition
  reads : ∀ {M : Model} {cs m x}, s.ReadsAs (ss.readingWith cut M) cs →
    i.ReadsAs (ss.readingWith cut M) m → M.value? ss.next = some (.of .char x) →
    ∃ v, condition.ReadsAs (tt.readingWith cut M) v
      ∧ (v = true ↔ (0 ≤ m → m < cs.length → ByteString.charAt? cs m = some x))

/-- The definition of a character describes it. -/
theorem Strings.describes_defined (exact : cut.Exact) (wk : ss.WellKinded) (hs : ss.Holds s)
    (hi : ss.Holds i) :
  Describes cut ss s i (Emulation.defined (characterCondition s i) ss).1
    (Emulation.defined (characterCondition s i) ss).2
  := by
  have grows := Session.growsTo_freshInternal .char ss
  have wk : (Session.freshInternal .char ss).2.WellKinded := wk.addVariable _ .char true
  have node : (Session.freshInternal .char ss).2.node? ss.next = some (.var ss.vars.size .char) :=
    (Session.node?_addVariable _ .char true ss ss.next).trans (if_pos rfl)
  have hc : (Session.freshInternal .char ss).2.Holds (.node ss.next : Value .char) :=
    Session.kind?_of_node? node
  have hs' := grows.holds hs
  have hi' := grows.holds hi
  have computes := computes_characterCondition exact wk hs' hi' hc
  constructor
  · apply grows.toExtends.trans computes.shares.toExtends
  · apply computes.shares.assertions
  · apply computes.shares.emulations.trans grows.emulations
  · apply computes.wellKinded
  · apply computes.shares.node? node
  · apply computes.holds
  · intro M cs m x string position value
    apply reads_characterCondition exact wk hs' hi' hc
    · apply (grows.readsWith_iff cut M hs).mpr string
    · apply (grows.readsWith_iff cut M hi).mpr position
    · apply Session.readingWith_var node value

end StringTerms
