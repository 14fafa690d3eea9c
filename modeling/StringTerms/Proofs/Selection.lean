import Mathlib.Tactic.ByContra
import StringTerms.Evaluation.Operator

/-!
# What a slice selects

In SMT-LIB 2 a slice is empty where its offset is no position of the string or its length is not
positive, and else it is the longest string of at most this length that starts at the offset.  This
is the part of the string between the offset and the end of the slice, or of the string if that is
reached first.  The evaluator selects it for all integers, but for one case: from a position of the
string on it selects nothing where the length is not below the index bound.
-/

namespace StringTerms.ByteString

variable {s r t : ByteString} {o l : Int}

/-- `r` starts at the offset `o` of `s` and has at most `l` characters. -/
def StartsAt (s : ByteString) (o l : Int) (r : ByteString) : Prop :=
  r <+: drop o s ∧ r.length ≤ l

/-- `r` is what SMT-LIB 2 selects from `s` at the offset `o` with the length `l`. -/
structure Selects (s : ByteString) (o l : Int) (r : ByteString) : Prop where
  nothing : o < 0 ∨ s.length ≤ o ∨ l ≤ 0 → r = []
  starts : 0 ≤ o → o < s.length → 0 < l → StartsAt s o l r
  longest : 0 ≤ o → o < s.length → 0 < l → ∀ t, StartsAt s o l t → t.length ≤ r.length

/-- The part of a string from the position `i` up to the position `j`. -/
def between (s : ByteString) (i j : Int) : ByteString := drop i (take j s)

/-- The part between an offset and the end of the slice or of the string is what a length takes from
the offset on. -/
theorem between_eq_take (nonneg : 0 ≤ o) (positive : 0 < l) :
  between s o (min (o + l) s.length) = take l (drop o s)
  := by
  have length : (min (o + l) s.length).toNat - o.toNat
      = min l.toNat (List.drop o.toNat s).length := by
    rw [List.length_drop]
    omega
  rw [between, take, drop, List.drop_take, length, ← List.take_eq_take_min, take, drop]

/-- What a length takes starts at the offset. -/
theorem startsAt_take (positive : 0 < l) :
  StartsAt s o l (take l (drop o s))
  := by
  constructor
  · apply List.take_prefix
  · rw [length_take_eq]
    omega

/-- Whatever starts at the offset, with at most this length, is a part of what the length takes. -/
theorem StartsAt.isPrefix_take (starts : StartsAt s o l t) :
  t <+: take l (drop o s)
  := by
  obtain ⟨isPrefix, short⟩ := starts
  rw [take, List.prefix_take_iff]
  constructor
  · apply isPrefix
  · omega

/-- What is selected is the part between the offset and the end of the slice or of the string. -/
theorem selects_iff :
  Selects s o l r
    ↔ r = if 0 ≤ o ∧ o < s.length ∧ 0 < l then between s o (min (o + l) s.length) else []
  := by
  split
  case isFalse outside =>
    have outside : o < 0 ∨ s.length ≤ o ∨ l ≤ 0 := by omega
    constructor
    · intro selects
      apply selects.nothing outside
    · rintro rfl
      constructor
      · intro _
        rfl
      all_goals omega
  case isTrue inside =>
    obtain ⟨nonneg, before, positive⟩ := inside
    rw [between_eq_take nonneg positive]
    constructor
    · intro selects
      -- Of two prefixes of one string the shorter one is a prefix of the longer one.
      have shorter := (selects.starts nonneg before positive).isPrefix_take
      have longer := selects.longest nonneg before positive _ (startsAt_take positive)
      apply shorter.eq_of_length_le longer
    · rintro rfl
      constructor
      · omega
      · intro _ _ _
        apply startsAt_take positive
      · intro _ _ _ t starts
        apply starts.isPrefix_take.length_le

/-- Below the index bound a slice is the part that is selected. -/
theorem selects_slice (bounded : l < indexBound) :
  Selects s o l (slice s o l)
  := by
  rw [selects_iff, slice]
  by_cases inside : 0 ≤ o ∧ o < s.length ∧ 0 < l
  · obtain ⟨nonneg, before, positive⟩ := inside
    rw [if_pos ⟨nonneg, positive, bounded⟩, if_pos ⟨nonneg, before, positive⟩,
      between_eq_take nonneg positive, take, drop]
  · rw [if_neg inside]
    split
    case isFalse => rfl
    case isTrue valid =>
      have past : s.length ≤ o.toNat := by omega
      rw [List.drop_of_length_le past, List.take_nil]

/-- From the index bound on a slice is empty. -/
theorem slice_of_indexBound_le (long : indexBound ≤ l) :
  slice s o l = []
  := by
  rw [slice, if_neg]
  omega

/-- At a position of the string something is selected. -/
theorem Selects.ne_nil (selects : Selects s o l r) (nonneg : 0 ≤ o) (before : o < s.length)
    (positive : 0 < l) :
  r ≠ []
  := by
  intro empty
  have longest := selects.longest nonneg before positive _ (startsAt_take positive)
  rw [empty, take, List.length_take, drop, List.length_drop, List.length_nil] at longest
  omega

/-- The value of a slice is what SMT-LIB 2 selects, the part between two positions or nothing, for
all integers except for a length that is not below the index bound at a position of the string. -/
theorem selects_slice_iff (s : ByteString) (o l : Int) :
  (∀ r, Selects s o l r
    ↔ r = if 0 ≤ o ∧ o < s.length ∧ 0 < l then between s o (min (o + l) s.length) else [])
  ∧ Operator.slice.valueAt [.string s, .int o, .int l] = .ok (.string (slice s o l))
  ∧ (Selects s o l (slice s o l) ↔ o < 0 ∨ s.length ≤ o ∨ l < indexBound)
  ∧ (Selects s o l (slice s o l) ∨ slice s o l = [])
  := by
  refine ⟨fun _ => selects_iff, rfl, ?_, ?_⟩
  · constructor
    · intro selects
      by_contra inside
      obtain ⟨nonneg, before, long⟩ : 0 ≤ o ∧ o < s.length ∧ indexBound ≤ l := by omega
      have bound : 0 < indexBound := by decide
      have positive : 0 < l := by omega
      exact selects.ne_nil nonneg before positive (slice_of_indexBound_le long)
    · intro inside
      by_cases bounded : l < indexBound
      · apply selects_slice bounded
      · have outside : ¬ (0 ≤ o ∧ o < s.length ∧ 0 < l) := by omega
        rw [selects_iff, if_neg outside]
        apply slice_of_indexBound_le (Int.not_lt.mp bounded)
  · by_cases bounded : l < indexBound
    · exact Or.inl (selects_slice bounded)
    · exact Or.inr (slice_of_indexBound_le (Int.not_lt.mp bounded))

end StringTerms.ByteString
