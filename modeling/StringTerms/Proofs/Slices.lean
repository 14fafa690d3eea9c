import StringTerms.Proofs.Logic
import StringTerms.Proofs.Strings
import StringTerms.Strings.Slice

/-!
# What the slicing operations compute

A slice reads as the value that slices are given, which is that of the host function where the
slice lies in the string.  Taking, dropping and the rest of a non-empty string only use slices of
this sort, so they read as their host functions whatever value the other slices have.
-/

namespace StringTerms.Strings

variable {cut : Slicing} {ss : Session} {s : Value .string} {i o l n : Value .int}
  {p : Value .bool}

/-! ### Slices that lie in the string -/

/-- A slice at the start is a part taken. -/
theorem slice_start {cs : ByteString} {m : Int} (exact : cut.Exact) (nonneg : 0 ≤ m)
    (inside : m ≤ cs.length) (short : cs.length < ByteString.indexBound) :
  cut cs 0 m = ByteString.take m cs
  := by
  apply exact
  · simp [ByteString.slice?, ByteString.take, nonneg, inside]
  · omega

/-- A slice up to the end is what is left after dropping. -/
theorem slice_end {cs : ByteString} {m : Int} (exact : cut.Exact) (nonneg : 0 ≤ m)
    (inside : m ≤ cs.length) (short : cs.length < ByteString.indexBound) :
  cut cs m (cs.length - m) = ByteString.drop m cs
  := by
  apply exact
  · have lies : 0 ≤ m ∧ 0 ≤ (cs.length : Int) - m ∧ m + ((cs.length : Int) - m) ≤ cs.length := by
      omega
    have whole : (List.drop m.toNat cs).length ≤ ((cs.length : Int) - m).toNat := by
      rw [List.length_drop]
      omega
    rw [ByteString.slice?, if_pos lies, List.take_of_length_le whole, ByteString.drop]
  · omega

/-- Taking by cases on the count. -/
theorem take_eq_ite {cs : ByteString} {m : Int} (exact : cut.Exact)
    (short : cs.length < ByteString.indexBound) :
  ByteString.take m cs = if m ≤ 0 then [] else if m ≥ cs.length then cs else cut cs 0 m
  := by
  split
  case isTrue nonpos => rw [ByteString.take, Int.toNat_of_nonpos nonpos, List.take_zero]
  case isFalse positive =>
    split
    case isTrue past =>
      apply List.take_of_length_le
      omega
    case isFalse => rw [slice_start exact (by omega) (by omega) short]

/-- Dropping by cases on the count. -/
theorem drop_eq_ite {cs : ByteString} {m : Int} (exact : cut.Exact)
    (short : cs.length < ByteString.indexBound) :
  ByteString.drop m cs
    = if m ≥ cs.length then [] else if m ≤ 0 then cs else cut cs m (cs.length - m)
  := by
  split
  case isTrue past =>
    apply List.drop_of_length_le
    omega
  case isFalse =>
    split
    case isTrue nonpos => rw [ByteString.drop, Int.toNat_of_nonpos nonpos, List.drop_zero]
    case isFalse => rw [slice_end exact (by omega) (by omega) short]

/-- A slice that lies in a short string, or is short, is made of the characters it selects. -/
theorem slice_inside {cs r : ByteString} {x y : Int} (exact : cut.Exact)
    (bounded : y ≤ cs.length → y < ByteString.indexBound)
    (found : ByteString.slice? cs x y = some r) :
  cut cs x y = r
  := by
  have inside := (ByteString.slice?_isSome_iff cs x y).mp (by simp [found])
  apply exact found
  omega

/-- A length that a short string allows is below the index bound. -/
theorem bounded_of_short {cs : ByteString} {m : Int}
    (short : cs.length < ByteString.indexBound) (fits : m ≤ cs.length) :
  m < ByteString.indexBound
  := by
  omega

/-! ### Operations -/

/-- A length that does not exceed the string is below the index bound. -/
def Bounded : Operands Kind.Carrier [.string, .int, .int] → Prop
  | .three cs _ y => y ≤ cs.length → y < ByteString.indexBound

/-- A slice is folded where it lies in the string, and else left to the reading. -/
theorem computes_slice (exact : cut.Exact) (wk : ss.WellKinded) (hs : ss.Holds s)
    (ho : ss.Holds o) (hl : ss.Holds l) :
  ss.Computes cut (slice s o l) fun R v =>
    ∃ cs x y, s.ReadsAs R cs ∧ o.ReadsAs R x ∧ l.ReadsAs R y
      ∧ (y ≤ cs.length → y < ByteString.indexBound) ∧ v = cut cs x y
  := by
  have held : ss.HoldsAll (.three s o l) := ⟨hs, ho, hl, trivial⟩
  have computes : ss.Computes cut (slice s o l) fun R v =>
      ∃ vs, Operands.ReadAs R (.three s o l) vs ∧ Bounded vs
        ∧ Operator.slice.valueWith cut vs.literals = .ok (.of .string v) := by
    apply wk.computes_compute held .bool rfl rfl
    rintro (_ | ⟨cs, _ | ⟨x, _ | ⟨y, _ | _⟩⟩⟩) v bounded found
    rw [← slice_inside exact bounded found]
    rfl
  apply computes.weaken
  rintro R v - ⟨cs, x, y, hs, ho, hl, bounded, rfl⟩
  use .three cs x y, ⟨hs, ho, hl, trivial⟩, bounded
  rfl

/-- A slice of length one has no bound to keep. -/
theorem computes_sliceAt (exact : cut.Exact) (wk : ss.WellKinded) (hs : ss.Holds s)
    (hi : ss.Holds i) :
  ss.Computes cut (sliceAt s i) fun R v =>
    ∃ cs x, s.ReadsAs R cs ∧ i.ReadsAs R x ∧ v = cut cs x 1
  := by
  apply (computes_slice exact wk hs hi (l := .int 1) trivial).weaken
  rintro R v - ⟨cs, x, hs, hi, rfl⟩
  use cs, x, 1, hs, hi, rfl, fun _ => by decide

/-- The rest of a non-empty string; that of the empty string is a slice out of range. -/
theorem computes_rest (exact : cut.Exact) (wk : ss.WellKinded) (hs : ss.Holds s) :
  ss.Computes cut (rest s) fun R v =>
    ∃ cs, s.ReadsAs R cs ∧ cs.length < ByteString.indexBound
      ∧ v = if cs = [] then cut [] 1 (-1) else ByteString.drop 1 cs
  := by
  apply Session.Computes.get
  split
  case h_1 c ds known =>
    apply Session.Computes.known wk
    rintro R v hR ⟨cs, hs, -, rfl⟩
    rw [hs.eq_known hR known]
    rfl
  case h_2 =>
    apply (computes_length wk hs).bind
    intro n _ shares wk hn
    apply (Arithmetic.computes_subtract wk hn (b := .int 1) trivial).bind
    intro count _ shares' wk hcount
    have hs' := shares'.holds (shares.holds hs)
    apply (computes_slice exact wk hs' (o := .int 1) trivial hcount).weaken
    rintro R v - ⟨readsCount, readsLength, cs, hs, short, rfl⟩
    have hcount := readsCount ⟨_, _, readsLength ⟨cs, hs, rfl⟩, rfl, rfl⟩
    have bounded : (cs.length : Int) - 1 < ByteString.indexBound := by omega
    use cs, 1, cs.length - 1, hs, rfl, hcount, fun _ => bounded
    split
    case isTrue empty =>
      rw [empty]
      rfl
    case isFalse nonempty =>
      have positive := List.length_pos_iff.mpr nonempty
      rw [slice_end exact (by decide) (by omega) short]

/-- The first part of a string, for a count that is past the end or not, but not negative. -/
theorem computes_front (exact : cut.Exact) (wk : ss.WellKinded) (hi : ss.Holds i)
    (hs : ss.Holds s) (hp : ss.Holds p) :
  ss.Computes cut (front i s p) fun R v =>
    ∃ m cs, i.ReadsAs R m ∧ s.ReadsAs R cs ∧ cs.length < ByteString.indexBound
      ∧ p.ReadsAs R (decide (m ≥ cs.length))
      ∧ v = if m ≥ cs.length then cs else cut cs 0 m
  := by
  unfold front
  split
  case isTrue past =>
    apply Session.Computes.value wk hs
    rintro R v - ⟨m, cs, -, hs, -, hp, rfl⟩
    rw [past] at hp
    rwa [if_pos (of_decide_eq_true (Eq.symm hp))]
  case isFalse =>
    apply (computes_slice exact wk hs (o := .int 0) trivial hi).bind
    intro part _ shares wk hpart
    apply (Logic.computes_choose wk (shares.holds hp) (shares.holds hs) hpart).weaken
    rintro R v - ⟨readsPart, m, cs, hi, hs, short, hp, rfl⟩
    use decide (m ≥ cs.length), cs, cut cs 0 m, hp, hs,
      readsPart ⟨cs, 0, m, hs, rfl, hi, bounded_of_short short, rfl⟩
    simp only [decide_eq_true_eq]

/-- Taking is taking on the host, whatever the slices out of range are. -/
theorem computes_take (exact : cut.Exact) (wk : ss.WellKinded) (hi : ss.Holds i)
    (hs : ss.Holds s) :
  ss.Computes cut (take i s) fun R v =>
    ∃ m cs, i.ReadsAs R m ∧ s.ReadsAs R cs ∧ cs.length < ByteString.indexBound
      ∧ v = ByteString.take m cs
  := by
  apply Session.Computes.get
  apply Session.Computes.fold
  · rintro (_ | ⟨m, _ | ⟨cs, _ | _⟩⟩) v known found
    cases found
    apply Session.Computes.known wk.countFold
    rintro R v hR ⟨m', cs', hi, hs, -, rfl⟩
    have read : Operands.ReadAs R (.two i s) (.two m' cs') := ⟨hi, hs, trivial⟩
    cases read.eq_known (hR.of_extends (Session.extends_countFold ss)) known
    rfl
  · apply (Arithmetic.computes_atMost wk hi (b := .int 0) trivial).bind
    intro nonPositive t₁ shares₁ wk hnon
    split
    case isTrue decided =>
      apply Session.Computes.known wk
      rintro R v hR ⟨readsNon, m, cs, hi, hs, short, rfl⟩
      have hnon := readsNon ⟨m, 0, hi, rfl, rfl⟩
      rw [decided] at hnon
      rw [take_eq_ite exact short, if_pos (of_decide_eq_true (Eq.symm hnon))]
    case isFalse =>
      apply (computes_length wk (shares₁.holds hs)).bind
      intro n t₂ step₂ wk hn
      have shares₂ := shares₁.trans step₂
      apply (Arithmetic.computes_atLeast wk (shares₂.holds hi) hn).bind
      intro pastEnd t₃ shares₃ wk hpast
      have kept := step₂.trans shares₃
      have shares₃ := shares₂.trans shares₃
      apply (computes_front exact wk (shares₃.holds hi) (shares₃.holds hs) hpast).bind
      intro part t₄ shares₄ wk hpart
      have held := (kept.trans shares₄).holds hnon
      apply (Logic.computes_choose wk held (x := empty) trivial hpart).weaken
      rintro R v - ⟨readsPart, readsPast, readsLength, readsNon, m, cs, hi, hs, short, rfl⟩
      have hn := readsLength ⟨cs, hs, rfl⟩
      have hpast := readsPast ⟨m, cs.length, hi, hn, rfl⟩
      use decide (m ≤ 0), [], if m ≥ cs.length then cs else cut cs 0 m,
        readsNon ⟨m, 0, hi, rfl, rfl⟩, rfl, readsPart ⟨m, cs, hi, hs, short, hpast, rfl⟩
      simp only [decide_eq_true_eq]
      apply take_eq_ite exact short

/-- What is left of a string behind a count that is negative or not, but not past the end. -/
theorem computes_back (exact : cut.Exact) (wk : ss.WellKinded) (hi : ss.Holds i)
    (hs : ss.Holds s) (hn : ss.Holds n) (hp : ss.Holds p) :
  ss.Computes cut (back i s n p) fun R v =>
    ∃ m cs, i.ReadsAs R m ∧ s.ReadsAs R cs ∧ cs.length < ByteString.indexBound
      ∧ n.ReadsAs R (cs.length : Int) ∧ p.ReadsAs R (decide (m ≤ 0))
      ∧ v = if m ≤ 0 then cs else cut cs m (cs.length - m)
  := by
  unfold back
  split
  case isTrue nonPositive =>
    apply Session.Computes.value wk hs
    rintro R v - ⟨m, cs, -, hs, -, -, hp, rfl⟩
    rw [nonPositive] at hp
    rwa [if_pos (of_decide_eq_true (Eq.symm hp))]
  case isFalse =>
    apply (Arithmetic.computes_subtract wk hn hi).bind
    intro count _ shares wk hcount
    apply (computes_slice exact wk (shares.holds hs) (shares.holds hi) hcount).bind
    intro part _ shares' wk hpart
    have shares := shares.trans shares'
    apply (Logic.computes_choose wk (shares.holds hp) (shares.holds hs) hpart).weaken
    rintro R v - ⟨readsPart, readsCount, m, cs, hi, hs, short, hn, hp, rfl⟩
    have hcount := readsCount ⟨_, _, hn, hi, rfl⟩
    have hpart := readsPart ⟨cs, m, cs.length - m, hs, hi, hcount, bounded_of_short short, rfl⟩
    use decide (m ≤ 0), cs, cut cs m (cs.length - m), hp, hs, hpart
    simp only [decide_eq_true_eq]

/-- Dropping is dropping on the host, whatever the slices out of range are. -/
theorem computes_drop (exact : cut.Exact) (wk : ss.WellKinded) (hi : ss.Holds i)
    (hs : ss.Holds s) :
  ss.Computes cut (drop i s) fun R v =>
    ∃ m cs, i.ReadsAs R m ∧ s.ReadsAs R cs ∧ cs.length < ByteString.indexBound
      ∧ v = ByteString.drop m cs
  := by
  apply Session.Computes.get
  apply Session.Computes.fold
  · rintro (_ | ⟨m, _ | ⟨cs, _ | _⟩⟩) v known found
    cases found
    apply Session.Computes.known wk.countFold
    rintro R v hR ⟨m', cs', hi, hs, -, rfl⟩
    have read : Operands.ReadAs R (.two i s) (.two m' cs') := ⟨hi, hs, trivial⟩
    cases read.eq_known (hR.of_extends (Session.extends_countFold ss)) known
    rfl
  · apply (computes_length wk hs).bind
    intro n t₁ shares₁ wk hn
    apply (Arithmetic.computes_atLeast wk (shares₁.holds hi) hn).bind
    intro pastEnd t₂ shares₂ wk hpast
    have shares₁ := shares₁.trans shares₂
    split
    case isTrue decided =>
      apply Session.Computes.known wk
      rintro R v hR ⟨readsPast, readsLength, m, cs, hi, hs, short, rfl⟩
      have hpast := readsPast ⟨m, cs.length, hi, readsLength ⟨cs, hs, rfl⟩, rfl⟩
      rw [decided] at hpast
      rw [drop_eq_ite exact short, if_pos (of_decide_eq_true (Eq.symm hpast))]
    case isFalse =>
      apply (Arithmetic.computes_atMost wk (shares₁.holds hi) (b := .int 0) trivial).bind
      intro nonPositive t₃ shares₃ wk hnon
      have shares₁ := shares₁.trans shares₃
      have shares₂ := shares₂.trans shares₃
      apply (computes_back exact wk (shares₁.holds hi) (shares₁.holds hs) (shares₂.holds hn)
        hnon).bind
      intro part t₄ shares₄ wk hpart
      have held := (shares₃.trans shares₄).holds hpast
      apply (Logic.computes_choose wk held (x := empty) trivial hpart).weaken
      rintro R v - ⟨readsPart, readsNon, readsPast, readsLength, m, cs, hi, hs, short, rfl⟩
      have hn := readsLength ⟨cs, hs, rfl⟩
      have hnon := readsNon ⟨m, 0, hi, rfl, rfl⟩
      use decide (m ≥ cs.length), [], if m ≤ 0 then cs else cut cs m (cs.length - m),
        readsPast ⟨m, cs.length, hi, hn, rfl⟩, rfl,
        readsPart ⟨m, cs, hi, hs, short, hn, hnon, rfl⟩
      simp only [decide_eq_true_eq]
      apply drop_eq_ite exact short

end StringTerms.Strings
