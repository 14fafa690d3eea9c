import StringTerms.Proofs.Logic
import StringTerms.Strings.Basic
import StringTerms.Strings.Numeral
import StringTerms.Strings.Search

/-!
# What the string operations compute

Length, concatenation, singletons, search, replacement and numerals read as their host functions
applied to what the operands read as.  The shortcuts for the empty string, for a string that is
longer than the one it is replaced in and for a position outside the string agree with these.
-/

namespace StringTerms.Strings

variable {cut : Slicing} {ss : Session} {s t u : Value .string} {c : Value .char} {n i : Value .int}

/-! ### Basic operations -/

theorem computes_length (wk : ss.WellKinded) (hs : ss.Holds s) :
  ss.Computes cut (length s) fun R v => ∃ cs, s.ReadsAs R cs ∧ v = (cs.length : Int)
  := wk.computes_one hs .bool rfl rfl (fun _ => rfl) (fun _ => rfl)

theorem computes_singleton (wk : ss.WellKinded) (hc : ss.Holds c) :
  ss.Computes cut (singleton c) fun R v => ∃ x, c.ReadsAs R x ∧ v = [x]
  := wk.computes_one hc .bool rfl rfl (fun _ => rfl) (fun _ => rfl)

/-- A string that is known to be empty reads as the empty string. -/
theorem reads_nil_of_knownEmpty {R : Reading} {cs : ByteString} (hR : R.Interprets cut ss)
    (h : knownEmpty ss s = true) (hs : s.ReadsAs R cs) :
  cs = []
  := by
  unfold knownEmpty at h
  split at h
  case h_1 ds known =>
    rw [hs.eq_known hR known]
    apply List.isEmpty_iff.mp h
  case h_2 => cases h

theorem computes_isEmpty (wk : ss.WellKinded) (hs : ss.Holds s) :
  ss.Computes cut (isEmpty s) fun R v => ∃ cs, s.ReadsAs R cs ∧ v = cs.isEmpty
  := by
  apply Session.Computes.get
  split
  case h_1 ds known =>
    apply Session.Computes.known wk
    rintro R v hR ⟨cs, hs, rfl⟩
    rw [hs.eq_known hR known]
  case h_2 =>
    have he : ss.Holds empty := trivial
    apply (Logic.computes_equal wk hs he).weaken
    rintro R v - ⟨cs, hs, rfl⟩
    use cs, [], hs, rfl
    cases cs <;> rfl

theorem computes_append (wk : ss.WellKinded) (hs : ss.Holds s) (ht : ss.Holds t) :
  ss.Computes cut (append s t) fun R v => ∃ x y, s.ReadsAs R x ∧ t.ReadsAs R y ∧ v = x ++ y
  := by
  apply Session.Computes.get
  split
  case isTrue left =>
    apply Session.Computes.value wk ht
    rintro R v hR ⟨x, y, hx, hy, rfl⟩
    simpa [reads_nil_of_knownEmpty hR left hx] using hy
  case isFalse =>
    split
    case isTrue right =>
      apply Session.Computes.value wk hs
      rintro R v hR ⟨x, y, hx, hy, rfl⟩
      simpa [reads_nil_of_knownEmpty hR right hy] using hx
    case isFalse => apply wk.computes_two hs ht .bool rfl rfl (fun _ _ => rfl) (fun _ _ => rfl)

/-! ### Lists of strings and of characters -/

/-- Appending strings to a first one, from left to right, reads as their concatenation. -/
theorem computes_foldlM_append (parts : List (Value .string)) (wk : ss.WellKinded)
    (hs : ss.Holds s) (hp : ∀ t ∈ parts, ss.Holds t) :
  ss.Computes cut (parts.foldlM append s) fun R v =>
    ∃ x xs, s.ReadsAs R x ∧ List.Forall₂ (Value.ReadsAs R) parts xs ∧ v = x ++ xs.flatten
  := by
  induction parts generalizing ss s with
  | nil =>
      apply Session.Computes.value wk hs
      rintro R v - ⟨x, xs, hx, ⟨⟩, rfl⟩
      simpa using hx
  | cons t parts ih =>
      rw [List.foldlM_cons]
      apply (computes_append wk hs (hp t List.mem_cons_self)).bind
      intro st tt shares wk' hst
      apply (ih wk' hst fun t' mem => shares.holds (hp t' (List.mem_cons_of_mem _ mem))).weaken
      rintro R v - ⟨reads, x, xs, hx, hxs, rfl⟩
      cases hxs with
      | @cons _ y _ ys head tail =>
          use x ++ y, ys, reads ⟨x, y, hx, head, rfl⟩, tail
          simp

theorem computes_join (parts : List (Value .string)) (wk : ss.WellKinded)
    (hp : ∀ t ∈ parts, ss.Holds t) :
  ss.Computes cut (join parts) fun R v =>
    ∃ xs, List.Forall₂ (Value.ReadsAs R) parts xs ∧ v = xs.flatten
  := by
  have he : ss.Holds empty := trivial
  apply (computes_foldlM_append parts wk he hp).weaken
  rintro R v - ⟨xs, hx, rfl⟩
  use [], xs, rfl, hx
  rfl

/-- Characters that are all known read as what is known of them. -/
theorem reads_eq_of_known {R : Reading} {cs : List (Value .char)} {us xs : ByteString}
    (hR : R.Interprets cut ss) (known : cs.mapM (Value.known? ss) = some us)
    (hx : List.Forall₂ (Value.ReadsAs R) cs xs) :
  xs = us
  := by
  induction hx generalizing us with
  | nil =>
      cases known
      rfl
  | cons head _ ih =>
      rw [List.mapM_cons] at known
      obtain ⟨u, hu, known⟩ := Option.bind_eq_some_iff.mp known
      obtain ⟨us, hus, known⟩ := Option.bind_eq_some_iff.mp known
      cases known
      rw [head.eq_known hR hu, ih hus]

/-- Putting characters before the empty string, from the last one on, reads as the string of
them. -/
theorem computes_foldrM_singleton (cs : List (Value .char)) (wk : ss.WellKinded)
    (hc : ∀ c ∈ cs, ss.Holds c) :
  ss.Computes cut (cs.foldrM (fun c rest => do append (← singleton c) rest) empty) fun R v =>
    List.Forall₂ (Value.ReadsAs R) cs v
  := by
  induction cs generalizing ss with
  | nil =>
      apply Session.Computes.value wk (a := empty) trivial
      rintro R v - ⟨⟩
      rfl
  | cons c cs ih =>
      rw [List.foldrM_cons]
      apply (ih wk fun c' mem => hc c' (List.mem_cons_of_mem _ mem)).bind
      intro rest tt shares wk' hrest
      apply (computes_singleton wk' (shares.holds (hc c List.mem_cons_self))).bind
      intro unit uu shares' wk'' hunit
      apply (computes_append wk'' hunit (shares'.holds hrest)).weaken
      rintro R v - ⟨readsUnit, readsRest, hv⟩
      cases hv with
      | @cons _ x _ xs head tail =>
          use [x], xs, readsUnit ⟨x, head, rfl⟩, readsRest tail
          rfl

theorem computes_ofChars (cs : List (Value .char)) (wk : ss.WellKinded)
    (hc : ∀ c ∈ cs, ss.Holds c) :
  ss.Computes cut (ofChars cs) fun R v => List.Forall₂ (Value.ReadsAs R) cs v
  := by
  apply Session.Computes.get
  apply Session.Computes.fold
  · intro us u known found
    cases found
    apply Session.Computes.known wk.countFold
    intro R v hR hv
    symm
    apply reads_eq_of_known (hR.of_extends (Session.extends_countFold ss)) known hv
  · apply computes_foldrM_singleton cs wk hc

/-! ### Numerals and codes -/

theorem computes_toInt (wk : ss.WellKinded) (hs : ss.Holds s) :
  ss.Computes cut (toInt s) fun R v => ∃ cs, s.ReadsAs R cs ∧ v = ByteString.toInt cs
  := wk.computes_one hs .bool rfl rfl (fun _ => rfl) (fun _ => rfl)

theorem computes_ofInt (wk : ss.WellKinded) (hn : ss.Holds n) :
  ss.Computes cut (ofInt n) fun R v => ∃ x, n.ReadsAs R x ∧ v = ByteString.ofInt x
  := wk.computes_one hn .bool rfl rfl (fun _ => rfl) (fun _ => rfl)

theorem computes_code (wk : ss.WellKinded) (hc : ss.Holds c) :
  ss.Computes cut (code c) fun R v => ∃ x, c.ReadsAs R x ∧ v = (x.toNat : Int)
  := wk.computes_one hc .bool rfl rfl (fun _ => rfl) (fun _ => rfl)

/-- The comparisons of the code of a character say whether it is a digit. -/
theorem isDigit_eq (x : UInt8) :
  ByteString.isDigit x = (decide ((x.toNat : Int) ≥ 48) && decide ((x.toNat : Int) ≤ 57))
  := by
  have h48 : (48 : UInt8).toNat = 48 := rfl
  have h57 : (57 : UInt8).toNat = 57 := rfl
  rw [Bool.eq_iff_iff]
  simp only [ByteString.isDigit, UInt8.le_iff_toNat_le, Bool.and_eq_true, decide_eq_true_eq]
  omega

theorem computes_isDigit (wk : ss.WellKinded) (hc : ss.Holds c) :
  ss.Computes cut (isDigit c) fun R v => ∃ x, c.ReadsAs R x ∧ v = ByteString.isDigit x
  := by
  apply (computes_code wk hc).bind
  intro code _ shares wk hcode
  apply (Arithmetic.computes_atLeast wk hcode (b := .int 48) trivial).bind
  intro low _ shares' wk hlow
  apply (Arithmetic.computes_atMost wk (shares'.holds hcode) (b := .int 57) trivial).bind
  intro high _ shares'' wk hhigh
  apply (Logic.computes_conjoin wk (shares''.holds hlow) hhigh).weaken
  rintro R v - ⟨readsHigh, readsLow, readsCode, x, hx, rfl⟩
  have hx := readsCode ⟨x, hx, rfl⟩
  use decide ((x.toNat : Int) ≥ 48), decide ((x.toNat : Int) ≤ 57), readsLow ⟨_, _, hx, rfl, rfl⟩,
    readsHigh ⟨_, _, hx, rfl, rfl⟩, isDigit_eq x

/-! ### Search -/

/-- The empty string occurs in every string. -/
theorem contains_nil (y : ByteString) :
  ByteString.contains [] y = true
  := by
  simp [ByteString.contains, ByteString.occurrence?_nil_left]

theorem computes_contains (wk : ss.WellKinded) (ht : ss.Holds t) (hs : ss.Holds s) :
  ss.Computes cut (contains t s) fun R v =>
    ∃ x y, t.ReadsAs R x ∧ s.ReadsAs R y ∧ v = ByteString.contains x y
  := by
  apply Session.Computes.get
  split
  case isTrue nothing =>
    apply Session.Computes.known wk
    rintro R v hR ⟨x, y, hx, -, rfl⟩
    rw [reads_nil_of_knownEmpty hR nothing hx, contains_nil]
  case isFalse =>
    apply (wk.computes_two hs ht .bool rfl rfl (fun _ _ => rfl) (fun _ _ => rfl)).weaken
    rintro R v - ⟨x, y, hx, hy, rfl⟩
    use y, x, hy, hx

theorem computes_startsWith (wk : ss.WellKinded) (ht : ss.Holds t) (hs : ss.Holds s) :
  ss.Computes cut (startsWith t s) fun R v =>
    ∃ x y, t.ReadsAs R x ∧ s.ReadsAs R y ∧ v = ByteString.startsWith x y
  := by
  apply Session.Computes.get
  split
  case isTrue nothing =>
    apply Session.Computes.known wk
    rintro R v hR ⟨x, y, hx, -, rfl⟩
    rw [reads_nil_of_knownEmpty hR nothing hx]
    rfl
  case isFalse => apply wk.computes_two ht hs .bool rfl rfl (fun _ _ => rfl) (fun _ _ => rfl)

theorem computes_endsWith (wk : ss.WellKinded) (ht : ss.Holds t) (hs : ss.Holds s) :
  ss.Computes cut (endsWith t s) fun R v =>
    ∃ x y, t.ReadsAs R x ∧ s.ReadsAs R y ∧ v = ByteString.endsWith x y
  := by
  apply Session.Computes.get
  split
  case isTrue nothing =>
    apply Session.Computes.known wk
    rintro R v hR ⟨x, y, hx, -, rfl⟩
    rw [reads_nil_of_knownEmpty hR nothing hx]
    simp [ByteString.endsWith, List.isSuffixOf]
  case isFalse => apply wk.computes_two ht hs .bool rfl rfl (fun _ _ => rfl) (fun _ _ => rfl)

/-- The empty string is replaced at the start. -/
theorem replaceFirst_nil (y z : ByteString) :
  ByteString.replaceFirst y [] z = z ++ y
  := by
  simp [ByteString.replaceFirst, ByteString.occurrence?_nil_left]

/-- A longer string does not occur, so it is not replaced. -/
theorem replaceFirst_of_length_lt {x y z : ByteString} (h : x.length < y.length) :
  ByteString.replaceFirst x y z = x
  := by
  unfold ByteString.replaceFirst
  split
  case h_1 i found =>
    have bound := ByteString.occurrence?_add_length_le found
    omega
  case h_2 => rfl

/-- A string that is known to be shorter reads as a shorter string. -/
theorem length_lt_of_knownShorter {R : Reading} {x y : ByteString} (hR : R.Interprets cut ss)
    (h : knownShorter ss s t = true) (hx : s.ReadsAs R x) (hy : t.ReadsAs R y) :
  x.length < y.length
  := by
  unfold knownShorter at h
  split at h
  case h_1 cs ds left right =>
    rw [hx.eq_known hR left, hy.eq_known hR right]
    simpa using h
  case h_2 => cases h

theorem computes_replaceFirst (wk : ss.WellKinded) (hs : ss.Holds s) (ht : ss.Holds t)
    (hu : ss.Holds u) :
  ss.Computes cut (replaceFirst s t u) fun R v =>
    ∃ x y z, s.ReadsAs R x ∧ t.ReadsAs R y ∧ u.ReadsAs R z ∧ v = ByteString.replaceFirst x y z
  := by
  apply Session.Computes.get
  split
  case isTrue nothing =>
    apply (computes_append wk hu hs).weaken
    rintro R v hR ⟨x, y, z, hx, hy, hz, rfl⟩
    use z, x, hz, hx
    rw [reads_nil_of_knownEmpty hR nothing hy, replaceFirst_nil]
  case isFalse =>
    split
    case isTrue shorter =>
      apply Session.Computes.value wk hs
      rintro R v hR ⟨x, y, z, hx, hy, hz, rfl⟩
      rwa [replaceFirst_of_length_lt (length_lt_of_knownShorter hR shorter hx hy)]
    case isFalse =>
      apply wk.computes_three hs ht hu .bool rfl rfl (fun _ _ _ => rfl) (fun _ _ _ => rfl)

/-- The empty string is nowhere replaced. -/
theorem replaceAll_nil (x z : ByteString) :
  ByteString.replaceAll x [] z = x
  := by
  simp [ByteString.replaceAll]

theorem computes_replaceAll (wk : ss.WellKinded) (hs : ss.Holds s) (ht : ss.Holds t)
    (hu : ss.Holds u) :
  ss.Computes cut (replaceAll s t u) fun R v =>
    ∃ x y z, s.ReadsAs R x ∧ t.ReadsAs R y ∧ u.ReadsAs R z ∧ v = ByteString.replaceAll x y z
  := by
  apply Session.Computes.get
  split
  case isTrue nothing =>
    apply Session.Computes.value wk hs
    rintro R v hR ⟨x, y, z, hx, hy, hz, rfl⟩
    rwa [reads_nil_of_knownEmpty hR nothing hy, replaceAll_nil]
  case isFalse =>
    apply wk.computes_three hs ht hu .bool rfl rfl (fun _ _ _ => rfl) (fun _ _ _ => rfl)

/-- From a position that is known to be outside there is no occurrence. -/
theorem indexOfFrom_of_knownOutside {R : Reading} {x y : ByteString} {j : Int}
    (hR : R.Interprets cut ss) (h : knownOutside ss s i = true) (hx : s.ReadsAs R x)
    (hj : i.ReadsAs R j) :
  ByteString.indexOfFrom x y j = -1
  := by
  unfold knownOutside at h
  split at h
  case h_1 cs m left right =>
    obtain rfl : x = cs := hx.eq_known hR left
    obtain rfl : j = m := hj.eq_known hR right
    have outside : j < 0 ∨ (x.length : Int) < j := by simpa using h
    unfold ByteString.indexOfFrom
    rw [if_neg]
    omega
  case h_2 => cases h

theorem computes_indexOfFrom (wk : ss.WellKinded) (hs : ss.Holds s) (ht : ss.Holds t)
    (hi : ss.Holds i) :
  ss.Computes cut (indexOfFrom s t i) fun R v =>
    ∃ x y j, s.ReadsAs R x ∧ t.ReadsAs R y ∧ i.ReadsAs R j ∧ v = ByteString.indexOfFrom x y j
  := by
  apply Session.Computes.get
  split
  case isTrue outside =>
    apply Session.Computes.known wk
    rintro R v hR ⟨x, y, j, hx, -, hj, rfl⟩
    rw [indexOfFrom_of_knownOutside hR outside hx hj]
  case isFalse =>
    apply wk.computes_three hs ht hi .bool rfl rfl (fun _ _ _ => rfl) (fun _ _ _ => rfl)

theorem computes_indexOf (wk : ss.WellKinded) (hs : ss.Holds s) (ht : ss.Holds t) :
  ss.Computes cut (indexOf s t) fun R v =>
    ∃ x y, s.ReadsAs R x ∧ t.ReadsAs R y ∧ v = ByteString.indexOf x y
  := by
  apply Session.Computes.get
  apply Session.Computes.fold
  · rintro (_ | ⟨x, _ | ⟨y, _ | _⟩⟩) v known found
    cases found
    apply Session.Computes.known wk.countFold
    rintro R v hR ⟨x', y', hx, hy, rfl⟩
    have read : Operands.ReadAs R (.two s t) (.two x' y') := ⟨hx, hy, trivial⟩
    cases read.eq_known (hR.of_extends (Session.extends_countFold ss)) known
    rfl
  · apply (computes_indexOfFrom wk hs ht (i := .int 0) trivial).weaken
    rintro R v - ⟨x, y, hx, hy, rfl⟩
    use x, y, 0, hx, hy, rfl
    rfl

end StringTerms.Strings
