import Mathlib.Tactic.Ring
import StringTerms.ByteString.Slice
import StringTerms.Proofs.Occurrences

/-!
# Replacement of all occurrences

Where the first occurrence of a string, the first one behind it, and so on are cut out of another
string, pieces of that string are left.  Replacing all occurrences puts the replacement between
these pieces.  A scan along the positions of the string does the same, with one search for each
occurrence and a last one that fails, and copies nothing that does not lie in the string.
-/

namespace StringTerms.ByteString

variable {s r old new sub u v : ByteString} {us : List ByteString} {i start : Int} {k : Nat}

/-! ### Pieces -/

/-- How many characters the pieces take up, with an occurrence behind each of them. -/
def reach (sub : ByteString) (us : List ByteString) : Int := (us.flatMap (· ++ sub)).length

/-- The pieces `us` and the last piece `u` are left of `s` when `sub` is cut out from left to right.
Each occurrence is the first one behind the previous, and there is none in the last piece. -/
structure Pieces (s sub : ByteString) (us : List ByteString) (u : ByteString) : Prop where
  joined : s = sub.intercalate (us ++ [u])
  leftmost : ∀ before v after, us = before ++ v :: after →
    IsLeast (occurrences s sub (reach sub before)) (reach sub before + v.length)
  last : occurrences u sub 0 = ∅

theorem reach_nil :
  reach sub [] = 0
  := rfl

theorem reach_cons :
  reach sub (v :: us) = (v ++ sub).length + reach sub us
  := by
  simp [reach, Int.add_assoc]

theorem reach_nonneg :
  0 ≤ reach sub us
  := Int.natCast_nonneg _

/-- Text in front of a string shifts the occurrences in the string. -/
theorem mem_occurrences_append_iff (nonneg : 0 ≤ i) :
  (u.length : Int) + i ∈ occurrences (u ++ r) sub (u.length + start) ↔ i ∈ occurrences r sub start
  := by
  have position : ((u.length : Int) + i).toNat = u.length + i.toNat := by omega
  have rest : drop (u.length + i) (u ++ r) = drop i r := by
    rw [drop, drop, position, List.drop_length_add_append]
  simp only [occurrences, Set.mem_ofPred_eq, rest, List.length_append, Int.natCast_add,
    Int.add_le_add_iff_left]

theorem isLeast_occurrences_append_iff (nonneg : 0 ≤ start) :
  IsLeast (occurrences (u ++ r) sub (u.length + start)) (u.length + i)
    ↔ IsLeast (occurrences r sub start) i
  := by
  constructor
  · rintro ⟨occurs, least⟩
    have after : (u.length : Int) + start ≤ u.length + i := occurs.1
    refine ⟨(mem_occurrences_append_iff (by omega)).mp occurs, ?_⟩
    intro j occurs'
    have after' : start ≤ j := occurs'.1
    have bound := least ((mem_occurrences_append_iff (by omega)).mpr occurs')
    omega
  · rintro ⟨occurs, least⟩
    have after : start ≤ i := occurs.1
    refine ⟨(mem_occurrences_append_iff (by omega)).mpr occurs, ?_⟩
    intro j occurs'
    have after' : (u.length : Int) + start ≤ j := occurs'.1
    obtain ⟨d, rfl⟩ : ∃ d, j = u.length + d := ⟨j - u.length, by omega⟩
    have bound := least ((mem_occurrences_append_iff (by omega)).mp occurs')
    omega

theorem occurrence?_eq_none_iff :
  occurrence? sub s = none ↔ occurrences s sub 0 = ∅
  := by
  have inside : (0 : Int) ≤ s.length := Int.natCast_nonneg _
  constructor
  · intro missing
    exact occurrences_eq_empty le_rfl inside missing
  · intro nowhere
    cases found : occurrence? sub s with
    | none => rfl
    | some k =>
        have occurs := (isLeast_occurrences le_rfl inside found).1
        rw [nowhere] at occurs
        cases occurs

theorem occurrence?_eq_some_iff :
  occurrence? sub s = some k ↔ IsLeast (occurrences s sub 0) k
  := by
  have inside : (0 : Int) ≤ s.length := Int.natCast_nonneg _
  constructor
  · intro found
    simpa using isLeast_occurrences le_rfl inside found
  · intro least
    cases found : occurrence? sub s with
    | none =>
        have occurs := least.1
        rw [occurrence?_eq_none_iff.mp found] at occurs
        cases occurs
    | some j =>
        have same := (isLeast_occurrences le_rfl inside found).unique least
        have same : j = k := by omega
        rw [same]

theorem intercalate_append_cons (v : ByteString) (us : List ByteString) (u sub : ByteString) :
  sub.intercalate (v :: us ++ [u]) = v ++ sub ++ sub.intercalate (us ++ [u])
  := by
  rw [List.cons_append, List.intercalate_cons_of_ne_nil (by simp), List.append_assoc]

/-- A string that does not occur leaves one piece. -/
theorem pieces_nil_iff :
  Pieces s sub [] u ↔ s = u ∧ occurrences u sub 0 = ∅
  := by
  constructor
  · intro pieces
    exact ⟨by simpa using pieces.joined, pieces.last⟩
  · rintro ⟨rfl, last⟩
    refine ⟨by simp, ?_, last⟩
    intro before v after split
    simp at split

/-- The first piece is what comes before the first occurrence, and the others are the pieces of
what comes behind. -/
theorem pieces_cons_iff :
  Pieces s sub (v :: us) u
    ↔ ∃ r, s = v ++ sub ++ r ∧ occurrence? sub s = some v.length ∧ Pieces r sub us u
  := by
  constructor
  · intro pieces
    have split := pieces.joined
    rw [intercalate_append_cons] at split
    refine ⟨_, split, ?_, rfl, ?_, pieces.last⟩
    · rw [occurrence?_eq_some_iff]
      simpa [reach_nil] using pieces.leftmost [] v us rfl
    · rintro before w after rfl
      have least := pieces.leftmost (v :: before) w after rfl
      rw [split, reach_cons, Int.add_assoc] at least
      exact (isLeast_occurrences_append_iff reach_nonneg).mp least
  · rintro ⟨r, rfl, found, pieces⟩
    refine ⟨by rw [intercalate_append_cons, ← pieces.joined], ?_, pieces.last⟩
    intro before w after split
    cases before with
    | nil =>
        cases split
        simpa [reach_nil] using occurrence?_eq_some_iff.mp found
    | cons v' before =>
        cases split
        rw [reach_cons, Int.add_assoc]
        apply (isLeast_occurrences_append_iff reach_nonneg).mpr
        exact pieces.leftmost before w after rfl

/-- What is found can be cut out. -/
theorem eq_append_of_occurrence? (found : occurrence? sub s = some k) :
  s = List.take k s ++ sub ++ List.drop (k + sub.length) s
  := by
  obtain ⟨r, rest⟩ := prefix_drop_of_occurrence? found
  have behind : List.drop (k + sub.length) s = r := by
    rw [← List.drop_drop, ← rest, List.drop_left]
  rw [behind, List.append_assoc, rest, List.take_append_drop]

theorem exists_pieces (s : ByteString) (nonempty : sub ≠ []) :
  ∃ us u, Pieces s sub us u
  := by
  cases found : occurrence? sub s with
  | none => exact ⟨[], s, pieces_nil_iff.mpr ⟨rfl, occurrence?_eq_none_iff.mp found⟩⟩
  | some k =>
      have positive := List.length_pos_iff.mpr nonempty
      have bound := occurrence?_add_length_le found
      have inside : (List.take k s).length = k := List.length_take_of_le (by omega)
      obtain ⟨us, u, pieces⟩ := exists_pieces (List.drop (k + sub.length) s) nonempty
      use List.take k s :: us, u
      apply pieces_cons_iff.mpr ⟨_, eq_append_of_occurrence? found, _, pieces⟩
      rw [found, inside]
termination_by s.length
decreasing_by
  rw [List.length_drop]
  omega

/-- The empty string occurs everywhere, so nothing is left where it is cut out. -/
theorem Pieces.nonempty (pieces : Pieces s sub us u) :
  sub ≠ []
  := by
  rintro rfl
  have missing := occurrence?_eq_none_iff.mpr pieces.last
  rw [occurrence?_nil_left] at missing
  cases missing

/-! ### Replacement between the pieces -/

theorem replaceAll_of_missing (missing : occurrence? old s = none) :
  replaceAll s old new = s
  := by
  rw [replaceAll]
  split
  · split
    case h_1 k found =>
      rw [missing] at found
      cases found
    case h_2 => rfl
  · rfl

/-- Where something is found it is replaced, and so are all occurrences behind it. -/
theorem replaceAll_append (nonempty : old ≠ [])
    (found : occurrence? old (v ++ old ++ r) = some v.length) :
  replaceAll (v ++ old ++ r) old new = v ++ new ++ replaceAll r old new
  := by
  rw [replaceAll, dif_pos (List.length_pos_iff.mpr nonempty)]
  split
  case h_1 k found' =>
    rw [found] at found'
    cases found'
    rw [← List.length_append, List.drop_left, List.append_assoc v, List.take_left]
  case h_2 missing =>
    rw [found] at missing
    cases missing

theorem replaceFirst_append (found : occurrence? old (v ++ old ++ r) = some v.length) :
  replaceFirst (v ++ old ++ r) old new = v ++ new ++ r
  := by
  simp only [replaceFirst, found]
  rw [← List.length_append, List.drop_left, List.append_assoc v, List.take_left]

theorem length_intercalate (us : List ByteString) (u sub : ByteString) :
  ((sub.intercalate (us ++ [u])).length : Int)
    = us.flatten.length + u.length + us.length * sub.length
  := by
  induction us with
  | nil => simp
  | cons v us ih =>
      rw [intercalate_append_cons, List.length_append, Int.natCast_add, ih]
      simp only [List.flatten_cons, List.length_append, List.length_cons, Int.natCast_add]
      ring

namespace Pieces

theorem replaceAll_eq (pieces : Pieces s old us u) :
  replaceAll s old new = new.intercalate (us ++ [u])
  := by
  induction us generalizing s with
  | nil =>
      obtain ⟨rfl, last⟩ := pieces_nil_iff.mp pieces
      rw [replaceAll_of_missing (occurrence?_eq_none_iff.mpr last)]
      simp
  | cons v us ih =>
      obtain ⟨r, rfl, found, rest⟩ := pieces_cons_iff.mp pieces
      rw [replaceAll_append pieces.nonempty found, ih rest, intercalate_append_cons]

/-- Each replacement changes the length by the same number. -/
theorem length_replaceAll (pieces : Pieces s old us u) :
  ((replaceAll s old new).length : Int) = s.length + us.length * (new.length - old.length)
  := by
  rw [pieces.replaceAll_eq, length_intercalate, pieces.joined, length_intercalate]
  ring

/-- Replacing the first occurrence leaves a rest, in which the others are replaced. -/
theorem replaceAll_cons (pieces : Pieces s old (v :: us) u) :
  ∃ r, replaceFirst s old new = v ++ new ++ r
    ∧ replaceAll s old new = v ++ new ++ replaceAll r old new
  := by
  obtain ⟨r, rfl, found, -⟩ := pieces_cons_iff.mp pieces
  exact ⟨r, replaceFirst_append found, replaceAll_append pieces.nonempty found⟩

end Pieces

/-! ### Replacement by a scan -/

/-- Replacement along the positions of the string.  What comes before the next occurrence is copied
to the output, with the replacement behind it, and the scan goes on at the end of the occurrence;
where there is none, the rest is copied.  There is no result if more searches are needed than are
allowed, or if something is copied that does not lie in the string. -/
def scan (s old new : ByteString) :
    (searches : Nat) → (position : Int) → (output : ByteString) → Option ByteString
  | 0, _, _ => none
  | searches + 1, position, output =>
    let found := indexOfFrom s old position
    if found = -1 then do
      let rest ← slice? s position (s.length - position)
      return output ++ rest
    else do
      let piece ← slice? s position (found - position)
      scan s old new searches (found + old.length) (output ++ piece ++ new)

/-- A part that lies in the string can be copied. -/
theorem slice?_append (t v r : ByteString) :
  slice? (t ++ v ++ r) t.length v.length = some v
  := by
  have lies : (0 : Int) ≤ t.length ∧ (0 : Int) ≤ v.length
      ∧ (t.length : Int) + v.length ≤ (t ++ v ++ r).length := by
    simp only [List.length_append]
    omega
  rw [slice?, if_pos lies, Int.toNat_natCast, Int.toNat_natCast, List.append_assoc, List.drop_left,
    List.take_left]

theorem indexOfFrom_append (t s sub : ByteString) :
  indexOfFrom (t ++ s) sub t.length
    = match occurrence? sub s with
      | some k => (t.length : Int) + k
      | none => -1
  := by
  have inside : (0 : Int) ≤ t.length ∧ (t.length : Int) ≤ (t ++ s).length := by
    simp only [List.length_append]
    omega
  have behind : occurrence? sub (List.drop (t.length : Int).toNat (t ++ s)) = occurrence? sub s := by
    rw [Int.toNat_natCast, List.drop_left]
  unfold indexOfFrom
  cases found : occurrence? sub s with
  | none => simp only [if_pos inside, behind, found]
  | some k => simp only [if_pos inside, behind, found]

/-- Behind the part that has been scanned, a search finds each occurrence, and a last one finds
nothing. -/
theorem scan_append {t output : ByteString} {searches : Nat} (pieces : Pieces s old us u) :
  scan (t ++ s) old new searches t.length output
    = if us.length < searches then some (output ++ new.intercalate (us ++ [u])) else none
  := by
  -- The part that has been scanned grows by a piece and an occurrence.
  induction us generalizing s t output searches with
  | nil =>
      obtain ⟨rfl, last⟩ := pieces_nil_iff.mp pieces
      cases searches with
      | zero => rfl
      | succ searches =>
          have missing := occurrence?_eq_none_iff.mpr last
          have rest : ((t ++ s).length : Int) - t.length = s.length := by
            simp only [List.length_append]
            omega
          have copied : slice? (t ++ s) t.length s.length = some s := by
            simpa only [List.append_nil] using slice?_append t s []
          simp only [scan, indexOfFrom_append, missing, if_true, rest, copied]
          rw [List.length_nil, if_pos (Nat.succ_pos searches), List.nil_append,
            List.intercalate_singleton]
          rfl
  | cons v us ih =>
      obtain ⟨r, rfl, found, pieces⟩ := pieces_cons_iff.mp pieces
      cases searches with
      | zero => rfl
      | succ searches =>
          have hit : (t.length : Int) + v.length ≠ -1 := by omega
          have piece : (t.length : Int) + v.length - t.length = v.length := by omega
          have copied : slice? (t ++ (v ++ old ++ r)) t.length v.length = some v := by
            simpa only [List.append_assoc] using slice?_append t v (old ++ r)
          have scanned : (t.length : Int) + v.length + old.length = (t ++ v ++ old).length := by
            simp only [List.length_append]
            omega
          have behind : t ++ (v ++ old ++ r) = t ++ v ++ old ++ r := by
            simp only [List.append_assoc]
          simp only [scan, indexOfFrom_append, found, if_neg hit, piece, copied, scanned,
            Option.bind_eq_bind, Option.bind_some]
          rw [behind, ih pieces, intercalate_append_cons]
          simp only [List.length_cons, Nat.add_lt_add_iff_right, List.append_assoc]

/-- Replacing all occurrences puts the replacement between the pieces that are left where the string
is cut out from left to right, and a scan does so. -/
theorem replaceAll_leftmost (s new : ByteString) (nonempty : old ≠ []) :
  (∃ us u, Pieces s old us u)
  ∧ (∀ us u, Pieces s old us u →
    replaceAll s old new = new.intercalate (us ++ [u])
    ∧ (∀ searches, scan s old new searches 0 []
      = if us.length < searches then some (replaceAll s old new) else none)
    ∧ ((replaceAll s old new).length : Int) = s.length + us.length * (new.length - old.length)
    ∧ ∀ v vs, us = v :: vs → ∃ r, replaceFirst s old new = v ++ new ++ r
      ∧ replaceAll s old new = v ++ new ++ replaceAll r old new)
  ∧ replaceAll s old old = s
  ∧ (contains old s = false → replaceAll s old new = s)
  ∧ replaceAll s [] new = s
  := by
  refine ⟨exists_pieces s nonempty, ?_, ?_, ?_, Strings.replaceAll_nil s new⟩
  · intro us u pieces
    refine ⟨pieces.replaceAll_eq, ?_, pieces.length_replaceAll, ?_⟩
    · intro searches
      have scanned : scan ([] ++ s) old new searches 0 []
          = if us.length < searches then some ([] ++ new.intercalate (us ++ [u])) else none :=
        scan_append pieces
      rw [pieces.replaceAll_eq]
      apply scanned
    · rintro v vs rfl
      exact pieces.replaceAll_cons
  · obtain ⟨us, u, pieces⟩ := exists_pieces s nonempty
    rw [pieces.replaceAll_eq, ← pieces.joined]
  · intro missing
    apply replaceAll_of_missing
    simpa [contains] using missing

/-- Occurrences that overlap and that touch, with a replacement that contains the string. -/
theorem replaceAll_leftmost_overlap :
  ([97, 97] : ByteString) ≠ []
  ∧ Pieces [97, 97, 97, 97, 97, 98] [97, 97] [[], []] [97, 98]
  ∧ replaceAll [97, 97, 97, 97, 97, 98] [97, 97] [97, 97, 97] = [97, 97, 97, 97, 97, 97, 97, 98]
  ∧ scan [97, 97, 97, 97, 97, 98] [97, 97] [97, 97, 97] 3 0 []
    = some [97, 97, 97, 97, 97, 97, 97, 98]
  := by
  have nonempty : ([97, 97] : ByteString) ≠ [] := by decide
  have pieces : Pieces [97, 97, 97, 97, 97, 98] [97, 97] [[], []] [97, 98] := by
    rw [pieces_cons_iff]
    refine ⟨[97, 97, 97, 98], rfl, rfl, ?_⟩
    rw [pieces_cons_iff]
    refine ⟨[97, 98], rfl, rfl, ?_⟩
    exact pieces_nil_iff.mpr ⟨rfl, occurrence?_eq_none_iff.mp rfl⟩
  obtain ⟨-, laws, -⟩ :=
    replaceAll_leftmost [97, 97, 97, 97, 97, 98] [97, 97, 97] nonempty
  obtain ⟨replaced, scanned, -⟩ := laws _ _ pieces
  have result : replaceAll [97, 97, 97, 97, 97, 98] [97, 97] [97, 97, 97]
      = [97, 97, 97, 97, 97, 97, 97, 98] := replaced
  refine ⟨nonempty, pieces, result, ?_⟩
  rw [scanned, result]
  rfl

end StringTerms.ByteString
