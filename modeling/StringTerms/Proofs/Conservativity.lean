import StringTerms.Proofs.Effects
import StringTerms.Proofs.Pinning

/-!
# Extracted characters are conservative

A session that is reached by requests of the user is pinned, and so is every session that a rollback
may give back.  Values for the variables other than the extracted characters extend to values for
these: along the arena, as the string and the position of a character precede it, each is given the
character that it stands for.  Under the extended model every internal assertion is true.
-/

namespace StringTerms

variable {ss : Session} {cps : List Checkpoint} {M N : Model} {a b c : Handle}

theorem Handle.index_ne {h : Handle} {n : Nat} (other : h ≠ ⟨n⟩) :
  h.index ≠ n
  := fun same => other (congrArg Handle.mk same)

/-- The user makes the edit, with values of the session as the operands of an operation. -/
def Edit.Fits (ss : Session) : Edit → Prop
  | .operate _ xs => ss.HoldsAll xs
  | .freshInternal _ | .intern _ _ _ | .defer _ _ _ | .assertInternal _ => False
  | _ => True

namespace Session

/-- The sessions that the user reaches, with the checkpoints that have been taken and that no
rollback went below. -/
inductive Reached : Session → List Checkpoint → Prop
  | start (c : Configuration) : Reached { configuration := c } []
  | edit {ss : Session} {cps : List Checkpoint} (reached : Reached ss cps) (e : Edit)
    (fits : e.Fits ss) :
    Reached (e.perform ss) cps
  | checkpoint {ss : Session} {cps : List Checkpoint} (reached : Reached ss cps) :
    Reached ss (ss.checkpoint :: cps)
  | rollback {ss tt : Session} {cps : List Checkpoint} (reached : Reached ss cps)
    {cp : Checkpoint} (taken : cp ∈ cps) (accepted : ss.rollback? cp = .ok tt) :
    Reached tt (cps.filter (· ≤ cp))

/-- The handle is that of a remembered value. -/
def IsEmulated (ss : Session) (h : Handle) : Prop := ∃ op hs, ss.emulated? op hs = some h

/-! ### Reached sessions are pinned -/

theorem pinned_empty (c : Configuration) :
  Pinned { configuration := c }
  where
    wellKinded := wellKinded_empty c
    character found := by cases found
    distinct found := by cases found
    asserted a mem := by simp at mem
    exact total := by
      constructor
      · intro _ a b c found
        cases found
      · intro _ a mem
        simp at mem

/-- A request of the user keeps a session pinned. -/
theorem Pinned.perform (h : ss.Pinned) {e : Edit} (fits : e.Fits ss) :
  (e.perform ss).Pinned
  := by
  cases e with
  | literal v =>
      have accepted : ss.Accepts (.literal v) := trivial
      obtain ⟨shares, wk, -⟩ := h.wellKinded.share accepted
      apply h.share wk shares
  | declare name k => apply h.addVariable
  | fresh k => apply h.addVariable
  | apply op hs =>
      obtain same | ⟨j, kinds, shared⟩ := apply_cases op hs ss
      · rw [Edit.perform, same]
        apply h
      · have accepted : ss.Accepts (.application op hs (op.kindAt j)) := ⟨j, kinds, rfl⟩
        obtain ⟨shares, wk, -⟩ := h.wellKinded.share accepted
        rw [Edit.perform, shared]
        apply h.share wk shares
  | operate o xs => apply h.operate o fits
  | assert g =>
      obtain same | ⟨kind, added⟩ := record_cases .user g ss
      · rw [Edit.perform, Session.assert, same]
        apply h
      · rw [Edit.perform, Session.assert, added]
        apply h.assert (index_lt_of_kind? kind)
  | freshInternal k => cases fits
  | intern op hs k => cases fits
  | defer r op xs => cases fits
  | assertInternal g => cases fits

theorem Reached.tableExact (reached : ss.Reached cps) :
  ss.TableExact
  := by
  induction reached with
  | start c => apply TableExact.empty
  | edit _ e _ ih => apply e.tableExact_perform ih
  | checkpoint _ ih => apply ih
  | rollback _ _ accepted ih =>
      obtain ⟨-, rfl⟩ := rollback?_eq_ok_iff.mp accepted
      apply ih.truncate

/-- A reached session is pinned, and cutting it down to a checkpoint leaves a pinned session. -/
theorem Reached.pinned (reached : ss.Reached cps) :
  ss.Pinned ∧ ∀ cp ∈ cps, cp ≤ ss.checkpoint ∧ (ss.cut cp).Pinned
  := by
  -- A rollback may give back what any checkpoint cuts out, so the invariant is about these as well.
  induction reached with
  | start c =>
      use pinned_empty c
      intro cp mem
      cases mem
  | @edit ss cps _ e fits ih =>
      obtain ⟨pinned, below⟩ := ih
      have grows := e.extends_perform ss
      use pinned.perform fits
      intro cp mem
      obtain ⟨le, cut⟩ := below cp mem
      use Checkpoint.le_trans le grows.sizes
      apply cut.of_contents (grows.cut le)
  | @checkpoint ss cps _ ih =>
      obtain ⟨pinned, below⟩ := ih
      use pinned
      intro cp mem
      obtain rfl | mem := List.mem_cons.mp mem
      · use Checkpoint.le_refl _
        apply pinned.of_contents pinned.cut_checkpoint
      · apply below cp mem
  | @rollback ss tt cps reached cp taken accepted ih =>
      obtain ⟨-, below⟩ := ih
      obtain ⟨fits, rfl⟩ := reached.tableExact.rollback?_eq_ok_iff.mp accepted
      obtain ⟨le, cut⟩ := below cp taken
      use cut
      intro cp' mem
      obtain ⟨mem, lower⟩ := List.mem_filter.mp mem
      have lower := of_decide_eq_true lower
      rw [checkpoint_cut le]
      use lower
      apply (below cp' mem).2.of_contents (cut_cut lower ss)

/-! ### Values for the extracted characters -/

/-- Giving a variable a value does not change the values of the terms before it. -/
theorem reading_assign (M : Model) (v : Literal) {g h : Handle} (earlier : g.index < h.index) :
  ss.reading (M.assign h v) g = ss.reading M g
  := by
  rw [reading, direct_eq_evaluateWith, evaluateWith_assign _ M v earlier, ← direct_eq_evaluateWith,
    reading]

/-- Giving a variable a value does not concern the characters before it. -/
theorem IsCharacter.pins_assign (h : ss.IsCharacter a b c) (M : Model) (v : Literal) {g : Handle}
    (earlier : c.index < g.index) :
  ss.Pins (M.assign g v) a b c ↔ ss.Pins M a b c
  := by
  have string := Nat.lt_trans h.stringEarlier earlier
  have position := Nat.lt_trans h.positionEarlier earlier
  simp only [Pins, evaluate_eq_some_iff, reading_assign M v string, reading_assign M v position,
    reading_assign M v earlier]

/-- The model extends another by values for the variables before the index, and pins the characters
among them. -/
structure Completes (ss : Session) (M : Model) (n : Nat) (N : Model) : Prop where
  agrees : ∀ h, ¬ ss.IsEmulated h → N.value? h = M.value? h
  assigned : ∀ h i k, ss.node? h = some (.var i k) → h.index < n → ∃ v, N.value? h = some (.of k v)
  pinned : ∀ a b c, ss.emulated? .charAt [a, b] = some c → c.index < n → ss.Pins N a b c

/-- The next extracted character can be given its value. -/
theorem Completes.assign {n : Nat} (h : ss.Completes M n N) (pinned : ss.Pinned)
    (found : ss.emulated? .charAt [a, b] = some ⟨n⟩) :
  ∃ x : UInt8, ss.Completes M (n + 1) (N.assign ⟨n⟩ (.char x))
  := by
  obtain ⟨_, _, -, ⟨⟩, character⟩ := pinned.character found
  obtain ⟨i, hn⟩ := character.isVariable
  -- What the string and the position are made of comes before the character, so it has values.
  have before : ∀ g : Handle, g.index < n → N.Assigns ss g := by
    intro g earlier f j k below hf
    have le := pinned.wellKinded.index_le_of_below below
    apply h.assigned f j k hf (by omega)
  obtain ⟨s, ha⟩ := pinned.wellKinded.reads_of_assigned character.string
    (before a character.stringEarlier)
  obtain ⟨m, hb⟩ := pinned.wellKinded.reads_of_assigned character.position
    (before b character.positionEarlier)
  obtain ⟨x, hx⟩ := ByteString.exists_char s m
  use x
  constructor
  · intro g free
    rw [Model.value?_assign, if_neg, h.agrees g free]
    rintro rfl
    exact free ⟨_, _, found⟩
  · intro g j k hg below
    rw [Model.value?_assign]
    split
    case isTrue last =>
      rw [last, hn] at hg
      cases hg
      exact ⟨_, rfl⟩
    case isFalse other =>
      have distinct := Handle.index_ne other
      apply h.assigned g j k hg (by omega)
  · intro a' b' c' found' below
    obtain ⟨_, _, -, ⟨⟩, character'⟩ := pinned.character found'
    by_cases last : c' = ⟨n⟩
    · rw [last] at found'
      obtain ⟨-, same⟩ := pinned.distinct found found'
      cases same
      have value : (N.assign ⟨n⟩ (.char x)).value? ⟨n⟩ = some (.of .char x) := by
        rw [Model.value?_assign, if_pos rfl]
        rfl
      have ha := (reading_assign N (.char x) character.stringEarlier).trans ha
      have hb := (reading_assign N (.char x) character.positionEarlier).trans hb
      rw [last, pins_iff ha hb (reading_var hn value)]
      apply hx
    · have distinct := Handle.index_ne last
      have earlier : c'.index < n := by omega
      rw [character'.pins_assign N _ earlier]
      apply h.pinned a' b' c' found' earlier

/-- Values for the variables that are not extracted characters extend to values for these, along the
arena. -/
theorem Pinned.exists_completes (pinned : ss.Pinned)
    (assigned : ∀ h i k, ss.node? h = some (.var i k) → ¬ ss.IsEmulated h →
      ∃ v, M.value? h = some (.of k v)) (n : Nat) :
  ∃ N, ss.Completes M n N
  := by
  induction n with
  | zero => exact ⟨M, fun _ _ => rfl, fun _ _ _ _ below => by omega, fun _ _ _ _ below => by omega⟩
  | succ n ih =>
      obtain ⟨N, h⟩ := ih
      by_cases emulated : ss.IsEmulated ⟨n⟩
      · obtain ⟨op, hs, found⟩ := emulated
        obtain ⟨a, b, rfl, rfl, -⟩ := pinned.character found
        obtain ⟨x, completes⟩ := h.assign pinned found
        exact ⟨_, completes⟩
      · use N
        constructor
        · apply h.agrees
        · intro g i k hg below
          by_cases last : g = ⟨n⟩
          · rw [last] at hg ⊢
            rw [h.agrees _ emulated]
            apply assigned _ i k hg emulated
          · have distinct := Handle.index_ne last
            apply h.assigned g i k hg (by omega)
        · intro a b c found below
          have distinct : c.index ≠ n := by
            rintro rfl
            exact emulated ⟨_, _, found⟩
          apply h.pinned a b c found (by omega)

/-- In every reached session, the internal assertions are true in a total model exactly when every
extracted character is the one at its position, where that is a position of its string; and values
for all other variables extend to such a model. -/
theorem Reached.exact_and_conservative (reached : ss.Reached cps) :
  (∀ M : Model, M.Total ss →
    (ss.InternalTrue M ↔ ∀ a b c, ss.emulated? .charAt [a, b] = some c → ss.Pins M a b c))
  ∧ ∀ M : Model,
    (∀ h n k, ss.node? h = some (.var n k) → ¬ ss.IsEmulated h →
      ∃ v, M.value? h = some (.of k v)) →
    ∃ N : Model, N.Total ss ∧ (∀ h, ¬ ss.IsEmulated h → N.value? h = M.value? h)
      ∧ ss.InternalTrue N
  := by
  have pinned := reached.pinned.1
  constructor
  · exact fun M total => pinned.exact total
  · intro M assigned
    obtain ⟨N, completes⟩ := pinned.exists_completes assigned ss.nodes.size
    have total : N.Total ss := fun h n k hn =>
      completes.assigned h n k hn (Array.getElem?_eq_some_iff.mp hn).1
    use N, total, completes.agrees
    apply (pinned.exact total).mpr
    intro a b c found
    obtain ⟨_, _, -, ⟨⟩, character⟩ := pinned.character found
    apply completes.pinned _ _ _ found character.inside.2.2

/-- A session with a declared string and the first character extracted from it. -/
theorem exists_first :
  ∃ ss : Session, ss.Reached [] ∧ ss.emulated? .charAt [⟨0⟩, ⟨1⟩] = some ⟨2⟩
    ∧ ss.nodes = #[.var 0 .string, .literal (.int 0), .var 1 .char, .application .unit [⟨2⟩] .string,
        .literal (.int 1), .application .slice [⟨0⟩, ⟨1⟩, ⟨4⟩] .string,
        .application .eq [⟨3⟩, ⟨5⟩] .bool, .application .length [⟨0⟩] .int,
        .application .lt [⟨1⟩, ⟨7⟩] .bool, .application .not [⟨8⟩] .bool,
        .application .or [⟨9⟩, ⟨6⟩] .bool]
  := by
  let declared := (Edit.declare "s" .string).perform {}
  use (Edit.operate .first (.one (.node ⟨0⟩))).perform declared
  constructor
  · apply ((Reached.start {}).edit (.declare "s" .string) trivial).edit
    exact ⟨rfl, trivial⟩
  · decide +kernel

/-- The first character of a string that has one. -/
theorem exact_and_conservative_extract :
  ∃ (ss : Session) (N : Model), ss.Reached []
    ∧ N.value? ⟨0⟩ = some (.string [97])
    ∧ ss.InternalTrue N ∧ ss.evaluate N ⟨2⟩ = .ok (some (.char 97))
  := by
  obtain ⟨ss, reached, found, nodes⟩ := exists_first
  obtain ⟨exact, extend⟩ := reached.exact_and_conservative
  have node : ∀ h, ss.node? h = _ := fun h => by rw [node?, nodes]
  have free : ¬ ss.IsEmulated ⟨0⟩ := by
    rintro ⟨op, hs, other⟩
    obtain ⟨_, _, -, -, -, -, ⟨_, isVariable⟩, -, -⟩ := reached.pinned.1.character other
    rw [node] at isVariable
    cases isVariable
  have assigned : ∀ h n k, ss.node? h = some (.var n k) → ¬ ss.IsEmulated h →
      ∃ v, (Model.assign {} ⟨0⟩ (.string [97])).value? h = some (.of k v) := by
    rintro ⟨j⟩ n k hn free
    rw [node] at hn
    obtain ⟨inside, hn⟩ := Array.getElem?_eq_some_iff.mp hn
    obtain rfl | rfl | other : j = 0 ∨ j = 2 ∨ j ≠ 0 ∧ j ≠ 2 := by omega
    · cases hn
      exact ⟨_, rfl⟩
    · exact absurd ⟨_, _, found⟩ free
    · have below : j < 11 := inside
      obtain rfl | rfl | rfl | rfl | rfl | rfl | rfl | rfl | rfl : j = 1 ∨ j = 3 ∨ j = 4 ∨ j = 5
          ∨ j = 6 ∨ j = 7 ∨ j = 8 ∨ j = 9 ∨ j = 10 := by omega
      all_goals cases hn
  obtain ⟨N, total, agrees, holds⟩ := extend _ assigned
  have string : N.value? ⟨0⟩ = some (.of .string [97]) := agrees ⟨0⟩ free
  obtain ⟨x, value⟩ := total ⟨2⟩ 1 .char (node _)
  have position : ss.reading N ⟨1⟩ = some (.int 0) :=
    (reached.pinned.1.wellKinded.interprets_reading N).literal (node _)
  have pins := (exact N total).mp holds ⟨0⟩ ⟨1⟩ ⟨2⟩ found
  have first : ByteString.charAt? [97] 0 = some x :=
    (pins_iff (reading_var (node _) string) position (reading_var (node _) value)).mp pins
      (by decide) (by decide)
  use ss, N, reached, string, holds
  rw [evaluate_eq_some_iff, reading_var (node _) value]
  cases first
  rfl

end Session

end StringTerms
