import StringTerms.Emulation
import StringTerms.Folding
import StringTerms.Value

/-!
# Cutting down

The contents of a session are all of it but its statistics.  A session is cut down to the sizes of a
checkpoint by dropping the nodes, variables and assertions beyond them, and of the table and the
remembered values the entries whose handle is not below the checkpoint.

A rollback does not look at the handles in the table: it erases the nodes that it discards, one
after the other, as keys of the table.  Where the table is exact, an entry is erased with its own
node and with no other, and so rolling back is cutting down; the table stays exact.
-/

namespace StringTerms

/-- A checkpoint is below another when none of its sizes is greater. -/
instance : LE Checkpoint where
  le c d := c.nodes ≤ d.nodes ∧ c.vars ≤ d.vars ∧ c.assertions ≤ d.assertions

instance (c d : Checkpoint) : Decidable (c ≤ d) :=
  inferInstanceAs (Decidable (c.nodes ≤ d.nodes ∧ c.vars ≤ d.vars ∧ c.assertions ≤ d.assertions))

theorem Checkpoint.le_iff {c d : Checkpoint} :
  c ≤ d ↔ c.nodes ≤ d.nodes ∧ c.vars ≤ d.vars ∧ c.assertions ≤ d.assertions
  := Iff.rfl

theorem Checkpoint.le_refl (c : Checkpoint) :
  c ≤ c
  := ⟨Nat.le_refl _, Nat.le_refl _, Nat.le_refl _⟩

theorem Checkpoint.le_trans {c d e : Checkpoint} (hcd : c ≤ d) (hde : d ≤ e) :
  c ≤ e
  := ⟨Nat.le_trans hcd.1 hde.1, Nat.le_trans hcd.2.1 hde.2.1, Nat.le_trans hcd.2.2 hde.2.2⟩

namespace Session

/-! ### Contents -/

/-- The session with its statistics forgotten. -/
def contents (ss : Session) : Session := { ss with statistics := {} }

theorem contents_eq_iff {ss tt : Session} :
  ss.contents = tt.contents ↔
    ss.configuration = tt.configuration ∧ ss.nodes = tt.nodes ∧ ss.table = tt.table
      ∧ ss.vars = tt.vars ∧ ss.assertions = tt.assertions ∧ ss.emulations = tt.emulations
  := by
  obtain ⟨_, _, _, _, _, _, _⟩ := ss
  obtain ⟨_, _, _, _, _, _, _⟩ := tt
  simp [contents]

/-- Sessions of equal contents are of equal sizes. -/
theorem checkpoint_of_contents {ss tt : Session} (h : ss.contents = tt.contents) :
  ss.checkpoint = tt.checkpoint
  := by
  obtain ⟨-, hn, -, hv, ha, -⟩ := contents_eq_iff.mp h
  simp only [checkpoint, hn, hv, ha]

/-! ### Cutting down -/

/-- The session cut down to the sizes of a checkpoint, with the entries of the table whose handles
are below it. -/
def cut (cp : Checkpoint) (ss : Session) : Session :=
  { ss.truncate cp with table := ss.table.filter fun _ h => h.index < cp.nodes }

/-- The nodes below the checkpoint stay, and no others. -/
theorem node?_cut (cp : Checkpoint) (ss : Session) (h : Handle) :
  (ss.cut cp).node? h = if h.index < cp.nodes then ss.node? h else none
  := node?_truncate cp ss h

/-- Sessions of equal contents are cut down to equal contents. -/
theorem cut_congr (cp : Checkpoint) {ss tt : Session} (h : ss.contents = tt.contents) :
  (ss.cut cp).contents = (tt.cut cp).contents
  := by
  obtain ⟨hc, hn, ht, hv, ha, he⟩ := contents_eq_iff.mp h
  rw [contents_eq_iff]
  simp only [cut, truncate, hc, hn, ht, hv, ha, he]
  simp

/-- Cutting down in two steps is cutting down to the lower sizes. -/
theorem cut_cut {c d : Checkpoint} (h : c ≤ d) (ss : Session) :
  ((ss.cut d).cut c).contents = (ss.cut c).contents
  := by
  obtain ⟨hn, hv, ha⟩ := h
  rw [contents_eq_iff]
  refine ⟨rfl, ?_, ?_, ?_, ?_, ?_⟩
  · simp [cut, truncate, Nat.min_eq_left hn]
  · simp only [cut]
    apply FiniteMap.filter_filter_of_imp
    simp only [decide_eq_true_eq]
    omega
  · simp [cut, truncate, Nat.min_eq_left hv]
  · simp [cut, truncate, Nat.min_eq_left ha]
  · simp only [cut, truncate]
    apply FiniteMap.filter_filter_of_imp
    simp only [decide_eq_true_eq]
    omega

/-- Cutting down to sizes that are reached leaves a session of these sizes. -/
theorem checkpoint_cut {cp : Checkpoint} {ss : Session} (h : cp ≤ ss.checkpoint) :
  (ss.cut cp).checkpoint = cp
  := by
  obtain ⟨hn, hv, ha⟩ := h
  simp only [checkpoint] at hn hv ha
  simp [checkpoint, cut, truncate, Nat.min_eq_left hn, Nat.min_eq_left hv, Nat.min_eq_left ha]

/-- Rolling back leaves sizes that are not greater. -/
theorem checkpoint_truncate_le (ss : Session) (cp : Checkpoint) :
  (ss.truncate cp).checkpoint ≤ ss.checkpoint
  := by
  simp only [Checkpoint.le_iff, checkpoint, truncate, Array.take_eq_extract, Array.size_extract]
  omega

/-! ### Exact tables -/

/-- The table maps the literals and applications of the arena to their handles, and it knows no
other nodes. -/
structure TableExact (ss : Session) : Prop where
  exact : ∀ {n h}, ss.table.get? n = some h ↔ ss.node? h = some n ∧ n.var? = none

namespace TableExact

variable {ss tt : Session}

theorem empty (c : Configuration) :
  TableExact { configuration := c }
  where
    exact := by
      intro n h
      constructor
      · intro known
        cases known
      · rintro ⟨found, -⟩
        cases found

/-- Whether the table is exact is a matter of the arena and the table. -/
theorem congr (h : ss.TableExact) (nodes : tt.nodes = ss.nodes) (table : tt.table = ss.table) :
  tt.TableExact
  where
    exact := by
      intro n g
      have same : tt.node? g = ss.node? g := by rw [node?, nodes, node?]
      rw [same, table]
      apply h.exact

/-- The handle of a literal or an application is the only one. -/
theorem unique (h : ss.TableExact) {g f : Handle} {n : Node} (hg : ss.node? g = some n)
    (hf : ss.node? f = some n) (term : n.var? = none) :
  g = f
  := by
  have known := h.exact.mpr ⟨hg, term⟩
  rw [h.exact.mpr ⟨hf, term⟩] at known
  cases known
  rfl

/-- Adding a node that the table does not know. -/
theorem addShared (h : ss.TableExact) {n : Node} (term : n.var? = none)
    (new : ss.table.get? n = none) :
  (ss.addShared n).TableExact
  where
    exact := by
      intro m f
      rw [Session.addShared, FiniteMap.get?_insert, ← Session.addShared, node?_addShared]
      -- The new node is the next one, and the others are older nodes.
      by_cases last : f = ss.next
      · rw [if_pos last]
        constructor
        · intro known
          split at known
          case isTrue same => rw [same]; exact ⟨rfl, term⟩
          case isFalse =>
            have old := (h.exact.mp known).1
            rw [last] at old
            exact absurd (Array.getElem?_eq_some_iff.mp old).1 (Nat.lt_irrefl _)
        · rintro ⟨⟨⟩, -⟩
          rw [if_pos rfl, last]
      · rw [if_neg last, ← h.exact]
        split
        case isTrue same =>
          rw [same, new]
          simp [Ne.symm last]
        case isFalse => rfl

theorem share (h : ss.TableExact) {n : Node} (term : n.var? = none) :
  (Session.share n ss).2.TableExact
  := by
  cases known : ss.table.get? n with
  | some f =>
      rw [share_of_known known]
      exact h.congr rfl rfl
  | none =>
      rw [share_of_new known]
      apply h.addShared term known

/-- The table does not know a new variable. -/
theorem addVariable (h : ss.TableExact) (name : String) (k : Kind) (internal : Bool) :
  (Session.addVariable name k internal ss).2.TableExact
  where
    exact := by
      intro m f
      apply h.exact.trans
      rw [node?_addVariable]
      split
      case isTrue last =>
        rw [last]
        constructor
        · rintro ⟨old, -⟩
          exact absurd (Array.getElem?_eq_some_iff.mp old).1 (Nat.lt_irrefl _)
        · rintro ⟨⟨⟩, ⟨⟩⟩
      case isFalse => rfl

theorem freshInternal (h : ss.TableExact) (k : Kind) :
  (Session.freshInternal k ss).2.TableExact
  := h.addVariable _ k true

/-- A node of the table is discarded exactly when its handle is not below the checkpoint. -/
theorem mem_nodesBeyond_iff (h : ss.TableExact) {cp : Checkpoint} {n : Node} {g : Handle}
    (known : ss.table.get? n = some g) :
  n ∈ ss.nodesBeyond cp ↔ cp.nodes ≤ g.index
  := by
  obtain ⟨here, term⟩ := h.exact.mp known
  rw [Session.mem_nodesBeyond_iff]
  constructor
  · rintro ⟨f, beyond, found⟩
    rw [h.unique here found term]
    apply beyond
  · intro beyond
    exact ⟨g, beyond, here⟩

/-- Rolling back a session whose table is exact is cutting it down. -/
theorem truncate_eq_cut (h : ss.TableExact) (cp : Checkpoint) :
  ss.truncate cp = ss.cut cp
  := by
  have table : ss.table.eraseAll (ss.nodesBeyond cp)
      = ss.table.filter fun _ g => g.index < cp.nodes := by
    rw [FiniteMap.eraseAll_eq_filter]
    apply FiniteMap.filter_congr
    rintro ⟨n, g⟩ mem
    have known := FiniteMap.get?_eq_some_iff.mpr mem
    rw [decide_eq_decide, h.mem_nodesBeyond_iff known, Nat.not_le]
  rw [cut, ← table]
  rfl

/-- The rollbacks of a session whose table is exact. -/
theorem rollback?_eq_ok_iff (h : ss.TableExact) {cp : Checkpoint} {restored : Session} :
  ss.rollback? cp = .ok restored ↔ cp.nodes ≤ ss.nodes.size ∧ restored = ss.cut cp
  := by
  rw [Session.rollback?_eq_ok_iff, h.truncate_eq_cut]

/-- Rolling back erases the nodes that are discarded, and none that stay. -/
theorem truncate (h : ss.TableExact) (cp : Checkpoint) :
  (ss.truncate cp).TableExact
  where
    exact := by
      intro n g
      rw [table_truncate_eq_some_iff]
      constructor
      · rintro ⟨known, kept⟩
        obtain ⟨found, term⟩ := h.exact.mp known
        exact ⟨node?_truncate_of_kept found kept, term⟩
      · rintro ⟨found, term⟩
        rw [node?_truncate] at found
        split at found
        case isTrue below =>
          have known := h.exact.mpr ⟨found, term⟩
          rw [h.mem_nodesBeyond_iff known, Nat.not_le]
          exact ⟨known, below⟩
        case isFalse => cases found

theorem cut (h : ss.TableExact) (cp : Checkpoint) :
  (ss.cut cp).TableExact
  := by
  rw [← h.truncate_eq_cut]
  apply h.truncate

end TableExact

end Session

end StringTerms
