import StringTerms.Proofs.Cutting

/-!
# Extensions of a session

A session `tt` extends a session `ss` when cutting `tt` down to the sizes of `ss` gives the contents
of `ss` so cut down: what `ss` holds is kept, and what is added can be taken away again.  The
requests that build nodes, variables and assertions extend the session, and cutting down past an
extension is cutting down without it.
-/

namespace StringTerms.Session

/-- `tt` holds what `ss` holds, and what it adds is taken away by cutting it down to the sizes of
`ss`. -/
structure Extends (ss tt : Session) : Prop where
  sizes : ss.checkpoint ≤ tt.checkpoint
  contents : (tt.cut ss.checkpoint).contents = (ss.cut ss.checkpoint).contents

/-- Cutting down to lower sizes does not see an extension. -/
theorem Extends.cut {ss tt : Session} (h : ss.Extends tt) {cp : Checkpoint}
    (below : cp ≤ ss.checkpoint) :
  (tt.cut cp).contents = (ss.cut cp).contents
  := by
  calc (tt.cut cp).contents
    _ = ((tt.cut ss.checkpoint).cut cp).contents := (cut_cut below tt).symm
    _ = ((ss.cut ss.checkpoint).cut cp).contents := cut_congr cp h.contents
    _ = (ss.cut cp).contents := cut_cut below ss

theorem Extends.refl (ss : Session) :
  ss.Extends ss
  := ⟨Checkpoint.le_refl _, rfl⟩

theorem Extends.trans {ss tt uu : Session} (h : ss.Extends tt) (h' : tt.Extends uu) :
  ss.Extends uu
  := by
  constructor
  · apply Checkpoint.le_trans h.sizes h'.sizes
  · rw [h'.cut h.sizes, h.contents]

/-- A session of the same contents is an extension. -/
theorem Extends.of_contents {ss tt : Session} (h : tt.contents = ss.contents) :
  ss.Extends tt
  := by
  constructor
  · rw [checkpoint_of_contents h]
    apply Checkpoint.le_refl
  · apply cut_congr _ h

/-- An extension keeps the settings. -/
theorem Extends.configuration {ss tt : Session} (h : ss.Extends tt) :
  tt.configuration = ss.configuration
  := (contents_eq_iff.mp h.contents).1

/-- An extension keeps every node. -/
theorem Extends.node? {ss tt : Session} (h : ss.Extends tt) {g : Handle} {n : Node}
    (hn : ss.node? g = some n) :
  tt.node? g = some n
  := by
  have inside : g.index < ss.checkpoint.nodes := (Array.getElem?_eq_some_iff.mp hn).1
  have same : (tt.cut ss.checkpoint).node? g = (ss.cut ss.checkpoint).node? g := by
    simp only [Session.node?, (contents_eq_iff.mp h.contents).2.1]
  rw [node?_cut, node?_cut, if_pos inside, if_pos inside] at same
  rw [same, hn]

/-- An extension keeps the kind of every node. -/
theorem Extends.kind? {ss tt : Session} (h : ss.Extends tt) {g : Handle} {k : Kind}
    (hk : ss.kind? g = some k) :
  tt.kind? g = some k
  := by
  obtain ⟨n, hn, hk⟩ := Option.map_eq_some_iff.mp hk
  simp only [Session.kind?, h.node? hn, Option.map_some, hk]

/-- An extension keeps the records of the variables. -/
theorem Extends.variableRecord? {ss tt : Session} (h : ss.Extends tt) {i : Nat} {v : Variable}
    (hv : ss.variableRecord? i = some v) :
  tt.variableRecord? i = some v
  := by
  have inside : i < ss.vars.size := (Array.getElem?_eq_some_iff.mp hv).1
  have kept : tt.vars.take ss.vars.size = ss.vars.take ss.vars.size :=
    (contents_eq_iff.mp h.contents).2.2.2.1
  have same : (tt.vars.take ss.vars.size)[i]? = some v := by
    rw [kept]
    simpa [Session.variableRecord?] using hv
  rw [Array.take_eq_extract, Array.getElem?_extract] at same
  split at same
  case isTrue => simpa [Session.variableRecord?] using same
  case isFalse => cases same

/-- An extension keeps the assertions. -/
theorem Extends.mem_assertions {ss tt : Session} (h : ss.Extends tt) {a : Assertion}
    (mem : a ∈ ss.assertions) :
  a ∈ tt.assertions
  := by
  have kept : tt.assertions.take ss.assertions.size = ss.assertions.take ss.assertions.size :=
    (contents_eq_iff.mp h.contents).2.2.2.2.1
  have mem : a ∈ tt.assertions.take ss.assertions.size := by
    rw [kept]
    simpa using mem
  rw [Array.take_eq_extract, Array.mem_extract_iff_getElem] at mem
  obtain ⟨i, _, rfl⟩ := mem
  apply Array.getElem_mem

/-! ### Requests extend the session -/

theorem extends_countHit (ss : Session) :
  ss.Extends ss.countHit
  := Extends.of_contents rfl

theorem extends_countFold (ss : Session) :
  ss.Extends ss.countFold
  := Extends.of_contents rfl

/-- Adding a shared node that is not in the table extends the session. -/
theorem extends_addShared {ss : Session} {n : Node} (new : ss.table.get? n = none) :
  ss.Extends (ss.addShared n)
  := by
  constructor
  · simp [Checkpoint.le_iff, checkpoint, addShared]
  · rw [contents_eq_iff]
    refine ⟨rfl, ?_, ?_, rfl, rfl, rfl⟩
    · simp [cut, truncate, checkpoint, addShared]
    · simp only [cut, truncate, checkpoint, addShared]
      apply FiniteMap.filter_insert
      · rw [FiniteMap.get?_filter, new, Option.filter_none]
      · simp [next]

/-- Adding a variable extends the session. -/
theorem extends_addVariable (name : String) (k : Kind) (internal : Bool) (ss : Session) :
  ss.Extends (addVariable name k internal ss).2
  := by
  constructor
  · simp [Checkpoint.le_iff, checkpoint, addVariable]
  · rw [contents_eq_iff]
    refine ⟨rfl, ?_, rfl, ?_, rfl, rfl⟩
    · simp [cut, truncate, checkpoint, addVariable]
    · simp [cut, truncate, checkpoint, addVariable]

/-- Adding an assertion extends the session. -/
theorem extends_addAssertion (h : Handle) (origin : Origin) (ss : Session) :
  ss.Extends (ss.addAssertion h origin)
  := by
  constructor
  · simp [Checkpoint.le_iff, checkpoint, addAssertion]
  · rw [contents_eq_iff]
    refine ⟨rfl, rfl, rfl, rfl, ?_, rfl⟩
    simp [cut, truncate, checkpoint, addAssertion]

open Emulation in
/-- Remembering a variable from above a checkpoint does not show below it, unless it replaces a
variable from below. -/
theorem cut_remember {cp : Checkpoint} {ss : Session} {op : Operator} {hs : List Handle}
    {h : Handle} (above : cp.nodes ≤ h.index) (new : (ss.cut cp).emulated? op hs = none) :
  ((remember op hs h ss).cut cp).contents = (ss.cut cp).contents
  := by
  rw [contents_eq_iff]
  refine ⟨rfl, rfl, rfl, rfl, rfl, ?_⟩
  simp only [cut, truncate, remember]
  apply FiniteMap.filter_insert new
  simpa using above

end StringTerms.Session
