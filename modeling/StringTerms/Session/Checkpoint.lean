import StringTerms.Session.Nodes

/-!
# Checkpoints

A checkpoint records how many nodes, variables and assertions a session has.  Rolling back to it
discards what was added since.  Each node that is discarded is erased from the table, as a key of
it, and so are the emulated values that name a discarded node.  A checkpoint with more nodes than
the arena is refused; the statistics go on counting.
-/

namespace StringTerms

/-- The sizes of a session at some time. -/
structure Checkpoint where
  nodes : Nat
  vars : Nat
  assertions : Nat
deriving DecidableEq, Repr, Inhabited

namespace Session

/-- The present sizes. -/
def checkpoint (ss : Session) : Checkpoint :=
  ⟨ss.nodes.size, ss.vars.size, ss.assertions.size⟩

/-- The nodes beyond the sizes of a checkpoint, in their order. -/
def nodesBeyond (cp : Checkpoint) (ss : Session) : List Node := ss.nodes.toList.drop cp.nodes

/-- The session without what is beyond the sizes of a checkpoint. -/
def truncate (cp : Checkpoint) (ss : Session) : Session :=
  { ss with
    nodes := ss.nodes.take cp.nodes
    table := ss.table.eraseAll (ss.nodesBeyond cp)
    vars := ss.vars.take cp.vars
    assertions := ss.assertions.take cp.assertions
    emulations := ss.emulations.filter fun _ h => h.index < cp.nodes
    statistics.rollbacks := ss.statistics.rollbacks + 1 }

/-- The session rolled back to a checkpoint that has no more nodes than the arena. -/
def rollback? (cp : Checkpoint) (ss : Session) : Except Error Session :=
  if cp.nodes ≤ ss.nodes.size then
    .ok (ss.truncate cp)
  else
    .error (.checkpointAhead cp.nodes ss.nodes.size)

/-- The nodes below the checkpoint stay, and no others. -/
theorem node?_truncate (cp : Checkpoint) (ss : Session) (h : Handle) :
  (ss.truncate cp).node? h = if h.index < cp.nodes then ss.node? h else none
  := by
  simp only [truncate, node?, Array.take_eq_extract, Array.getElem?_extract]
  by_cases below : h.index < cp.nodes
  · by_cases inside : h.index < ss.nodes.size
    · have bound : h.index < min cp.nodes ss.nodes.size := by omega
      simp [below, bound]
    · have outside : ss.nodes.size ≤ h.index := by omega
      simp [outside]
  · have bound : ¬ h.index < min cp.nodes ss.nodes.size := by omega
    simp [below, bound]

/-- The nodes that are discarded are those of the handles that are not below the checkpoint. -/
theorem mem_nodesBeyond_iff {cp : Checkpoint} {ss : Session} {n : Node} :
  n ∈ ss.nodesBeyond cp ↔ ∃ h : Handle, cp.nodes ≤ h.index ∧ ss.node? h = some n
  := by
  simp only [nodesBeyond, List.mem_iff_getElem?, List.getElem?_drop, Array.getElem?_toList]
  constructor
  · rintro ⟨i, found⟩
    exact ⟨⟨cp.nodes + i⟩, Nat.le_add_right _ _, found⟩
  · rintro ⟨h, beyond, found⟩
    refine ⟨h.index - cp.nodes, ?_⟩
    rw [Nat.add_sub_cancel' beyond]
    apply found

/-- The table keeps the entries of the nodes that are not discarded. -/
theorem table_truncate_eq_some_iff {cp : Checkpoint} {ss : Session} {n : Node} {h : Handle} :
  (ss.truncate cp).table.get? n = some h ↔ ss.table.get? n = some h ∧ n ∉ ss.nodesBeyond cp
  := FiniteMap.get?_eraseAll_eq_some_iff

/-- A node that is not among the discarded ones stays at its handle. -/
theorem node?_truncate_of_kept {cp : Checkpoint} {ss : Session} {n : Node} {h : Handle}
    (found : ss.node? h = some n) (kept : n ∉ ss.nodesBeyond cp) :
  (ss.truncate cp).node? h = some n
  := by
  rw [node?_truncate]
  split
  case isTrue => apply found
  case isFalse beyond =>
    apply absurd (mem_nodesBeyond_iff.mpr _) kept
    exact ⟨h, Nat.le_of_not_lt beyond, found⟩

/-- A rollback is carried out exactly when the checkpoint has no more nodes than the arena. -/
theorem rollback?_eq_ok_iff {cp : Checkpoint} {ss restored : Session} :
  ss.rollback? cp = .ok restored ↔ cp.nodes ≤ ss.nodes.size ∧ restored = ss.truncate cp
  := by
  unfold rollback?
  split
  case isTrue fits => simp [fits, eq_comm]
  case isFalse ahead => simp [ahead]

/-- Rolls the session back. -/
def rollback (cp : Checkpoint) : Request Unit := do
  set (← (← get).rollback? cp)

end Session

end StringTerms
