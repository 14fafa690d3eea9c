import StringTerms.Proofs.Closure
import StringTerms.Proofs.Execution

/-!
# Well-formed sessions

A session is well-formed when the records of its variables and the variables of its arena are the
same, in the same order, every assertion is a node of kind Bool, and every remembered value is an
internal variable.  Requests keep a session well-formed, and a rollback does where the session cut
down to the checkpoint is so.  That is the case for every checkpoint that may be used, exactly when
no definition uses a checkpoint from before its start and no checkpoint is used after a rollback
below it.
-/

namespace StringTerms

namespace Session

/-- The node is a variable that the library introduced. -/
def IsInternal (ss : Session) (h : Handle) : Prop :=
  ∃ i v, ss.node? h = some (.var i v.kind) ∧ ss.variableRecord? i = some v ∧ v.internal = true

/-- Records and variables agree, assertions are of kind Bool, and remembered values are internal
variables. -/
structure WellFormed (ss : Session) : Prop where
  /-- A record names the variable with its number and its kind. -/
  named : ∀ {i v}, ss.variableRecord? i = some v → ss.node? v.handle = some (.var i v.kind)
  /-- A variable has the record with its number. -/
  recorded : ∀ {h i k}, ss.node? h = some (.var i k) →
    ∃ v, ss.variableRecord? i = some v ∧ v.handle = h
  asserted : ∀ a ∈ ss.assertions, ss.kind? a.handle = some .bool
  emulated : ∀ {op hs h}, ss.emulated? op hs = some h → ss.IsInternal h

/-- No two nodes are variables with the same number. -/
def DistinctVariables (ss : Session) : Prop :=
  ∀ g h i j k, ss.node? g = some (.var i j) → ss.node? h = some (.var i k) → g = h

variable {ss tt : Session} {h : Handle} {k : Kind} {cp : Checkpoint}

theorem IsInternal.extend (internal : ss.IsInternal h) (grows : ss.Extends tt) :
  tt.IsInternal h
  := by
  obtain ⟨i, v, node, record, flag⟩ := internal
  exact ⟨i, v, grows.node? node, grows.variableRecord? record, flag⟩

theorem IsInternal.congr (internal : ss.IsInternal h) (nodes : tt.nodes = ss.nodes)
    (vars : tt.vars = ss.vars) :
  tt.IsInternal h
  := by
  simpa only [IsInternal, node?, variableRecord?, nodes, vars] using internal

/-! ### Requests -/

theorem variableRecord?_addVariable (name : String) (k : Kind) (internal : Bool) (ss : Session)
    (i : Nat) :
  (addVariable name k internal ss).2.variableRecord? i
    = if i = ss.vars.size then some ⟨name, k, ss.next, internal⟩ else ss.variableRecord? i
  := by
  simp [addVariable, variableRecord?, Array.getElem?_push]

/-- The records below the checkpoint stay, and no others. -/
theorem variableRecord?_truncate (cp : Checkpoint) (ss : Session) (i : Nat) :
  (ss.truncate cp).variableRecord? i = if i < cp.vars then ss.variableRecord? i else none
  := by
  simp only [truncate, variableRecord?, Array.take_eq_extract, Array.getElem?_extract]
  by_cases below : i < cp.vars
  · by_cases inside : i < ss.vars.size
    · have bound : i < min cp.vars ss.vars.size := by omega
      simp [below, bound]
    · have outside : ss.vars.size ≤ i := by omega
      simp [outside]
  · have bound : ¬ i < min cp.vars ss.vars.size := by omega
    simp [below, bound]

theorem variableRecord?_cut (cp : Checkpoint) (ss : Session) (i : Nat) :
  (ss.cut cp).variableRecord? i = if i < cp.vars then ss.variableRecord? i else none
  := variableRecord?_truncate cp ss i

theorem isInternal_freshInternal (k : Kind) (ss : Session) :
  (freshInternal k ss).2.IsInternal ss.next
  := by
  use ss.vars.size, ⟨ss.unusedName "!", k, ss.next, true⟩
  constructor
  · apply (node?_addVariable _ k true ss ss.next).trans (if_pos rfl)
  · exact ⟨(variableRecord?_addVariable _ k true ss _).trans (if_pos rfl), rfl⟩

theorem wellFormed_empty (c : Configuration) :
  WellFormed { configuration := c }
  where
    named hv := by cases hv
    recorded hn := by cases hn
    asserted a mem := by simp at mem
    emulated known := by cases known

/-! ### Records -/

/-- Every variable of the arena has a record that names it. -/
def Recorded (ss : Session) : Prop :=
  ∀ h i k, ss.node? h = some (.var i k) → ∃ v, ss.variableRecord? i = some v ∧ v.handle = h

namespace Recorded

theorem congr (recorded : ss.Recorded) (nodes : tt.nodes = ss.nodes) (vars : tt.vars = ss.vars) :
  tt.Recorded
  := by
  simpa only [Recorded, node?, variableRecord?, nodes, vars] using recorded

theorem of_contents (recorded : ss.Recorded) (same : tt.contents = ss.contents) :
  tt.Recorded
  := by
  obtain ⟨-, nodes, -, vars, -⟩ := contents_eq_iff.mp same
  apply recorded.congr nodes vars

/-- Sharing nodes adds no variable. -/
theorem shares (recorded : ss.Recorded) (shares : ss.Shares tt) :
  tt.Recorded
  := by
  intro h i k node
  rw [variableRecord?, shares.vars]
  apply recorded h i k (shares.oldVar node)

/-- A new variable gets the next record. -/
theorem addVariable (recorded : ss.Recorded) (name : String) (k : Kind) (internal : Bool) :
  (Session.addVariable name k internal ss).2.Recorded
  := by
  intro h i j node
  rw [node?_addVariable] at node
  split at node
  case isTrue last =>
    cases node
    refine ⟨_, (variableRecord?_addVariable name k internal ss _).trans (if_pos rfl), last.symm⟩
  case isFalse =>
    obtain ⟨v, record, same⟩ := recorded h i j node
    exact ⟨v, (extends_addVariable name k internal ss).variableRecord? record, same⟩

/-- A variable is determined by its number. -/
theorem distinctVariables (recorded : ss.Recorded) :
  ss.DistinctVariables
  := by
  intro g h i j k hg hh
  obtain ⟨v, record, rfl⟩ := recorded g i j hg
  obtain ⟨v', record', rfl⟩ := recorded h i k hh
  rw [record] at record'
  cases record'
  rfl

end Recorded

/-! ### Well-formed sessions -/

namespace WellFormed

theorem isRecorded (wf : ss.WellFormed) :
  ss.Recorded
  := fun _ _ _ node => wf.recorded node

theorem distinctVariables (wf : ss.WellFormed) :
  ss.DistinctVariables
  := wf.isRecorded.distinctVariables

theorem of_contents (wf : ss.WellFormed) (same : tt.contents = ss.contents) :
  tt.WellFormed
  := by
  obtain ⟨-, nodes, -, vars, assertions, emulations⟩ := contents_eq_iff.mp same
  have node : ∀ h, tt.node? h = ss.node? h := fun h => by rw [node?, nodes, node?]
  have record : ∀ i, tt.variableRecord? i = ss.variableRecord? i := fun i => by
    rw [variableRecord?, vars, variableRecord?]
  constructor
  · intro i v
    rw [record, node]
    apply wf.named
  · exact fun node => wf.isRecorded.congr nodes vars _ _ _ node
  · rw [assertions]
    simpa only [kind?, node] using wf.asserted
  · intro op hs h known
    rw [emulated?, emulations] at known
    apply (wf.emulated known).congr nodes vars

/-- Sharing nodes. -/
theorem shares (wf : ss.WellFormed) (shares : ss.Shares tt) :
  tt.WellFormed
  := by
  have records : ∀ i, tt.variableRecord? i = ss.variableRecord? i := fun i => by
    rw [variableRecord?, shares.vars, variableRecord?]
  constructor
  · intro i v hv
    rw [records] at hv
    apply shares.node? (wf.named hv)
  · exact fun node => wf.isRecorded.shares shares _ _ _ node
  · intro a mem
    rw [shares.assertions] at mem
    apply shares.kind? (wf.asserted a mem)
  · intro op hs h known
    rw [emulated?, shares.emulations] at known
    apply (wf.emulated known).extend shares.toExtends

/-- A new variable gets the next record. -/
theorem addVariable (wf : ss.WellFormed) (name : String) (k : Kind) (internal : Bool) :
  (Session.addVariable name k internal ss).2.WellFormed
  := by
  have grows := extends_addVariable name k internal ss
  constructor
  · intro i v hv
    rw [variableRecord?_addVariable] at hv
    split at hv
    case isTrue last =>
      cases hv
      rw [node?_addVariable, if_pos rfl, last]
    case isFalse => apply grows.node? (wf.named hv)
  · exact fun node => wf.isRecorded.addVariable name k internal _ _ _ node
  · exact fun a mem => grows.kind? (wf.asserted a mem)
  · exact fun known => (wf.emulated known).extend grows

/-- A node of kind Bool is asserted. -/
theorem addAssertion (wf : ss.WellFormed) (kind : ss.kind? h = some .bool) (origin : Origin) :
  (ss.addAssertion h origin).WellFormed
  where
    named := wf.named
    recorded := wf.recorded
    asserted a mem := by
      obtain mem | rfl := Array.mem_push.mp mem
      · apply wf.asserted a mem
      · apply kind
    emulated := wf.emulated

/-- An internal variable is remembered. -/
theorem remember (wf : ss.WellFormed) (op : Operator) (hs : List Handle)
    (internal : ss.IsInternal h) :
  (Emulation.remember op hs h ss).WellFormed
  where
    named := wf.named
    recorded := wf.recorded
    asserted := wf.asserted
    emulated known := by
      rw [emulated?, Emulation.remember, FiniteMap.get?_insert] at known
      split at known
      case isTrue =>
        cases known
        apply internal
      case isFalse => apply wf.emulated known

/-- A condition of kind Bool is asserted, unless it is known to hold. -/
theorem require (wf : ss.WellFormed) (exact : ss.TableExact) {condition : Value .bool}
    (held : ss.Holds condition) :
  (Emulation.require condition ss).2.WellFormed
  := by
  obtain ⟨-, same⟩ | ⟨-, asserted⟩ := Emulation.require_cases condition ss
  · rw [same]
    apply wf
  · rw [asserted]
    cases condition with
    | node f => exact wf.addAssertion held .internal
    | known v =>
        have term : (Node.literal (.of .bool v)).var? = none := rfl
        have node := exact.node?_share term
        exact (wf.shares (shares_share term)).addAssertion (kind?_of_node? node) .internal

theorem conclude (wf : ss.WellFormed) (exact : ss.TableExact) {condition : Value .bool}
    (held : ss.Holds condition) (op : Operator) (hs : List Handle) (internal : ss.IsInternal h) :
  (Emulation.conclude op hs h condition ss).2.WellFormed
  := by
  have grows := Emulation.growsTo_require condition ss
  exact (wf.require exact held).remember op hs (internal.extend grows.toExtends)

end WellFormed

/-- Well-formed sessions with an exact table, where handles used at some of the kinds are nodes of
these kinds. -/
@[reducible] def forming (p : Kind → Prop) : Discipline where
  sound ss := ss.WellFormed ∧ ss.TableExact
  usable ss k h := p k → ss.kind? h = some k
  mono grows usable hk := grows.kind? (usable hk)
  fold sound := ⟨sound.1.of_contents rfl, sound.2.congr rfl rfl⟩
  share sound term _ := by
    have node := sound.2.node?_share term
    exact ⟨⟨sound.1.shares (shares_share term), sound.2.share term⟩, fun _ => kind?_of_node? node⟩

/-- Only conditions have to be of their kind where a value is introduced. -/
theorem introduces_forming :
  (forming (· = .bool)).Introduces
  where
    reuse sound := ⟨sound.1.of_contents rfl, sound.2.congr rfl rfl⟩
    begin {ss} k sound := by
      refine ⟨⟨sound.1.addVariable _ k true, sound.2.freshInternal k⟩, fun _ => ?_⟩
      apply kind?_of_node? ((node?_addVariable _ k true ss ss.next).trans (if_pos rfl))
    conclude {ss tt k op hs condition} grows sound admitted := by
      have held : tt.Holds condition := by
        cases condition with
        | known v => trivial
        | node h => apply admitted rfl
      have internal := (isInternal_freshInternal k ss).extend grows
      exact ⟨sound.1.conclude sound.2 held op hs internal, sound.2.conclude _ _ _ _⟩

/-- No operand has to be of its kind. -/
theorem closed_forming :
  (forming fun _ => False).Closed
  where
    node _ other := other.elim
    addVariable name k internal sound :=
      ⟨sound.1.addVariable name k internal, sound.2.addVariable name k internal⟩
    addAssertion origin sound kind := ⟨sound.1.addAssertion kind origin, sound.2.congr rfl rfl⟩
    extract {ss s i} sound _ _ := by
      have string : (forming (· = .bool)).Admits ss s := by
        cases s with
        | known v => trivial
        | node h => exact fun other => by cases other
      have position : (forming (· = .bool)).Admits ss i := by
        cases i with
        | known v => trivial
        | node h => exact fun other => by cases other
      apply introduces_forming.extract sound string position

end Session

end StringTerms
