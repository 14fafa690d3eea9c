import StringTerms.Proofs.Run

/-!
# Rolling back

A run keeps the table exact, so its rollbacks cut the session down.  A checkpoint stays below a run
that uses only checkpoints above it: cutting the session down to the checkpoint gives the same
contents before and after the run.  So a rollback undoes everything that happened since the
checkpoint was taken.  What it does not give back are remembered values whose variable was not in
the arena to begin with; only a definition that went below its own start leaves such a value.
-/

namespace StringTerms

/-! ### Sizes -/

/-- Rolling back stays above what both the session and the checkpoint are above. -/
theorem Session.le_checkpoint_truncate {c d : Checkpoint} {ss : Session} (hs : c ≤ ss.checkpoint)
    (hd : c ≤ d) :
  c ≤ (ss.truncate d).checkpoint
  := by
  obtain ⟨hn, hv, ha⟩ := hs
  obtain ⟨hn', hv', ha'⟩ := hd
  simp only [checkpoint] at hn hv ha
  simp [Checkpoint.le_iff, checkpoint, truncate]
  omega

theorem Session.emulated?_of_contents {ss tt : Session} (h : ss.contents = tt.contents)
    (op : Operator) (hs : List Handle) :
  ss.emulated? op hs = tt.emulated? op hs
  := by
  rw [emulated?, (contents_eq_iff.mp h).2.2.2.2.2, emulated?]

/-- A remembered value is kept exactly when its variable is. -/
theorem Session.emulated?_truncate (cp : Checkpoint) (ss : Session) (op : Operator)
    (hs : List Handle) :
  (ss.truncate cp).emulated? op hs = (ss.emulated? op hs).filter fun h => h.index < cp.nodes
  := FiniteMap.get?_filter _ _ _

theorem Session.emulated?_cut (cp : Checkpoint) (ss : Session) (op : Operator)
    (hs : List Handle) :
  (ss.cut cp).emulated? op hs = (ss.emulated? op hs).filter fun h => h.index < cp.nodes
  := emulated?_truncate cp ss op hs

theorem Session.emulated?_cut_of_none {cp : Checkpoint} {ss : Session} {op : Operator}
    {hs : List Handle} (none : ss.emulated? op hs = none) :
  (ss.cut cp).emulated? op hs = .none
  := by
  rw [emulated?_cut, none]
  rfl

/-- A condition that is known to hold requires nothing, and any other is asserted. -/
theorem Emulation.require_cases (condition : Value .bool) (ss : Session) :
  condition = .known true ∧ (require condition ss).2 = ss
    ∨ condition ≠ .known true ∧ (require condition ss).2
      = (condition.handle ss).2.addAssertion (condition.handle ss).1 .internal
  := by
  by_cases known : condition = .known true
  · left
    rw [require, if_pos known]
    exact ⟨known, rfl⟩
  · right
    rw [require, if_neg known]
    exact ⟨known, rfl⟩

/-- Asserting a condition grows the session. -/
theorem Emulation.growsTo_require (condition : Value .bool) (ss : Session) :
  ss.GrowsTo (require condition ss).2
  := by
  obtain ⟨-, same⟩ | ⟨-, asserted⟩ := require_cases condition ss
  · rw [same]
    apply Session.GrowsTo.refl
  · rw [asserted]
    apply ((grows_handle condition).grown ss).trans
    apply Session.growsTo_addAssertion

/-- A value is concluded by asserting its condition and remembering it. -/
theorem Emulation.conclude_eq (op : Operator) (hs : List Handle) (h : Handle)
    (condition : Value .bool) (ss : Session) :
  (conclude op hs h condition ss).2 = remember op hs h (require condition ss).2
  := rfl

/-- A value that is concluded is remembered. -/
theorem Emulation.emulated?_conclude (op : Operator) (hs : List Handle) (h : Handle)
    (condition : Value .bool) (ss : Session) :
  (conclude op hs h condition ss).2.emulated? op hs = some h
  := by
  rw [conclude_eq, Session.emulated?, remember, FiniteMap.get?_insert, if_pos rfl]

/-- An introduced value is a node that is remembered. -/
theorem Emulation.introduce_remembers (k : Kind) (op : Operator) (hs : List Handle)
    (define : Value k → Builder (Value .bool)) (ss : Session) :
  ∃ h, (introduce k op hs define ss).1 = .node h
    ∧ (introduce k op hs define ss).2.emulated? op hs = some h
  := by
  cases found : ss.emulated? op hs with
  | some h =>
      rw [introduce_of_known found]
      exact ⟨h, rfl, found⟩
  | none =>
      rw [introduce_of_new define found]
      exact ⟨ss.next, rfl, emulated?_conclude op hs ss.next _ _⟩

/-- A definition that has ended leaves the sizes at least as they were. -/
theorem Emulation.checkpoint_le_conclude (op : Operator) (hs : List Handle) (h : Handle)
    (condition : Value .bool) (ss : Session) :
  ss.checkpoint ≤ (conclude op hs h condition ss).2.checkpoint
  := (growsTo_require condition ss).sizes

/-- Remembering a new value does not show below a checkpoint that is below its variable. -/
theorem Emulation.cut_conclude {op : Operator} {hs : List Handle} {h : Handle}
    {cp : Checkpoint} {ss : Session} (sizes : cp ≤ ss.checkpoint) (above : cp.nodes ≤ h.index)
    (new : (ss.cut cp).emulated? op hs = none) (condition : Value .bool) :
  ((conclude op hs h condition ss).2.cut cp).contents = (ss.cut cp).contents
  := by
  have required := (growsTo_require condition ss).cut sizes
  have same : ((require condition ss).2.cut cp).emulations = (ss.cut cp).emulations :=
    (Session.contents_eq_iff.mp required).2.2.2.2.2
  rw [← required, conclude_eq]
  apply Session.cut_remember above
  rw [Session.emulated?, same]
  apply new

/-- Concluding a value that was new extends the session: its variable comes after what was there,
and no remembered value is replaced. -/
theorem Emulation.extends_conclude {op : Operator} {hs : List Handle} {ss tt : Session}
    (new : ss.emulated? op hs = none) (grows : ss.Extends tt) (condition : Value .bool) :
  ss.Extends (conclude op hs ss.next condition tt).2
  := by
  have none : (tt.cut ss.checkpoint).emulated? op hs = .none := by
    rw [Session.emulated?_of_contents grows.contents]
    apply Session.emulated?_cut_of_none new
  constructor
  · apply Checkpoint.le_trans grows.sizes
    apply checkpoint_le_conclude
  · apply (cut_conclude grows.sizes (Nat.le_refl _) none condition).trans grows.contents

/-- Introducing a value extends the session if its definition does. -/
theorem Emulation.extends_introduce {k : Kind} {define : Value k → Builder (Value .bool)}
    {ss : Session} (grows : (Session.freshInternal k ss).2.Extends (defined define ss).2)
    (op : Operator) (hs : List Handle) :
  ss.Extends (introduce k op hs define ss).2
  := by
  cases found : ss.emulated? op hs with
  | some h =>
      rw [introduce_of_known found]
      apply (growsTo_countReuse ss).toExtends
  | none =>
      rw [introduce_of_new define found]
      apply extends_conclude found
      apply (Session.growsTo_freshInternal k ss).toExtends.trans grows

/-- A definition that ends keeps the table exact. -/
theorem Session.TableExact.conclude {ss : Session} (exact : ss.TableExact) (op : Operator)
    (hs : List Handle) (h : Handle) (condition : Value .bool) :
  (Emulation.conclude op hs h condition ss).2.TableExact
  := ((Emulation.growsTo_require condition ss).exact exact).congr rfl rfl

/-! ### Exact tables -/

/-- A run keeps the table exact. -/
theorem Run.tableExact {P : Policy} {d : Nat} {H K : History} (run : Run P d H K)
    (exact : H.session.TableExact) :
  K.session.TableExact
  := by
  induction run with
  | refl => apply exact
  | edit _ e plain ih => apply (e.growsTo_perform plain _).exact (ih exact)
  | checkpoint _ ih => apply ih exact
  | rollback _ _ _ accepted ih =>
      obtain ⟨-, rfl⟩ := Session.rollback?_eq_ok_iff.mp accepted
      apply (ih exact).truncate
  | reuse _ _ ih => exact (ih exact).congr rfl rfl
  | @conclude d H K L run op hs k new body condition ih inner =>
      apply Session.TableExact.conclude
      apply inner ((ih exact).freshInternal k)
  | @giveUp d H K L run op hs k new body ss accepted ih inner =>
      obtain ⟨-, rfl⟩ := Session.rollback?_eq_ok_iff.mp accepted
      apply (inner ((ih exact).freshInternal k)).truncate
  | @stuck d H K L run op hs k new body e refused ih inner =>
      apply inner ((ih exact).freshInternal k)

/-- An edit keeps the table exact, whatever its operands are. -/
theorem Edit.tableExact_perform (e : Edit) {ss : Session} (exact : ss.TableExact) :
  (e.perform ss).TableExact
  := by
  obtain ⟨K, run, same⟩ := e.exists_run ss
  rw [← same]
  apply run.tableExact exact

/-! ### Runs above a checkpoint -/

namespace Run

variable {P : Policy} {d : Nat} {H K L : History}

/-- A checkpoint of a lower depth was there before the run. -/
theorem old_mark (run : Run P d H K) :
  ∀ m ∈ K.marks, m.depth < d → m ∈ H.marks
  := by
  induction run with
  | refl => exact fun m mem _ => mem
  | edit _ _ _ ih => exact ih
  | checkpoint _ ih =>
      intro m mem below
      obtain rfl | mem := List.mem_cons.mp mem
      · simp at below
      · apply ih m mem below
  | rollback _ _ _ _ ih => exact fun m mem => ih m (Policy.mem_of_mem_remaining mem)
  | reuse _ _ ih => exact ih
  | conclude _ _ _ _ ih inner =>
      intro m mem below
      apply ih m (inner m (Policy.mem_of_mem_handOver mem below) (Nat.lt_succ_of_lt below)) below
  | giveUp _ _ _ _ ih inner =>
      intro m mem below
      have mem := Policy.mem_of_mem_handOver (Policy.mem_of_mem_remaining mem) below
      apply ih m (inner m mem (Nat.lt_succ_of_lt below)) below
  | stuck _ _ _ _ ih inner =>
      intro m mem below
      apply ih m (inner m (Policy.mem_of_mem_handOver mem below) (Nat.lt_succ_of_lt below)) below

end Run

/-- Between two histories, all that happened happened above the checkpoint. -/
structure History.Above (P : Policy) (d : Nat) (cp : Checkpoint) (H K : History) : Prop where
  sizes : cp ≤ K.session.checkpoint
  marks : ∀ m ∈ K.marks, P.Allows d m → cp ≤ m.checkpoint
  contents : (K.session.cut cp).contents = (H.session.cut cp).contents
  conditions : ∀ op hs, (H.session.cut cp).emulated? op hs ≠ none →
    K.conditions.get? (op, hs) = H.conditions.get? (op, hs)

namespace History.Above

variable {P : Policy} {d : Nat} {H K L : History} {cp : Checkpoint}

/-- The nodes below the checkpoint are the same. -/
theorem node? (h : H.Above P d cp K) {g : Handle} (below : g.index < cp.nodes) :
  K.session.node? g = H.session.node? g
  := by
  have same : (K.session.cut cp).node? g = (H.session.cut cp).node? g := by
    simp only [Session.node?, (Session.contents_eq_iff.mp h.contents).2.1]
  rwa [Session.node?_cut, Session.node?_cut, if_pos below, if_pos below] at same

/-- What a definition may use, the run around it may use. -/
theorem marks_deeper (h : H.Above P d cp K) :
  ∀ m ∈ K.marks, P.Allows (d + 1) m → cp ≤ m.checkpoint
  := by
  intro m mem allowed
  apply h.marks m mem
  apply allowed.imp_right
  exact Nat.le_of_succ_le

/-- Extending the session happens above what it holds. -/
theorem extend (h : H.Above P d cp K) {tt : Session} (grows : K.session.Extends tt) :
  H.Above P d cp { K with session := tt }
  where
    sizes := Checkpoint.le_trans h.sizes grows.sizes
    marks := h.marks
    contents := (grows.cut h.sizes).trans h.contents
    conditions := h.conditions

/-- Cutting down to a checkpoint above another happens above that. -/
theorem cut (h : H.Above P d cp K) {c : Checkpoint} (le : cp ≤ c) :
  H.Above P d cp { K with
    session := K.session.cut c
    marks := P.remaining c K.marks }
  where
    sizes := Session.le_checkpoint_truncate h.sizes le
    marks m mem := h.marks m (Policy.mem_of_mem_remaining mem)
    contents := (Session.cut_cut le K.session).trans h.contents
    conditions := h.conditions

/-- A definition that happens above a checkpoint. -/
theorem define (h : H.Above P d cp K) {k : Kind}
    (body : Run P (d + 1) { K with session := (Session.freshInternal k K.session).2 } L)
    (inner : History.Above P (d + 1) cp
      { K with session := (Session.freshInternal k K.session).2 } L) :
  H.Above P d cp { L with marks := P.handOver d L.marks }
  := by
  have grown := (h.extend (Session.growsTo_freshInternal k K.session).toExtends).contents
  constructor
  · apply inner.sizes
  · intro m mem allowed
    obtain ⟨le, mem | ⟨-, n, mem, deeper, same⟩⟩ := Policy.exists_of_mem_handOver mem
    · apply h.marks m (body.old_mark m mem (Nat.lt_succ_of_le le)) allowed
    · rw [← same]
      apply inner.marks n mem (Or.inr deeper)
  · apply inner.contents.trans grown
  · intro op hs known
    rw [← h.conditions op hs known]
    apply inner.conditions op hs
    apply ne_of_eq_of_ne (Session.emulated?_of_contents grown op hs) known

/-- Concluding a new value happens above the checkpoints that are below its variable. -/
theorem conclude (h : H.Above P d cp K) {op : Operator} {hs : List Handle} {v : Handle}
    {condition : Value .bool} (above : cp.nodes ≤ v.index)
    (new : (H.session.cut cp).emulated? op hs = none) (asserted : Option Handle) :
  H.Above P d cp { K with
    session := (Emulation.conclude op hs v condition K.session).2
    conditions := K.conditions.insert (op, hs) asserted }
  := by
  have none : (K.session.cut cp).emulated? op hs = .none :=
    (Session.emulated?_of_contents h.contents op hs).trans new
  constructor
  · apply Checkpoint.le_trans h.sizes
    apply Emulation.checkpoint_le_conclude
  · apply h.marks
  · apply (Emulation.cut_conclude h.sizes above none condition).trans h.contents
  · intro op' hs' known
    rw [FiniteMap.get?_insert]
    split
    case isTrue same =>
      cases same
      contradiction
    case isFalse => apply h.conditions op' hs' known

end History.Above

namespace Run

variable {P : Policy} {d : Nat} {H K L : History} {cp : Checkpoint}

/-- A run from a session above a checkpoint, with all checkpoints above it, stays above it. -/
theorem above (run : Run P d H K) (exact : H.session.TableExact) (sizes : cp ≤ H.session.checkpoint)
    (marks : ∀ m ∈ H.marks, P.Allows d m → cp ≤ m.checkpoint) :
  H.Above P d cp K
  := by
  induction run with
  | refl => exact ⟨sizes, marks, rfl, fun _ _ _ => rfl⟩
  | edit _ e plain ih =>
      apply (ih exact sizes marks).extend
      apply (e.growsTo_perform plain _).toExtends
  | checkpoint _ ih =>
      have h := ih exact sizes marks
      refine ⟨h.sizes, ?_, h.contents, h.conditions⟩
      intro m mem allowed
      obtain rfl | mem := List.mem_cons.mp mem
      · apply h.sizes
      · apply h.marks m mem allowed
  | rollback run taken allowed accepted ih =>
      have h := ih exact sizes marks
      obtain ⟨-, rfl⟩ := (run.tableExact exact).rollback?_eq_ok_iff.mp accepted
      apply h.cut (h.marks _ taken allowed)
  | reuse _ known ih =>
      apply (ih exact sizes marks).extend
      apply (Emulation.growsTo_countReuse _).toExtends
  | @conclude d H K L run op hs k new body condition ih inner =>
      -- A value that is new in the session is new below the checkpoint, so no entry is replaced.
      have h := ih exact sizes marks
      have start := h.extend (Session.growsTo_freshInternal k K.session).toExtends
      have begun := (run.tableExact exact).freshInternal k
      have done := h.define body (inner begun start.sizes (start.marks_deeper))
      have none : (H.session.cut cp).emulated? op hs = .none :=
        (Session.emulated?_of_contents h.contents op hs).symm.trans
          (Session.emulated?_cut_of_none new)
      apply done.conclude h.sizes.1 none
  | @giveUp d H K L run op hs k new body ss accepted ih inner =>
      have h := ih exact sizes marks
      have start := h.extend (Session.growsTo_freshInternal k K.session).toExtends
      have begun := (run.tableExact exact).freshInternal k
      have done := h.define body (inner begun start.sizes (start.marks_deeper))
      obtain ⟨-, rfl⟩ := (body.tableExact begun).rollback?_eq_ok_iff.mp accepted
      apply done.cut h.sizes
  | @stuck d H K L run op hs k new body e refused ih inner =>
      have h := ih exact sizes marks
      have start := h.extend (Session.growsTo_freshInternal k K.session).toExtends
      have begun := (run.tableExact exact).freshInternal k
      apply h.define body (inner begun start.sizes (start.marks_deeper))

end Run

/-! ### What a rollback restores -/

namespace Session

/-- Every remembered value is a node of the arena. -/
def EmulationsInside (ss : Session) : Prop :=
  ∀ op hs h, ss.emulated? op hs = some h → h.index < ss.nodes.size

theorem size_truncate {cp : Checkpoint} {ss : Session} (fits : cp.nodes ≤ ss.nodes.size) :
  (ss.truncate cp).nodes.size = cp.nodes
  := by
  simp [truncate, Nat.min_eq_left fits]

/-- Rolling back leaves only remembered values that are left in the arena. -/
theorem EmulationsInside.truncate {cp : Checkpoint} {ss : Session}
    (fits : cp.nodes ≤ ss.nodes.size) :
  (ss.truncate cp).EmulationsInside
  := by
  intro op hs h known
  rw [emulated?_truncate, Option.filter_eq_some_iff] at known
  rw [size_truncate fits]
  apply of_decide_eq_true known.2

/-- Extending the session keeps the remembered values in the arena. -/
theorem EmulationsInside.grow {ss tt : Session} (inside : ss.EmulationsInside)
    (grows : ss.GrowsTo tt) :
  tt.EmulationsInside
  := by
  intro op hs h known
  rw [emulated?, grows.emulations] at known
  apply Nat.lt_of_lt_of_le (inside op hs h known) grows.sizes.1

/-- Remembering a node of the arena. -/
theorem EmulationsInside.conclude {ss : Session} (inside : ss.EmulationsInside) {op : Operator}
    {hs : List Handle} {h : Handle} (held : h.index < ss.nodes.size) (condition : Value .bool) :
  (Emulation.conclude op hs h condition ss).2.EmulationsInside
  := by
  have grows := Emulation.growsTo_require condition ss
  rw [Emulation.conclude_eq]
  intro op' hs' g known
  rw [emulated?, Emulation.remember, FiniteMap.get?_insert] at known
  split at known
  case isTrue =>
    cases known
    apply Nat.lt_of_lt_of_le held grows.sizes.1
  case isFalse => apply inside.grow grows op' hs' g known

/-- Cutting a session down to its own sizes drops only remembered values that are not in the
arena. -/
theorem cut_checkpoint_iff {ss : Session} (inside : ss.TableInside) :
  (ss.cut ss.checkpoint).contents = ss.contents ↔ ss.EmulationsInside
  := by
  constructor
  · intro same op hs h known
    rw [← emulated?_of_contents same, emulated?_cut, Option.filter_eq_some_iff] at known
    apply of_decide_eq_true known.2
  · intro kept
    rw [contents_eq_iff]
    refine ⟨rfl, ?_, ?_, ?_, ?_, ?_⟩
    · simp [cut, truncate, checkpoint]
    · simp only [cut, checkpoint]
      apply FiniteMap.filter_eq_self
      rintro ⟨n, h⟩ mem
      apply decide_eq_true (inside n h (FiniteMap.get?_eq_some_iff.mpr mem))
    · simp [cut, truncate, checkpoint]
    · simp [cut, truncate, checkpoint]
    · simp only [cut, truncate, checkpoint]
      apply FiniteMap.filter_eq_self
      rintro ⟨⟨op, hs⟩, h⟩ mem
      apply decide_eq_true (kept op hs h (FiniteMap.get?_eq_some_iff.mpr mem))

end Session

namespace Run

variable {P : Policy} {d : Nat} {H K L : History}

/-- The checkpoints of a run are of its depth or of a lower one. -/
theorem depth_le (run : Run P d H K) (marks : ∀ m ∈ H.marks, m.depth ≤ d) :
  ∀ m ∈ K.marks, m.depth ≤ d
  := by
  induction run with
  | refl => apply marks
  | edit _ _ _ ih => apply ih marks
  | checkpoint _ ih =>
      intro m mem
      obtain rfl | mem := List.mem_cons.mp mem
      · apply Nat.le_refl
      · apply ih marks m mem
  | rollback _ _ _ _ ih =>
      exact fun m mem => ih marks m (Policy.mem_of_mem_remaining mem)
  | reuse _ _ ih => apply ih marks
  | conclude => exact fun m mem => (Policy.exists_of_mem_handOver mem).1
  | giveUp =>
      exact fun m mem => (Policy.exists_of_mem_handOver (Policy.mem_of_mem_remaining mem)).1
  | stuck => exact fun m mem => (Policy.exists_of_mem_handOver mem).1

/-- A definition that uses only checkpoints of its own stays above its start. -/
theorem above_of_own (own : P.outer = false) (marks : ∀ m ∈ K.marks, m.depth ≤ d) {ss : Session}
    (exact : ss.TableExact) (body : Run P (d + 1) { K with session := ss } L) {cp : Checkpoint}
    (sizes : cp ≤ ss.checkpoint) :
  History.Above P (d + 1) cp { K with session := ss } L
  := by
  apply body.above exact sizes
  rintro m mem (outer | deeper)
  · rw [own] at outer
    cases outer
  · have le := marks m mem
    omega

/-- Where definitions use only checkpoints of their own, every remembered value stays in the
arena. -/
theorem emulationsInside (own : P.outer = false) (run : Run P d H K) (exact : H.session.TableExact)
    (marks : ∀ m ∈ H.marks, m.depth ≤ d) (inside : H.session.EmulationsInside) :
  K.session.EmulationsInside
  := by
  induction run with
  | refl => apply inside
  | edit _ e plain ih =>
      apply (ih exact marks inside).grow (e.growsTo_perform plain _)
  | checkpoint _ ih => apply ih exact marks inside
  | rollback _ _ _ accepted ih =>
      obtain ⟨fits, rfl⟩ := Session.rollback?_eq_ok_iff.mp accepted
      apply Session.EmulationsInside.truncate fits
  | reuse _ _ ih => apply ih exact marks inside
  | @conclude d H K L run op hs k new body condition ih inner =>
      have kept := run.depth_le marks
      have grows := Session.growsTo_freshInternal k K.session
      have begun := grows.exact (run.tableExact exact)
      have held : K.session.next.index < L.session.nodes.size := by
        have above := body.above_of_own own kept begun (Checkpoint.le_refl _)
        apply Nat.lt_of_lt_of_le _ above.sizes.1
        simp [Session.freshInternal, Session.addVariable, Session.checkpoint, Session.next]
      apply Session.EmulationsInside.conclude _ held
      apply inner begun (fun m mem => Nat.le_succ_of_le (kept m mem))
      apply (ih exact marks inside).grow grows
  | giveUp _ _ _ accepted ih inner =>
      obtain ⟨fits, rfl⟩ := Session.rollback?_eq_ok_iff.mp accepted
      apply Session.EmulationsInside.truncate fits
  | @stuck d H K L run op hs k new body e refused ih inner =>
      have kept := run.depth_le marks
      have grows := Session.growsTo_freshInternal k K.session
      apply inner (grows.exact (run.tableExact exact))
      · exact fun m mem => Nat.le_succ_of_le (kept m mem)
      · apply (ih exact marks inside).grow grows

/-- A definition that goes below its own start leaves a remembered value that is not in the
arena. -/
theorem exists_dangling (inner stale : Bool) :
  ∃ H : History, Run ⟨true, inner, stale⟩ 0 (.start {}) H
    ∧ H.session.emulated? .length [] = some ⟨0⟩ ∧ H.session.nodes.size = 0
    ∧ H.session.emulated? .add [] = none
  := by
  -- The definition cuts off its own variable, which is remembered all the same.
  let P : Policy := ⟨true, inner, stale⟩
  let taken : History := { History.start {} with marks := [⟨0, ⟨0, 0, 0⟩⟩] }
  let begun : History := { taken with session := (Session.freshInternal .bool taken.session).2 }
  have checked : Run P 0 (.start {}) taken := (Run.refl _).checkpoint
  have body := (Run.refl (P := P) (d := 1) begun).rollback (List.mem_singleton.mpr rfl)
    (Or.inl rfl) rfl
  have new : taken.session.emulated? .length [] = none := rfl
  exact ⟨_, checked.conclude new body (.known true), rfl, rfl, rfl⟩

/-- A rollback to a checkpoint that was taken outside of definitions is accepted after every run
that uses only later checkpoints, and it restores the contents of the session exactly when every
value that was remembered at the checkpoint was a node of the arena.  So it is where definitions
use only checkpoints of their own. -/
theorem rollback_restores_iff {P Q : Policy} {c : Configuration} {S K : History}
    (reached : Run P 0 (.start c) S) (later : Run Q 0 { S with marks := [] } K) :
  ∃ restored, K.session.rollback? S.session.checkpoint = .ok restored
    ∧ (restored.contents = S.session.contents ↔ S.session.EmulationsInside)
    ∧ (P.outer = false → restored.contents = S.session.contents)
  := by
  have exact := reached.tableExact (Session.TableExact.empty c)
  have kept := later.above exact (Checkpoint.le_refl S.session.checkpoint)
    (fun m mem => by cases mem)
  have restores : (K.session.cut S.session.checkpoint).contents = S.session.contents
      ↔ S.session.EmulationsInside := by
    rw [kept.contents]
    apply Session.cut_checkpoint_iff exact.inside
  use K.session.cut S.session.checkpoint,
    (later.tableExact exact).rollback?_eq_ok_iff.mpr ⟨kept.sizes.1, rfl⟩, restores
  intro own
  rw [restores]
  apply reached.emulationsInside own (Session.TableExact.empty c) (fun m mem => by cases mem)
  intro op hs h known
  cases known

/-- A value remembered by a definition that went below its own start is not given back. -/
theorem rollback_forgets_dangling :
  ∃ S : History, Run ⟨true, true, true⟩ 0 (.start {}) S
    ∧ ∃ restored, S.session.rollback? S.session.checkpoint = .ok restored
      ∧ restored.contents ≠ S.session.contents
  := by
  obtain ⟨S, reached, known, empty, -⟩ := exists_dangling true true
  have later : Run ⟨true, true, true⟩ 0 { S with marks := [] } { S with marks := [] } := .refl _
  obtain ⟨restored, accepted, restores, -⟩ := rollback_restores_iff reached later
  use S, reached, restored, accepted
  rw [ne_eq, restores]
  intro inside
  have below := inside .length [] ⟨0⟩ known
  rw [empty] at below
  exact absurd below (Nat.lt_irrefl 0)

end Run

end StringTerms
