import StringTerms.Proofs.Rollback

/-!
# Remembered values in force

A remembered value is in force when its variable is in the arena and its condition is asserted.
Where every checkpoint is used in the very definition that took it, or outside of definitions if it
was taken there, and none is used after a rollback below it, all remembered values stay in force.
Neither restriction can be given up: a definition may go below its own variable, and a checkpoint
from within a definition, used after its end, keeps the variable and drops the assertion.
-/

namespace StringTerms

namespace Session

/-- The term is one of the assertions. -/
def Asserts (ss : Session) (h : Handle) : Prop := ∃ a ∈ ss.assertions, a.handle = h

/-- The node is a variable. -/
def IsVariable (ss : Session) (h : Handle) : Prop := ∃ n k, ss.node? h = some (.var n k)

/-- Every remembered value is a variable of the arena, and the condition under which it was
introduced was known to hold or is asserted. -/
def InForce (ss : Session) (conditions : FiniteMap (Operator × List Handle) (Option Handle)) :
    Prop :=
  ∀ op hs v, ss.emulated? op hs = some v → ss.IsVariable v
    ∧ ∃ condition, conditions.get? (op, hs) = some condition
      ∧ ∀ h, condition = some h → ss.Asserts h

theorem Extends.asserts {ss tt : Session} (grows : ss.Extends tt) {h : Handle}
    (asserted : ss.Asserts h) :
  tt.Asserts h
  := by
  obtain ⟨a, mem, same⟩ := asserted
  exact ⟨a, grows.mem_assertions mem, same⟩

namespace InForce

variable {ss tt : Session} {conditions : FiniteMap (Operator × List Handle) (Option Handle)}

theorem of_contents (h : ss.InForce conditions) (same : tt.contents = ss.contents) :
  tt.InForce conditions
  := by
  obtain ⟨-, hn, -, -, ha, -⟩ := contents_eq_iff.mp same
  intro op hs v known
  rw [emulated?_of_contents same] at known
  have inForce := h op hs v known
  simpa only [IsVariable, Asserts, node?, hn, ha] using inForce

theorem extend (h : ss.InForce conditions) (grows : ss.GrowsTo tt) :
  tt.InForce conditions
  := by
  intro op hs v known
  rw [emulated?, grows.emulations] at known
  obtain ⟨⟨n, k, hv⟩, condition, found, asserted⟩ := h op hs v known
  refine ⟨⟨n, k, grows.node? hv⟩, condition, found, ?_⟩
  intro g same
  apply grows.asserts (asserted g same)

/-- Cutting a session down to its own sizes drops nothing that is in force. -/
theorem cut_checkpoint (h : ss.InForce conditions) :
  (ss.cut ss.checkpoint).InForce conditions
  := by
  intro op hs v known
  rw [emulated?_cut, Option.filter_eq_some_iff] at known
  obtain ⟨⟨n, k, hv⟩, condition, found, asserted⟩ := h op hs v known.1
  constructor
  · use n, k
    rw [node?_cut, if_pos (of_decide_eq_true known.2)]
    apply hv
  · refine ⟨condition, found, ?_⟩
    intro g same
    obtain ⟨a, mem, same⟩ := asserted g same
    exact ⟨a, by simpa [cut, truncate, checkpoint] using mem, same⟩

/-- Only the conditions of remembered values matter. -/
theorem congr (h : ss.InForce conditions)
    {conditions' : FiniteMap (Operator × List Handle) (Option Handle)}
    (same : ∀ op hs, ss.emulated? op hs ≠ none →
      conditions'.get? (op, hs) = conditions.get? (op, hs)) :
  ss.InForce conditions'
  := by
  intro op hs v known
  rw [same op hs (by simp [known])]
  apply h op hs v known

/-- The condition that is asserted. -/
theorem asserts_require {condition : Value .bool} {h : Handle}
    (asserted : Emulation.asserted condition ss = some h) :
  (Emulation.require condition ss).2.Asserts h
  := by
  obtain ⟨known, -⟩ | ⟨unknown, required⟩ := Emulation.require_cases condition ss
  · rw [Emulation.asserted, if_pos known] at asserted
    cases asserted
  · rw [Emulation.asserted, if_neg unknown] at asserted
    cases asserted
    rw [required]
    use ⟨(condition.handle ss).1, .internal⟩
    simp [addAssertion]

/-- A variable that is concluded is in force. -/
theorem conclude (h : ss.InForce conditions) {op : Operator} {hs : List Handle} {v : Handle}
    (isVariable : ss.IsVariable v) (condition : Value .bool) :
  (Emulation.conclude op hs v condition ss).2.InForce
    (conditions.insert (op, hs) (Emulation.asserted condition ss))
  := by
  have grows := Emulation.growsTo_require condition ss
  rw [Emulation.conclude_eq]
  intro op' hs' w known
  rw [emulated?, Emulation.remember, FiniteMap.get?_insert] at known
  rw [FiniteMap.get?_insert]
  split at known
  case isTrue same =>
    cases known
    obtain ⟨n, k, hv⟩ := isVariable
    rw [if_pos same]
    refine ⟨⟨n, k, grows.node? hv⟩, _, rfl, ?_⟩
    intro g asserted
    apply asserts_require asserted
  case isFalse other =>
    rw [if_neg other]
    apply h.extend grows op' hs' w known

end InForce

end Session

/-- The values of a history are in force, and are so when it is cut down to one of its
checkpoints. -/
structure History.Sound (d : Nat) (H : History) : Prop where
  inForce : H.session.InForce H.conditions
  depth : ∀ m ∈ H.marks, m.depth ≤ d
  sizes : ∀ m ∈ H.marks, m.checkpoint ≤ H.session.checkpoint
  kept : ∀ m ∈ H.marks, (H.session.cut m.checkpoint).InForce H.conditions

namespace History.Sound

variable {P : Policy} {d : Nat} {H K L : History}

theorem extend (h : H.Sound d) {ss : Session} (grows : H.session.GrowsTo ss) :
  History.Sound d { H with session := ss }
  where
    inForce := h.inForce.extend grows
    depth := h.depth
    sizes m mem := Checkpoint.le_trans (h.sizes m mem) grows.sizes
    kept m mem := (h.kept m mem).of_contents (grows.cut (h.sizes m mem))

/-- What a session holds is in force when it is cut down to its present sizes. -/
theorem checkpoint (h : H.Sound d) :
  History.Sound d { H with marks := ⟨d, H.session.checkpoint⟩ :: H.marks }
  where
    inForce := h.inForce
    depth m mem := by
      obtain rfl | mem := List.mem_cons.mp mem
      · apply Nat.le_refl
      · apply h.depth m mem
    sizes m mem := by
      obtain rfl | mem := List.mem_cons.mp mem
      · apply Checkpoint.le_refl
      · apply h.sizes m mem
    kept m mem := by
      obtain rfl | mem := List.mem_cons.mp mem
      · apply h.inForce.cut_checkpoint
      · apply h.kept m mem

/-- Cutting down to a checkpoint keeps those below it. -/
theorem cut (h : H.Sound d) {cp : Checkpoint} (sizes : cp ≤ H.session.checkpoint)
    (inForce : (H.session.cut cp).InForce H.conditions) :
  History.Sound d { H with
    session := H.session.cut cp
    marks := Policy.remaining ⟨false, false, false⟩ cp H.marks }
  where
    inForce := inForce
    depth m mem := h.depth m (Policy.mem_of_mem_remaining mem)
    sizes m mem := by
      rw [Session.checkpoint_cut sizes]
      simpa using (List.mem_filter.mp mem).2
    kept m mem := by
      have below : m.checkpoint ≤ cp := by simpa using (List.mem_filter.mp mem).2
      apply (h.kept m (Policy.mem_of_mem_remaining mem)).of_contents
      apply Session.cut_cut below

/-- A definition begins with a new variable. -/
theorem begin (h : K.Sound d) (k : Kind) :
  History.Sound (d + 1) { K with session := (Session.freshInternal k K.session).2 }
  where
    inForce := h.inForce.extend (Session.growsTo_freshInternal k K.session)
    depth m mem := Nat.le_succ_of_le (h.depth m mem)
    sizes := (h.extend (Session.growsTo_freshInternal k K.session)).sizes
    kept := (h.extend (Session.growsTo_freshInternal k K.session)).kept

/-- After a definition the checkpoints it took are gone. -/
theorem handOver (h : L.Sound (d + 1)) :
  History.Sound d { L with marks := Policy.handOver ⟨false, false, false⟩ d L.marks }
  where
    inForce := h.inForce
    depth _ mem := of_decide_eq_true (List.mem_filter.mp mem).2
    sizes m mem := h.sizes m (List.mem_filter.mp mem).1
    kept m mem := h.kept m (List.mem_filter.mp mem).1

/-- Concluding a variable that is newer than every checkpoint. -/
theorem conclude (h : L.Sound d) {op : Operator} {hs : List Handle} {v : Handle}
    (isVariable : L.session.IsVariable v)
    (above : ∀ m ∈ L.marks, m.checkpoint.nodes ≤ v.index)
    (new : ∀ m ∈ L.marks, (L.session.cut m.checkpoint).emulated? op hs = none)
    (condition : Value .bool) :
  History.Sound d { L with
    session := (Emulation.conclude op hs v condition L.session).2
    conditions := L.conditions.insert (op, hs) (Emulation.asserted condition L.session) }
  where
    inForce := h.inForce.conclude isVariable condition
    depth := h.depth
    sizes m mem :=
      Checkpoint.le_trans (h.sizes m mem) (Emulation.checkpoint_le_conclude op hs v condition _)
    kept m mem := by
      have same :=
        Emulation.cut_conclude (h.sizes m mem) (above m mem) (new m mem) condition
      apply ((h.kept m mem).of_contents same).congr
      intro op' hs' known
      rw [FiniteMap.get?_insert, if_neg]
      rintro ⟨⟩
      apply known
      rw [Session.emulated?_of_contents same]
      apply new m mem

end History.Sound

namespace Run

variable {d : Nat} {H K : History}

/-- Where checkpoints are used only at the depth at which they were taken, and not after a rollback
below them, what is remembered stays in force. -/
theorem sound (run : Run ⟨false, false, false⟩ d H K) (exact : H.session.TableExact)
    (sound : H.Sound d) :
  K.Sound d
  := by
  induction run with
  | refl => apply sound
  | edit _ e plain ih => apply (ih exact sound).extend (e.growsTo_perform plain _)
  | checkpoint _ ih => apply (ih exact sound).checkpoint
  | rollback run taken allowed accepted ih =>
      obtain ⟨-, rfl⟩ := (run.tableExact exact).rollback?_eq_ok_iff.mp accepted
      apply (ih exact sound).cut ((ih exact sound).sizes _ taken) ((ih exact sound).kept _ taken)
  | reuse _ known ih => apply (ih exact sound).extend (Emulation.growsTo_countReuse _)
  | @conclude d H K L run op hs k new body condition ih inner =>
      have h := ih exact sound
      have grows := Session.growsTo_freshInternal k K.session
      have begun := grows.exact (run.tableExact exact)
      have old : ∀ m ∈ Policy.handOver ⟨false, false, false⟩ d L.marks, m ∈ K.marks := by
        intro m mem
        obtain ⟨mem, le⟩ := List.mem_filter.mp mem
        apply body.old_mark m mem (Nat.lt_succ_of_le (of_decide_eq_true le))
      have inside : K.session.next.index < (Session.freshInternal k K.session).2.nodes.size := by
        simp [Session.freshInternal, Session.addVariable, Session.next]
      apply (inner begun (h.begin k)).handOver.conclude
      · use K.session.vars.size, k
        rw [(body.above_of_own rfl h.depth begun (Checkpoint.le_refl _)).node? inside]
        apply Eq.trans (Session.node?_addVariable _ k true K.session _) (if_pos rfl)
      · intro m mem
        apply (h.sizes m (old m mem)).1
      · intro m mem
        have below := h.sizes m (old m mem)
        have kept := body.above_of_own rfl h.depth begun (Checkpoint.le_trans below grows.sizes)
        rw [Session.emulated?_of_contents kept.contents,
          Session.emulated?_of_contents (grows.cut below)]
        apply Session.emulated?_cut_of_none new
  | @giveUp d H K L run op hs k new body ss accepted ih inner =>
      have h := ih exact sound
      have grows := Session.growsTo_freshInternal k K.session
      have begun := grows.exact (run.tableExact exact)
      have kept := body.above_of_own rfl h.depth begun grows.sizes
      obtain ⟨-, rfl⟩ := (body.tableExact begun).rollback?_eq_ok_iff.mp accepted
      apply (inner begun (h.begin k)).handOver.cut kept.sizes
      have same := kept.contents.trans (grows.cut (Checkpoint.le_refl _))
      apply (h.inForce.cut_checkpoint.of_contents same).congr
      intro op' hs' known
      apply kept.conditions
      rwa [← Session.emulated?_of_contents kept.contents]
  | @stuck d H K L run op hs k new body e refused ih inner =>
      have h := ih exact sound
      have grows := Session.growsTo_freshInternal k K.session
      have begun := grows.exact (run.tableExact exact)
      have kept := body.above_of_own rfl h.depth begun grows.sizes
      rw [Session.rollback?_eq_ok_iff.mpr ⟨kept.sizes.1, rfl⟩] at refused
      cases refused

/-- A checkpoint from within a definition, used after its end, keeps the variable of the definition
and drops the assertion of its condition. -/
theorem exists_unconstrained (outer stale : Bool) :
  ∃ H : History, Run ⟨outer, true, stale⟩ 0 (.start {}) H
    ∧ H.session.emulated? .length [] = some ⟨1⟩
    ∧ H.conditions.get? (.length, []) = some (some ⟨0⟩)
    ∧ H.session.assertions = #[]
  := by
  -- The checkpoint counts the variable of the definition, but not the assertion that comes later.
  let P : Policy := ⟨outer, true, stale⟩
  let p : History := { History.start {} with session := (Session.declare "p" .bool {}).2 }
  let begun : History := { p with session := (Session.freshInternal .int p.session).2 }
  have declared : Run P 0 (.start {}) p := (Run.refl _).edit (.declare "p" .bool) rfl
  have body : Run P 1 begun { begun with marks := [⟨1, ⟨2, 2, 0⟩⟩] } := (Run.refl begun).checkpoint
  have new : p.session.emulated? .length [] = none := rfl
  have concluded := declared.conclude new body (.node ⟨0⟩)
  have handed : (⟨0, ⟨2, 2, 0⟩⟩ : Mark) ∈ P.handOver 0 [⟨1, ⟨2, 2, 0⟩⟩] := List.mem_singleton.mpr rfl
  exact ⟨_, concluded.rollback handed (Or.inr (Nat.zero_le _)) rfl, rfl, rfl, rfl⟩

/-- Every remembered value is in force after every run in which no checkpoint is used after a
rollback below it, exactly when definitions must not use checkpoints from before their start and
the checkpoints they take must not be used after their end. -/
theorem inForce_iff (outer inner : Bool) :
  (∀ c H, Run ⟨outer, inner, false⟩ 0 (.start c) H → H.session.InForce H.conditions)
    ↔ outer = false ∧ inner = false
  := by
  constructor
  · intro always
    constructor
    · cases outer with
      | false => rfl
      | true =>
          obtain ⟨H, run, known, empty, -⟩ := exists_dangling inner false
          obtain ⟨⟨n, k, hv⟩, -⟩ := always {} H run .length [] ⟨0⟩ known
          have inside := (Array.getElem?_eq_some_iff.mp hv).1
          rw [empty] at inside
          exact absurd inside (Nat.lt_irrefl 0)
    · cases inner with
      | false => rfl
      | true =>
          obtain ⟨H, run, known, condition, none⟩ := exists_unconstrained outer false
          obtain ⟨-, asserted, found, asserts⟩ := always {} H run .length [] ⟨1⟩ known
          rw [condition] at found
          obtain ⟨a, mem, -⟩ := asserts ⟨0⟩ (Option.some.inj found).symm
          simp [none] at mem
  · rintro ⟨rfl, rfl⟩ c H run
    have start : (History.start c).Sound 0 := by
      constructor
      · intro op hs v known
        cases known
      all_goals
        intro m mem
        cases mem
    apply (run.sound (Session.TableExact.empty c) start).inForce

end Run

end StringTerms
