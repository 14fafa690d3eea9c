import StringTerms.Proofs.HashConsing
import StringTerms.Proofs.Lifting
import StringTerms.Proofs.Restorable

/-!
# Kind soundness

An edit is typed when its operands are values of their kinds and a node that is made without a check
is one of an operator at kinds that it accepts.  Typed edits keep the terms of a session well-kinded
and remember only variables for characters; the assertions that they add are of kind Bool, and the
value of an operation is of its kind.  A rollback keeps all of this, whichever checkpoint it names.
If it names a checkpoint that no rollback went below, then the session is also well-formed and
hash-consed.
-/

namespace StringTerms

variable {ss tt uu : Session} {cps : List Checkpoint} {k r : Kind} {ks : List Kind}
  {s : Value .string} {i : Value .int}

/-- The edit is made with values of the session as operands, and it makes the nodes of operators at
kinds that these accept. -/
def Edit.Typed (ss : Session) : Edit → Prop
  | .operate _ xs => ss.HoldsAll xs
  | @defer ks r op xs => op.resultKind ks = .ok r ∧ ss.HoldsAll xs
  | .intern _ _ _ => False
  | _ => True

namespace Session

/-- The sessions that are built by typed edits, with the checkpoints that have been taken and that
no rollback went below.  A rollback names one of these, or any checkpoint at all where `loose` is
set. -/
inductive Built (loose : Bool) : Session → List Checkpoint → Prop
  | start (c : Configuration) : Built loose { configuration := c } []
  | edit {ss : Session} {cps : List Checkpoint} (built : Built loose ss cps) (e : Edit)
    (typed : e.Typed ss) :
    Built loose (e.perform ss) cps
  | checkpoint {ss : Session} {cps : List Checkpoint} (built : Built loose ss cps) :
    Built loose ss (ss.checkpoint :: cps)
  | rollback {ss tt : Session} {cps : List Checkpoint} (built : Built loose ss cps)
    {cp : Checkpoint} (taken : loose = true ∨ cp ∈ cps) (accepted : ss.rollback? cp = .ok tt) :
    Built loose tt (cps.filter (· ≤ cp))

/-- The nodes are of the kinds of their literals and operators, and the remembered characters are
variables of kind Char. -/
structure KindSound (ss : Session) : Prop where
  literal : ∀ {h v}, ss.node? h = some (.literal v) → ss.kind? h = some v.kind
  /-- The operands precede the application, and its kind is the one that its operator has at their
  kinds. -/
  application : ∀ {h op hs k}, ss.node? h = some (.application op hs k) →
    (∀ g ∈ hs, g.index < h.index) ∧ ∃ ks, ss.kinds hs = .ok ks ∧ op.resultKind ks = .ok k
  character : ∀ {hs c}, ss.emulated? .charAt hs = some c → ∃ n, ss.node? c = some (.var n .char)

/-- The assertions of `tt` are those of `ss` and further ones of kind Bool. -/
def AssertsBooleans (ss tt : Session) : Prop :=
  ∃ added, tt.assertions = ss.assertions ++ added ∧ ∀ a ∈ added, tt.kind? a.handle = some .bool

/-- A well-kinded session in which only characters are remembered. -/
structure Kinded (ss : Session) : Prop extends ss.WellKinded where
  character : ∀ {op hs c}, ss.emulated? op hs = some c →
    op = .charAt ∧ ∃ n, ss.node? c = some (.var n .char)

/-- From `ss` to the kinded session `tt`, terms are added and Boolean terms are asserted. -/
structure KeepsKinds (ss tt : Session) : Prop extends ss.Extends tt where
  kinded : tt.Kinded
  asserts : ss.AssertsBooleans tt

theorem Kinded.kindSound (h : ss.Kinded) :
  ss.KindSound
  where
    literal hn := kind?_of_node? hn
    application hn := by
      obtain ⟨j, kinds, rfl⟩ := h.kinds hn
      exact ⟨h.earlier hn, _, kinds.kinds_eq, Operator.resultKind_operandKinds _ j⟩
    character found := (h.character found).2

/-! ### What keeps kinds -/

/-- Only what is remembered and where matters to the characters. -/
theorem Kinded.extend (h : ss.Kinded) (wk : tt.WellKinded) (grows : ss.Extends tt)
    (emulations : tt.emulations = ss.emulations) :
  tt.Kinded
  := by
  use wk
  intro op hs c found
  rw [emulated?, emulations] at found
  obtain ⟨rfl, n, hn⟩ := h.character found
  exact ⟨rfl, n, grows.node? hn⟩

theorem AssertsBooleans.of_eq (same : tt.assertions = ss.assertions) :
  ss.AssertsBooleans tt
  := by
  use #[]
  simp [same]

namespace KeepsKinds

theorem refl (h : ss.Kinded) :
  ss.KeepsKinds ss
  := ⟨Extends.refl ss, h, AssertsBooleans.of_eq rfl⟩

theorem trans (h : ss.KeepsKinds tt) (h' : tt.KeepsKinds uu) :
  ss.KeepsKinds uu
  := by
  obtain ⟨first, same, booleans⟩ := h.asserts
  obtain ⟨second, same', booleans'⟩ := h'.asserts
  use h.toExtends.trans h'.toExtends, h'.kinded
  use first ++ second
  constructor
  · rw [same', same, Array.append_assoc]
  · intro a mem
    obtain mem | mem := Array.mem_append.mp mem
    · apply h'.kind? (booleans a mem)
    · apply booleans' a mem

/-- Sharing nodes. -/
theorem shares (h : ss.Kinded) (shares : ss.Shares tt) (wk : tt.WellKinded) :
  ss.KeepsKinds tt
  where
    toExtends := shares.toExtends
    kinded := h.extend wk shares.toExtends shares.emulations
    asserts := AssertsBooleans.of_eq shares.assertions

theorem addVariable (h : ss.Kinded) (name : String) (k : Kind) (internal : Bool) :
  ss.KeepsKinds (Session.addVariable name k internal ss).2
  where
    toExtends := extends_addVariable name k internal ss
    kinded := h.extend (h.toWellKinded.addVariable name k internal)
      (extends_addVariable name k internal ss) rfl
    asserts := AssertsBooleans.of_eq rfl

/-- A node of kind Bool is asserted. -/
theorem addAssertion (h : ss.Kinded) {g : Handle} (kind : ss.kind? g = some .bool)
    (origin : Origin) :
  ss.KeepsKinds (ss.addAssertion g origin)
  := by
  have grows := extends_addAssertion g origin ss
  use grows, h.extend (h.toWellKinded.congr rfl rfl) grows rfl
  use #[⟨g, origin⟩], Array.push_eq_append
  intro a mem
  rw [Array.mem_singleton.mp mem]
  apply kind

/-- A condition of kind Bool is asserted, unless it is known to hold. -/
theorem require (h : ss.Kinded) {condition : Value .bool} (held : ss.Holds condition) :
  ss.KeepsKinds (Emulation.require condition ss).2
  := by
  obtain ⟨-, same⟩ | ⟨-, asserted⟩ := Emulation.require_cases condition ss
  · rw [same]
    apply refl h
  · obtain ⟨shares, wk, kind, -⟩ := condition.handle_spec h.toWellKinded held
    have named := KeepsKinds.shares h shares wk
    rw [asserted]
    apply named.trans (addAssertion named.kinded kind .internal)

end KeepsKinds

/-! ### Extracted characters -/

/-- Remembering a variable of kind Char under the operator for characters. -/
theorem Kinded.remember (h : ss.Kinded) {c : Handle} {n : Nat} (hs : List Handle)
    (isVariable : ss.node? c = some (.var n .char)) :
  (Emulation.remember .charAt hs c ss).Kinded
  := by
  use h.toWellKinded.congr rfl rfl
  intro op gs d found
  rw [emulated?, Emulation.remember, FiniteMap.get?_insert] at found
  split at found
  case isTrue same =>
    cases same
    cases found
    exact ⟨rfl, n, isVariable⟩
  case isFalse => apply h.character found

/-- A character is introduced as a variable of its kind, or is given again. -/
theorem Kinded.extract (h : ss.Kinded) (hs : ss.Holds s) (hi : ss.Holds i) :
  ss.KeepsKinds (Strings.extract s i ss).2
    ∧ (Strings.extract s i ss).2.Holds (Strings.extract s i ss).1
  := by
  have grows : ss.Extends (Strings.extract s i ss).2 :=
    (Edit.operate .extract (.two s i)).extends_perform ss
  obtain ⟨shares, wk, -⟩ := Strings.named_spec h.toWellKinded hs hi
  have named := KeepsKinds.shares h shares wk
  rw [Strings.extract_eq] at grows ⊢
  cases found : (Strings.named s i ss).2.emulated? .charAt
      [(Strings.named s i ss).1.1, (Strings.named s i ss).1.2] with
  | some c =>
      rw [Emulation.introduce_of_known found] at grows ⊢
      obtain ⟨-, n, isVariable⟩ := named.kinded.character found
      have reused := (Emulation.growsTo_countReuse (Strings.named s i ss).2).toExtends
      constructor
      · exact ⟨grows, named.kinded.extend (wk.congr rfl rfl) reused rfl, named.asserts⟩
      · exact kind?_of_node? isVariable
  | none =>
      rw [Emulation.introduce_of_new _ found, Emulation.conclude_eq] at grows ⊢
      have describes := Strings.describes_defined Slicing.exact_slice wk (shares.holds hs)
        (shares.holds hi)
      have defined : (Strings.named s i ss).2.KeepsKinds
          (Emulation.defined (Strings.characterCondition s i) (Strings.named s i ss).2).2 :=
        ⟨describes.toExtends,
          named.kinded.extend describes.wellKinded describes.toExtends describes.emulations,
          AssertsBooleans.of_eq describes.assertions⟩
      have required := KeepsKinds.require defined.kinded describes.holds
      have isVariable := required.node? describes.isVariable
      have remembered := required.kinded.remember
        [(Strings.named s i ss).1.1, (Strings.named s i ss).1.2] isVariable
      constructor
      · exact ⟨grows, remembered, ((named.trans defined).trans required).asserts⟩
      · exact kind?_of_node? isVariable

/-- Looking up a character gives a value of kind Char. -/
theorem Kinded.charAt (h : ss.Kinded) (hs : ss.Holds s) (hi : ss.Holds i) :
  ss.KeepsKinds (Strings.charAt s i ss).2
    ∧ (Strings.charAt s i ss).2.Holds (Strings.charAt s i ss).1
  := by
  obtain ⟨c, known⟩ | extracted := Strings.charAt_cases s i ss
  · rw [known]
    exact ⟨KeepsKinds.refl h, trivial⟩
  · rw [extracted]
    apply h.extract hs hi

/-! ### Typed edits -/

/-- Every operation keeps kinds and gives a value of its kind. -/
theorem Kinded.build (h : ss.Kinded) (o : Operation ks r) {xs : Operands Value ks}
    (hx : ss.HoldsAll xs) :
  ss.KeepsKinds (o.build xs ss).2 ∧ (o.build xs ss).2.Holds (o.build xs ss).1
  := by
  cases plain : o.extracts with
  | false =>
      have computes := o.computes_build h.toWellKinded hx plain
      exact ⟨KeepsKinds.shares h computes.shares computes.wellKinded, computes.holds⟩
  | true =>
      cases o <;> cases plain
      case first.refl =>
        obtain _ | ⟨s, _ | _⟩ := xs
        have zero : ss.Holds (.int 0) := True.intro
        apply h.charAt hx.1 zero
      case charAt.refl =>
        obtain _ | ⟨s, _ | ⟨i, _ | _⟩⟩ := xs
        apply h.charAt hx.1 hx.2.1
      case extract.refl =>
        obtain _ | ⟨s, _ | ⟨i, _ | _⟩⟩ := xs
        apply h.extract hx.1 hx.2.1

/-- The node of an operator at its own kinds is of the kind of its result. -/
theorem Kinded.defer (h : ss.Kinded) {op : Operator} {xs : Operands Value ks}
    (accepts : op.resultKind ks = .ok r) (hx : ss.HoldsAll xs) :
  ss.KeepsKinds (defer r op xs ss).2 ∧ (defer r op xs ss).2.Holds (defer r op xs ss).1
  := by
  obtain ⟨j, hks, hr⟩ := Operator.resultKind_eq_ok_iff.mp accepts
  have computes : ss.Computes ByteString.slice (StringTerms.defer r op xs) _ :=
    h.toWellKinded.computes_defer hx j hks hr
  exact ⟨KeepsKinds.shares h computes.shares computes.wellKinded, computes.holds⟩

/-- An assertion adds a node of kind Bool, or is refused. -/
theorem Kinded.record (h : ss.Kinded) (origin : Origin) (g : Handle) :
  ss.KeepsKinds ((Session.record origin g).run ss).2
  := by
  obtain same | ⟨kind, added⟩ := record_cases origin g ss
  · rw [same]
    apply KeepsKinds.refl h
  · rw [added]
    apply KeepsKinds.addAssertion h kind

/-- Typed edits keep kinds. -/
theorem Kinded.perform (h : ss.Kinded) {e : Edit} (typed : e.Typed ss) :
  ss.KeepsKinds (e.perform ss)
  := by
  cases e with
  | literal v =>
      have accepted : ss.Accepts (.literal v) := trivial
      obtain ⟨shares, wk, -⟩ := h.toWellKinded.share accepted
      exact KeepsKinds.shares h shares wk
  | declare name k => apply KeepsKinds.addVariable h
  | fresh k => apply KeepsKinds.addVariable h
  | freshInternal k => apply KeepsKinds.addVariable h
  | apply op hs =>
      obtain same | ⟨j, kinds, shared⟩ := apply_cases op hs ss
      · rw [Edit.perform, same]
        apply KeepsKinds.refl h
      · have accepted : ss.Accepts (.application op hs (op.kindAt j)) := ⟨j, kinds, rfl⟩
        obtain ⟨shares, wk, -⟩ := h.toWellKinded.share accepted
        rw [Edit.perform, shared]
        apply KeepsKinds.shares h shares wk
  | intern op hs k => cases typed
  | defer r op xs => apply (h.defer typed.1 typed.2).1
  | operate o xs => apply (h.build o typed).1
  | assert g => apply h.record
  | assertInternal g => apply h.record

/-! ### Built sessions -/

theorem kinded_empty (c : Configuration) :
  Kinded { configuration := c }
  where
    toWellKinded := wellKinded_empty c
    character found := by cases found

/-- Rolling back keeps whole terms and the characters that are not cut off. -/
theorem Kinded.truncate (h : ss.Kinded) (cp : Checkpoint) :
  (ss.truncate cp).Kinded
  := by
  use h.toWellKinded.truncate cp
  intro op hs c found
  rw [emulated?_truncate, Option.filter_eq_some_iff] at found
  obtain ⟨found, below⟩ := found
  obtain ⟨rfl, n, isVariable⟩ := h.character found
  use rfl, n
  rw [node?_truncate, if_pos (of_decide_eq_true below), isVariable]

variable {loose : Bool}

theorem Built.kinded (built : Built loose ss cps) :
  ss.Kinded
  := by
  induction built with
  | start c => apply kinded_empty
  | edit _ e typed ih => apply (ih.perform typed).kinded
  | checkpoint _ ih => apply ih
  | rollback _ _ accepted ih =>
      obtain ⟨-, rfl⟩ := rollback?_eq_ok_iff.mp accepted
      apply ih.truncate

/-- Every session that is built by typed edits and rollbacks is kind-sound.  In it, operations, and
operators at their own kinds, ask for nodes at accepted kinds only and give values of their kinds,
and every assertion that a typed edit adds is of kind Bool. -/
theorem Built.kind_sound (built : Built loose ss cps) :
  ss.KindSound
  ∧ (∀ {ks r} (o : Operation ks r) (xs : Operands Value ks), ss.HoldsAll xs →
    RespectsKinds (o.build xs) ∧ (o.build xs ss).2.Holds (o.build xs ss).1)
  ∧ (∀ {ks r} (op : Operator) (xs : Operands Value ks), op.resultKind ks = .ok r →
    ss.HoldsAll xs → (StringTerms.defer r op xs ss).2.Holds (StringTerms.defer r op xs ss).1)
  ∧ ∀ e : Edit, e.Typed ss → (e.perform ss).KindSound ∧ ss.AssertsBooleans (e.perform ss)
  := by
  have kinded := built.kinded
  refine ⟨kinded.kindSound, ?_, ?_, ?_⟩
  · intro ks r o xs held
    exact ⟨o.respectsKinds_build xs, (kinded.build o held).2⟩
  · intro ks r op xs accepts held
    apply (kinded.defer accepts held).2
  · intro e typed
    have keeps := kinded.perform typed
    exact ⟨keeps.kinded.kindSound, keeps.asserts⟩

/-- The first character of a string whose record a rollback has cut off, and the code of it. -/
theorem kind_sound_first :
  ∃ ss : Session, Built true ss [] ∧ ss.node? ⟨0⟩ = some (.var 0 .string)
    ∧ ss.variableRecord? 0 ≠ some ⟨"s", .string, ⟨0⟩, false⟩
    ∧ ss.emulated? .charAt [⟨0⟩, ⟨1⟩] = some ⟨2⟩ ∧ (∃ n, ss.node? ⟨2⟩ = some (.var n .char))
    ∧ ((Operation.code.build (.one (.node ⟨2⟩)) ss).2.Holds
        (Operation.code.build (.one (.node ⟨2⟩)) ss).1)
  := by
  have start : Built true {} [] := .start {}
  have declared := start.edit (.declare "s" .string) trivial
  have accepted : ((Edit.declare "s" .string).perform {}).rollback? ⟨1, 0, 0⟩ = .ok _ := rfl
  have cut := declared.rollback (Or.inl rfl) accepted
  have built := cut.edit (.operate .first (.one (.node ⟨0⟩))) ⟨rfl, trivial⟩
  obtain ⟨ss, built, string, cutOff, found⟩ : ∃ ss : Session, Built true ss []
      ∧ ss.node? ⟨0⟩ = some (.var 0 .string)
      ∧ ss.variableRecord? 0 ≠ some ⟨"s", .string, ⟨0⟩, false⟩
      ∧ ss.emulated? .charAt [⟨0⟩, ⟨1⟩] = some ⟨2⟩ :=
    ⟨_, built, by decide +kernel⟩
  obtain ⟨sound, operations, -⟩ := built.kind_sound
  obtain ⟨n, hn⟩ := sound.character found
  refine ⟨ss, built, string, cutOff, found, ⟨n, hn⟩, ?_⟩
  apply (operations .code (.one (.node ⟨2⟩)) _).2
  exact ⟨kind?_of_node? hn, trivial⟩

/-! ### Checkpoints that no rollback went below -/

/-- Operands that are values of the session are in its arena. -/
theorem HoldsAll.admitsAll {xs : Operands Value ks} (hx : ss.HoldsAll xs) :
  consing.AdmitsAll ss xs
  := by
  induction xs with
  | nil => trivial
  | cons x xs ih =>
      refine ⟨?_, ih hx.2⟩
      cases x with
      | known v => trivial
      | node h => apply index_lt_of_kind? hx.1

theorem admitsEdit_of_typed {e : Edit} (typed : e.Typed ss) :
  consing.AdmitsEdit ss e
  := by
  cases e with
  | operate o xs => apply HoldsAll.admitsAll typed
  | defer r op xs => apply HoldsAll.admitsAll typed.2
  | intern op hs k => cases typed
  | _ => trivial

/-- A session that is built without loose rollbacks is reached by an execution in which no
definition runs. -/
theorem Built.reached (built : Built false ss cps) {C : Conduct} (fresh : C.policy.stale = false)
    (made : ∀ {ss : Session} {e : Edit}, e.Typed ss → C.edits ss e) :
  ∃ c, Execution.Reached C c ⟨ss, cps.map (Mark.mk 0), []⟩
  := by
  induction built with
  | start c => exact ⟨c, .start⟩
  | edit _ e typed ih =>
      obtain ⟨c, reached⟩ := ih
      exact ⟨c, reached.step ⟨_, .edit e (made typed)⟩⟩
  | checkpoint _ ih =>
      obtain ⟨c, reached⟩ := ih
      exact ⟨c, reached.step ⟨_, .checkpoint⟩⟩
  | @rollback ss tt cps _ cp taken accepted ih =>
      obtain ⟨c, reached⟩ := ih
      have mem := List.mem_map_of_mem (f := Mark.mk 0) (taken.resolve_left Bool.false_ne_true)
      have back := reached.step ⟨_, .rollback mem (Or.inr (Nat.zero_le _)) accepted⟩
      have remaining : C.policy.remaining cp (cps.map (Mark.mk 0))
          = (cps.filter (· ≤ cp)).map (Mark.mk 0) := by
        simp [Policy.remaining, fresh, List.filter_map, Function.comp_def]
      use c
      rwa [remaining] at back

/-- Without loose rollbacks, records and variables agree and assertions are of kind Bool. -/
theorem Built.wellFormed (built : Built false ss cps) :
  ss.WellFormed
  := by
  obtain ⟨c, reached⟩ := built.reached (C := .typed ⟨false, false, false⟩) rfl fun _ => trivial
  apply reached.sound.wellFormed

/-- Without loose rollbacks, equal nodes are shared. -/
theorem Built.consed (built : Built false ss cps) :
  ss.Consed
  := by
  obtain ⟨c, reached⟩ := built.reached (C := .inside ⟨false, false, false⟩) rfl admitsEdit_of_typed
  exact reached.consed

end Session

end StringTerms
