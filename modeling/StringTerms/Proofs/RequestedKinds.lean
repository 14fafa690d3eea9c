import StringTerms.Proofs.KindSoundness

/-!
# Kinds of emulated values

A request for an emulated value names an operator, operands and a kind, and a session remembers the
value under the operator and the operands alone.  So a request is answered by a variable of its kind
exactly where no two requests differ in nothing but the kind, those for characters by the library
included, and where definitions do not go below their own starts.
-/

namespace StringTerms

variable {ss tt : Session} {op : Operator} {hs : List Handle} {h : Handle} {k r : Kind}
  {ks : List Kind}

/-! ### Requests -/

/-- Which requests for emulated values are made, by operator, operands and kind. -/
abbrev Requests := Operator → List Handle → Kind → Prop

/-- The requests that are made by the user or, for characters, by the library. -/
def Requests.all (ask : Requests) : Requests := fun op hs k =>
  ask op hs k ∨ op = .charAt ∧ k = .char ∧ ∃ s i, s ≠ i ∧ hs = [s, i]

namespace Session

/-- Requests for what is remembered are answered by values of the kinds that are asked for, however
the values would be defined. -/
def Answers (ask : Requests) (ss : Session) : Prop :=
  ∀ op hs k, ask op hs k → ss.emulated? op hs ≠ none →
    ∀ define : Value k → ExceptT Error Builder (Value .bool), ∃ x tt,
      (Emulation.attempt k op hs define).run ss = (.ok x, tt) ∧ tt.Holds x

theorem answers_iff_kind? {ask : Requests} :
  ss.Answers ask
    ↔ ∀ op hs k h, ask op hs k → ss.emulated? op hs = some h → ss.kind? h = some k
  := by
  constructor
  · intro answers op hs k h asked known
    obtain ⟨x, tt, answered, held⟩ :=
      answers op hs k asked (by simp [known]) fun _ => throw default
    rw [Emulation.attempt_of_known _ known] at answered
    cases answered
    apply held
  · intro kinds op hs k asked known define
    obtain ⟨h, known⟩ := Option.ne_none_iff_exists'.mp known
    exact ⟨_, _, Emulation.attempt_of_known define known, kinds op hs k h asked known⟩

/-- What is remembered are variables of kinds that have been asked for. -/
def Remembers (ask : Requests) (ss : Session) : Prop :=
  ∀ op hs h, ss.emulated? op hs = some h → ∃ i k, ss.node? h = some (.var i k) ∧ ask op hs k

/-- Where only one kind is asked for, what is remembered is of that kind. -/
theorem Remembers.kind? {ask : Requests} (remembers : ss.Remembers ask.all)
    (single : ∀ op hs k, ask op hs k → ∀ j, ask.all op hs j → j = k) (asked : ask op hs k)
    (known : ss.emulated? op hs = some h) :
  ss.kind? h = some k
  := by
  obtain ⟨i, j, node, given⟩ := remembers op hs h known
  rw [kind?_of_node? node, ← single op hs k asked j given]
  rfl

variable {ask : Requests}

theorem Remembers.extend (remembers : ss.Remembers ask) (grows : ss.Extends tt)
    (emulations : tt.emulations = ss.emulations) :
  tt.Remembers ask
  := by
  intro op hs h known
  rw [emulated?, emulations] at known
  obtain ⟨i, k, node, asked⟩ := remembers op hs h known
  exact ⟨i, k, grows.node? node, asked⟩

theorem Remembers.truncate (remembers : ss.Remembers ask) (cp : Checkpoint) :
  (ss.truncate cp).Remembers ask
  := by
  intro op hs h known
  rw [emulated?_truncate, Option.filter_eq_some_iff] at known
  obtain ⟨i, k, node, asked⟩ := remembers op hs h known.1
  refine ⟨i, k, ?_, asked⟩
  rw [node?_truncate, if_pos (of_decide_eq_true known.2), node]

/-- Remembering a variable of a kind that has been asked for. -/
theorem Remembers.remember (remembers : ss.Remembers ask) {i : Nat}
    (node : ss.node? h = some (.var i k)) (asked : ask op hs k) :
  (Emulation.remember op hs h ss).Remembers ask
  := by
  intro op' hs' g known
  rw [emulated?, Emulation.remember, FiniteMap.get?_insert] at known
  split at known
  case isTrue same =>
    cases known
    cases same
    exact ⟨i, k, node, asked⟩
  case isFalse => apply remembers op' hs' g known

/-! ### Edits -/

/-- Sessions with an exact table that remember variables of kinds that have been asked for, where
the nodes of a kind may be used at this kind. -/
@[reducible] def answering (ask : Requests) : Discipline where
  sound ss := ss.TableExact ∧ ss.Remembers ask
  usable ss k h := ss.kind? h = some k
  mono grows := grows.kind?
  fold sound := ⟨sound.1.congr rfl rfl, sound.2⟩
  share {ss n} sound term _ := by
    have grows := growsTo_share term ss
    exact ⟨⟨sound.1.share term, sound.2.extend grows.toExtends grows.emulations⟩,
      kind?_of_node? (sound.1.node?_share term)⟩

theorem answering_addVariable (sound : (answering ask).sound ss) (name : String) (k : Kind)
    (internal : Bool) :
  (answering ask).sound (Session.addVariable name k internal ss).2
  := by
  have grows := growsTo_addVariable name k internal ss
  exact ⟨sound.1.addVariable name k internal, sound.2.extend grows.toExtends rfl⟩

/-- A new variable of the library stands at the next handle. -/
theorem node?_freshInternal (k : Kind) (ss : Session) :
  (freshInternal k ss).2.node? ss.next = some (.var ss.vars.size k)
  := (node?_addVariable _ k true ss ss.next).trans (if_pos rfl)

/-- Ending a definition with the variable of a kind that has been asked for. -/
theorem answering_conclude (sound : (answering ask).sound ss) {i : Nat}
    (node : ss.node? h = some (.var i k)) (asked : ask op hs k) (condition : Value .bool) :
  (answering ask).sound (Emulation.conclude op hs h condition ss).2
  := by
  have grows := Emulation.growsTo_require condition ss
  have required := sound.2.extend grows.toExtends grows.emulations
  exact ⟨sound.1.conclude op hs h condition, required.remember (grows.node? node) asked⟩

/-- The nodes of a string and of a position are of different kinds, and so they differ. -/
theorem named_ne {s : Value .string} {i : Value .int} (sound : (answering ask).sound ss)
    (string : (answering ask).Admits ss s) (position : (answering ask).Admits ss i) :
  (Strings.named s i ss).1.1 ≠ (Strings.named s i ss).1.2
  := by
  have grows := ((grows_handle s).grown ss).toExtends
  have grows' := ((grows_handle i).grown (s.handle ss).2).toExtends
  obtain ⟨sound, first⟩ := Discipline.handle sound string
  obtain ⟨-, second⟩ := Discipline.handle sound (position.mono grows)
  have first : (Strings.named s i ss).2.kind? (Strings.named s i ss).1.1 = some .string :=
    grows'.kind? first
  intro same
  rw [same] at first
  cases first.symm.trans second

/-- Characters are asked for by the library. -/
theorem answering_extract {s : Value .string} {i : Value .int}
    (sound : (answering ask.all).sound ss) (string : (answering ask.all).Admits ss s)
    (position : (answering ask.all).Admits ss i) :
  (answering ask.all).sound (Strings.extract s i ss).2
  := by
  have differ := named_ne sound string position
  obtain ⟨sound, grows⟩ := Discipline.Introduces.named sound string position
  rw [Strings.extract_eq]
  cases found : (Strings.named s i ss).2.emulated? .charAt
      [(Strings.named s i ss).1.1, (Strings.named s i ss).1.2] with
  | some h =>
      rw [Emulation.introduce_of_known found]
      exact ⟨sound.1.congr rfl rfl, sound.2⟩
  | none =>
      rw [Emulation.introduce_of_new _ found]
      have node := node?_freshInternal .char (Strings.named s i ss).2
      have begun := grows.trans (growsTo_freshInternal .char (Strings.named s i ss).2).toExtends
      have sound : (answering ask.all).sound (freshInternal .char (Strings.named s i ss).2).2 :=
        answering_addVariable sound _ .char true
      have character : (answering ask.all).Admits (freshInternal .char (Strings.named s i ss).2).2
          (.node (Strings.named s i ss).2.next : Value .char) := kind?_of_node? node
      have defined := Discipline.follows_characterCondition sound (string.mono begun)
        (position.mono begun) character
      apply answering_conclude defined.sound (defined.grows.node? node)
      exact Or.inr ⟨rfl, rfl, _, _, differ, rfl⟩

theorem closed_answering (ask : Requests) :
  (answering ask.all).Closed
  where
    node := id
    addVariable name k internal sound := answering_addVariable sound name k internal
    addAssertion _ sound _ := ⟨sound.1.congr rfl rfl, sound.2⟩
    extract := answering_extract

/-- Values of the session may be used. -/
theorem HoldsAll.answering {xs : Operands Value ks} (hx : ss.HoldsAll xs) :
  (answering ask).AdmitsAll ss xs
  := by
  induction xs with
  | nil => trivial
  | cons x xs ih =>
      refine ⟨?_, ih hx.2⟩
      cases x with
      | known v => trivial
      | node h => apply hx.1

/-- A typed edit keeps it that variables of kinds that have been asked for are remembered. -/
theorem answering_perform (sound : (answering ask.all).sound ss) {e : Edit} (typed : e.Typed ss) :
  (answering ask.all).sound (e.perform ss)
  := by
  apply (closed_answering ask).perform sound
  cases e with
  | operate o xs => apply HoldsAll.answering typed
  | defer r op xs => apply HoldsAll.answering typed.2
  | intern op hs k => cases typed
  | _ => trivial

end Session

/-! ### Executions -/

/-- The conduct in which edits are typed and definitions end with conditions of kind Bool. -/
def Conduct.checked (P : Policy) : Conduct where
  policy := P
  edits ss e := e.Typed ss
  conditions ss c := ss.Holds c

namespace Execution

/-- The states that are reached when the user makes only certain requests for emulated values, with
operands in the arena. -/
inductive Asking (ask : Requests) (C : Conduct) (c : Configuration) : Execution → Prop
  | start : Asking ask C c { session := { configuration := c } }
  | begin {X : Execution} {op : Operator} {hs : List Handle} {k : Kind} (asking : Asking ask C c X)
    (asked : ask op hs k) (inside : ∀ g ∈ hs, g.index < X.session.nodes.size)
    (new : X.session.emulated? op hs = none) :
    Asking ask C c { X with
      session := (Session.freshInternal k X.session).2
      running := ⟨op, hs, X.session.checkpoint⟩ :: X.running }
  | other {X Y : Execution} (asking : Asking ask C c X) (step : Step C X Y)
    (ends : Y.running.length ≤ X.running.length) : Asking ask C c Y

variable {ask : Requests} {C : Conduct} {P : Policy} {c : Configuration} {X Y : Execution}

theorem Asking.reached (asking : Asking ask C c X) :
  Reached C c X
  := by
  induction asking with
  | start => apply Reached.start
  | begin _ _ _ new ih => apply ih.step ⟨_, .begin _ new⟩
  | other _ step _ ih => apply ih.step step

/-- What is remembered, and what is being defined, are variables of kinds that have been asked
for. -/
structure Answering (ask : Requests) (X : Execution) : Prop where
  session : (Session.answering ask.all).sound X.session
  running : ∀ D ∈ X.running, ∃ i k, X.session.node? D.handle = some (.var i k)
    ∧ ask D.operator D.operands k

namespace Answering

/-- Changing the session so that its nodes are kept. -/
theorem keep (h : X.Answering ask) {ss : Session} (sound : (Session.answering ask.all).sound ss)
    (kept : ∀ {g n}, X.session.node? g = some n → ss.node? g = some n) :
  Answering ask { X with session := ss }
  := by
  use sound
  intro D mem
  obtain ⟨i, k, node, asked⟩ := h.running D mem
  exact ⟨i, k, kept node, asked⟩

/-- Rolling back to a checkpoint above all running definitions. -/
theorem truncate (h : X.Answering ask) {cp : Checkpoint} (above : ∀ D ∈ X.running, D.begun ≤ cp)
    (marks : List Mark) :
  Answering ask { X with session := X.session.truncate cp, marks := marks }
  := by
  use ⟨h.session.1.truncate cp, h.session.2.truncate cp⟩
  intro D mem
  obtain ⟨i, k, node, asked⟩ := h.running D mem
  have below : D.handle.index < cp.nodes := (above D mem).1
  refine ⟨i, k, ?_, asked⟩
  rw [Session.node?_truncate, if_pos below, node]

/-- A definition begins with a variable of the kind that is asked for. -/
theorem begin (h : X.Answering ask) {op : Operator} {hs : List Handle} {k : Kind}
    (asked : ask op hs k) :
  Answering ask { X with
    session := (Session.freshInternal k X.session).2
    running := ⟨op, hs, X.session.checkpoint⟩ :: X.running }
  := by
  have begun := (Session.growsTo_freshInternal k X.session).toExtends
  have kept := h.keep (Session.answering_addVariable h.session _ k true) begun.node?
  use kept.session
  intro D mem
  obtain rfl | mem := List.mem_cons.mp mem
  · exact ⟨X.session.vars.size, k, Session.node?_freshInternal k X.session, asked⟩
  · apply kept.running D mem

/-- A definition ends. -/
theorem finish (h : X.Answering ask) {D : Definition} {others : List Definition}
    (innermost : X.running = D :: others) (marks : List Mark) :
  Answering ask { X with marks := marks, running := others }
  := by
  use h.session
  intro E mem
  apply h.running E
  rw [innermost]
  apply List.mem_cons_of_mem D mem

/-- A definition ends with a condition. -/
theorem conclude (h : X.Answering ask) {D : Definition} {others : List Definition}
    (innermost : X.running = D :: others) (condition : Value .bool) (marks : List Mark) :
  Answering ask {
    session := (Emulation.conclude D.operator D.operands D.handle condition X.session).2
    marks := marks
    running := others }
  := by
  obtain ⟨i, k, node, asked⟩ := h.running D (innermost ▸ List.mem_cons_self)
  apply (h.finish innermost marks).keep
  · apply Session.answering_conclude h.session node (Or.inl asked)
  · exact fun hn => (Emulation.growsTo_require condition X.session).node? hn

end Answering

/-- Where definitions use only checkpoints of their own, what is remembered are variables of kinds
that have been asked for. -/
theorem Asking.answering (own : P.outer = false) (asking : Asking ask (.checked P) c X) :
  X.Answering ask
  := by
  induction asking with
  | start =>
      constructor
      · exact ⟨Session.TableExact.empty c, fun op hs h known => (by cases known)⟩
      · exact fun D mem => (by cases mem)
  | begin _ asked _ _ ih => apply ih.begin asked
  | @other X Y asking step ends ih =>
      have anchored := asking.reached.anchored own
      obtain ⟨es, next⟩ := step
      cases next with
      | edit e typed =>
          apply ih.keep (Session.answering_perform ih.session typed)
          exact fun hn => (e.extends_perform X.session).node? hn
      | checkpoint => exact ⟨ih.session, ih.running⟩
      | rollback taken allowed accepted =>
          obtain ⟨-, rfl⟩ := Session.rollback?_eq_ok_iff.mp accepted
          have deep := allowed.resolve_left (by simp [Conduct.checked, own])
          apply ih.truncate (fun D mem => anchored.begun_le mem taken deep)
      | reuse =>
          have counted : (Session.answering ask.all).sound (Emulation.countReuse X.session) :=
            ⟨ih.session.1.congr rfl rfl, ih.session.2⟩
          exact ih.keep counted id
      | begin k _ => exact absurd ends (Nat.not_succ_le_self _)
      | conclude innermost condition _ => apply ih.conclude innermost
      | giveUp innermost accepted =>
          obtain ⟨-, rfl⟩ := Session.rollback?_eq_ok_iff.mp accepted
          apply (ih.finish innermost []).truncate (anchored.begun_le_start innermost)
      | stuck innermost _ => apply ih.finish innermost

/-! ### Executions that show the restrictions to be needed -/

/-- The user has declared variables of given kinds, and nothing has been remembered. -/
structure Declares (κ : Nat → Kind) (n : Nat) (X : Execution) : Prop where
  kinded : X.session.Kinded
  size : X.session.nodes.size = n
  kinds : ∀ i < n, X.session.kind? ⟨i⟩ = some (κ i)
  new : ∀ op hs, X.session.emulated? op hs = none
  running : X.running = []

theorem exists_declares (ask : Requests) (P : Policy) (κ : Nat → Kind) (n : Nat) :
  ∃ X, Asking ask (.checked P) {} X ∧ Declares κ n X
  := by
  induction n with
  | zero =>
      refine ⟨_, .start, Session.kinded_empty {}, rfl, ?_, fun _ _ => rfl, rfl⟩
      exact fun i below => absurd below (Nat.not_lt_zero i)
  | succ n ih =>
      obtain ⟨X, asking, declares⟩ := ih
      have keeps := Session.KeepsKinds.addVariable declares.kinded "x" (κ n) false
      have added := Session.node?_addVariable "x" (κ n) false X.session X.session.next
      rw [if_pos rfl, Session.next, declares.size] at added
      refine ⟨_, asking.other ⟨_, .edit (.declare "x" (κ n)) trivial⟩ (Nat.le_refl _),
        keeps.kinded, ?_, ?_, declares.new, declares.running⟩
      · rw [← declares.size]
        apply Array.size_push
      · intro i below
        obtain below | rfl := Nat.lt_succ_iff_lt_or_eq.mp below
        · apply keeps.kind? (declares.kinds i below)
        · apply Session.kind?_of_node? added

/-- A definition that has begun, after a checkpoint has been taken at its start. -/
theorem exists_begun (P : Policy) {ask : Requests} {op : Operator} {hs : List Handle} {k : Kind}
    (asked : ask op hs k) :
  ∃ X start, Asking ask (.checked P) {} X ∧ X.running = [⟨op, hs, start⟩]
    ∧ X.session.kind? ⟨start.nodes⟩ = some k ∧ ⟨0, start⟩ ∈ X.marks
    ∧ start.nodes ≤ X.session.nodes.size
  := by
  obtain ⟨X, asking, declares⟩ := exists_declares ask P (fun _ => .int)
    ((hs.map Handle.index).max?.getD 0 + 1)
  have inside : ∀ g ∈ hs, g.index < X.session.nodes.size := by
    intro g mem
    rw [declares.size]
    exact Nat.lt_succ_of_le (List.le_max?_getD_of_mem (List.mem_map_of_mem mem))
  have marked := asking.other ⟨_, .checkpoint⟩ (Nat.le_refl _)
  have begun := marked.begin asked inside (declares.new op hs)
  refine ⟨_, X.session.checkpoint, begun, ?_, ?_, ?_, ?_⟩
  · rw [declares.running]
  · apply Session.kind?_of_node? (Session.node?_freshInternal k X.session)
  · rw [declares.running]
    apply List.mem_cons_self
  · apply (Session.growsTo_freshInternal k X.session).sizes.1

/-- A definition ends with a condition that is known to hold. -/
theorem Asking.remembered (asking : Asking ask (.checked P) c X) {D : Definition}
    (running : X.running = [D]) :
  ∃ Y, Asking ask (.checked P) c Y
    ∧ Y.session.emulated? D.operator D.operands = some D.handle
    ∧ Y.session.kind? D.handle = X.session.kind? D.handle
  := by
  refine ⟨_, asking.other ⟨_, .conclude running (.known true) trivial⟩ ?_, ?_, rfl⟩
  · apply Nat.zero_le
  · exact Emulation.emulated?_conclude _ _ D.handle (.known true) X.session

/-- A value that is asked for is remembered at the kind that it was asked for. -/
theorem exists_remembered (P : Policy) {ask : Requests} {op : Operator} {hs : List Handle}
    {k : Kind} (asked : ask op hs k) :
  ∃ X h, Asking ask (.checked P) {} X ∧ X.session.emulated? op hs = some h
    ∧ X.session.kind? h = some k
  := by
  obtain ⟨X, start, asking, running, kind, -⟩ := exists_begun P asked
  obtain ⟨Y, ended, known, same⟩ := asking.remembered running
  exact ⟨Y, ⟨start.nodes⟩, ended, known, same.trans kind⟩

/-- A definition that goes below its own start leaves a value of no kind. -/
theorem exists_remembered_unknown {P : Policy} (outer : P.outer = true) {ask : Requests}
    {op : Operator} {hs : List Handle} {k : Kind} (asked : ask op hs k) :
  ∃ X h, Asking ask (.checked P) {} X ∧ X.session.emulated? op hs = some h
    ∧ X.session.kind? h = none
  := by
  obtain ⟨X, start, asking, running, -, taken, fits⟩ := exists_begun P asked
  have back : X.session.rollback? start = .ok (X.session.truncate start) :=
    Session.rollback?_eq_ok_iff.mpr ⟨fits, rfl⟩
  have undone := asking.other ⟨_, .rollback taken (Or.inl outer) back⟩ (Nat.le_refl _)
  obtain ⟨Y, ended, known, same⟩ := undone.remembered running
  have cut : (X.session.truncate start).node? ⟨start.nodes⟩ = none := by
    rw [Session.node?_truncate, if_neg (Nat.lt_irrefl _)]
  exact ⟨Y, ⟨start.nodes⟩, ended, known, same.trans (congrArg (Option.map Node.kind) cut)⟩

/-- A character that the library has asked for is remembered. -/
theorem exists_extracted (P : Policy) (ask : Requests) {s i : Handle} (differ : s ≠ i) :
  ∃ X h, Asking ask (.checked P) {} X ∧ X.session.emulated? .charAt [s, i] = some h
    ∧ X.session.kind? h = some .char
  := by
  obtain ⟨X, asking, declares⟩ := exists_declares ask P
    (fun m => if m = s.index then .string else .int) (max s.index i.index + 1)
  have string : X.session.Holds (.node s : Value .string) := by
    have kind := declares.kinds s.index (by omega)
    rwa [if_pos rfl] at kind
  have position : X.session.Holds (.node i : Value .int) := by
    have kind := declares.kinds i.index (by omega)
    rwa [if_neg fun same => differ (congrArg Handle.mk same.symm)] at kind
  have extracted := asking.other
    ⟨_, .edit (.operate .extract (.two (.node s) (.node i))) ⟨string, position, trivial⟩⟩
    (Nat.le_refl _)
  obtain ⟨h, value, known⟩ := Emulation.introduce_remembers .char .charAt [s, i]
    (Strings.characterCondition (.node s) (.node i)) X.session
  have value : (Strings.extract (.node s) (.node i) X.session).1 = .node h := value
  obtain ⟨-, kind⟩ := declares.kinded.extract string position
  rw [value] at kind
  exact ⟨_, h, extracted, known, kind⟩

/-! ### The condition -/

/-- Every request for what is remembered is answered by a value of the kind that is asked for, in
every state that is reached by typed edits and requests like these, exactly when definitions must
not use checkpoints from before their start and no two requests differ only in the kind, those of
the library for characters included.  A new variable is remembered when its definition ends. -/
theorem answers_iff (P : Policy) (ask : Requests) :
  (∀ c X, Asking ask (.checked P) c X → X.session.Answers ask)
    ↔ ∀ op hs k, ask op hs k → P.outer = false ∧ ∀ j, ask.all op hs j → j = k
  := by
  simp only [Session.answers_iff_kind?]
  constructor
  · intro always op hs k asked
    constructor
    · by_contra outer
      obtain ⟨X, h, asking, known, unknown⟩ :=
        exists_remembered_unknown (Bool.not_eq_false _ |>.mp outer) asked
      have kind := always {} X asking op hs k h asked known
      cases unknown.symm.trans kind
    · rintro j (asked' | ⟨rfl, rfl, s, i, differ, rfl⟩)
      · obtain ⟨X, h, asking, known, kind⟩ := exists_remembered P asked'
        cases kind.symm.trans (always {} X asking op hs k h asked known)
        rfl
      · obtain ⟨X, h, asking, known, kind⟩ := exists_extracted P ask differ
        cases kind.symm.trans (always {} X asking _ _ k h asked known)
        rfl
  · intro single c X asking op hs k h asked known
    have remembers := (asking.answering (single op hs k asked).1).session.2
    apply remembers.kind? (fun op hs k asked => (single op hs k asked).2) asked known

end Execution

end StringTerms
