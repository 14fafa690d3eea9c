import StringTerms.Proofs.Closure
import StringTerms.Proofs.Rollback

/-!
# Effects of edits

An edit that extracts no character does one of three things: it shares literals and applications, it
adds a variable, or it adds an assertion.  The extraction of a character shares nodes, and where the
character is new it adds a variable for it, shares the nodes of its definition, adds an assertion,
unless the definition is known to hold, and remembers the variable.

So an operation adds nodes at the end of the arena and nothing that is the user's.
-/

namespace StringTerms

variable {ss tt uu : Session} {k r : Kind} {ks : List Kind}

/-! ### Sharing alone -/

namespace Session

/-- The sessions that are reached by sharing literals and applications and by counting folds. -/
inductive OnlyShares (ss : Session) : Session → Prop
  | refl : OnlyShares ss ss
  | fold {tt : Session} (shared : OnlyShares ss tt) : OnlyShares ss tt.countFold
  | share {tt : Session} (shared : OnlyShares ss tt) {n : Node} (term : n.var? = none) :
    OnlyShares ss (Session.share n tt).2

namespace OnlyShares

theorem trans (h : ss.OnlyShares tt) (h' : tt.OnlyShares uu) :
  ss.OnlyShares uu
  := by
  induction h' with
  | refl => apply h
  | fold _ ih => apply ih.fold
  | share _ term ih => apply ih.share term

/-- The variables, the assertions and the remembered values are the same. -/
theorem shares (h : ss.OnlyShares tt) :
  ss.Shares tt
  := by
  induction h with
  | refl => apply Shares.refl
  | fold _ ih => apply ih.trans (shares_countFold _)
  | share _ term ih => apply ih.trans (shares_share term)

theorem growsTo (h : ss.OnlyShares tt) :
  ss.GrowsTo tt
  := by
  induction h with
  | refl => apply GrowsTo.refl
  | fold _ ih => apply ih.trans (growsTo_countFold _)
  | share _ term ih => apply ih.trans (growsTo_share term _)

end OnlyShares

end Session

/-- Sessions that are reached from a session by sharing, with all handles usable. -/
def Discipline.sharing (start : Session) : Discipline where
  sound := start.OnlyShares
  usable _ _ _ := True
  mono _ := id
  fold shared := shared.fold
  share shared term _ := ⟨shared.share term, trivial⟩

section Sharing

open Session

/-- An operation that extracts no character only shares. -/
theorem Operation.onlyShares_build (o : Operation ks r) (xs : Operands Value ks)
    (plain : o.extracts = false) (ss : Session) :
  ss.OnlyShares (o.build xs ss).2
  := by
  have admitted : (Discipline.sharing ss).AdmitsAll ss xs :=
    Discipline.admitsAll_of_usable trivial xs
  apply (Discipline.follows_build OnlyShares.refl o xs admitted plain).sound

theorem onlyShares_defer (r : Kind) (op : Operator) (xs : Operands Value ks) (ss : Session) :
  ss.OnlyShares (defer r op xs ss).2
  := by
  have admitted : (Discipline.sharing ss).AdmitsAll ss xs :=
    Discipline.admitsAll_of_usable trivial xs
  apply (Discipline.follows_defer op OnlyShares.refl admitted).sound

theorem Value.onlyShares_handle (x : Value k) (ss : Session) :
  ss.OnlyShares (x.handle ss).2
  := by
  have admitted : (Discipline.sharing ss).Admits ss x := Discipline.admits_of_usable trivial x
  apply (Discipline.handle OnlyShares.refl admitted).1

theorem Strings.onlyShares_named (s : Value .string) (i : Value .int) (ss : Session) :
  ss.OnlyShares (named s i ss).2
  := (s.onlyShares_handle ss).trans (i.onlyShares_handle (s.handle ss).2)

/-- The definition of a character only shares, once there is a variable for it. -/
theorem Strings.onlyShares_defined (s : Value .string) (i : Value .int) (ss : Session) :
  (freshInternal .char ss).2.OnlyShares (Emulation.defined (characterCondition s i) ss).2
  := by
  have admitted : ∀ {k : Kind} (x : Value k),
      (Discipline.sharing (freshInternal .char ss).2).Admits (freshInternal .char ss).2 x :=
    Discipline.admits_of_usable trivial
  apply (Discipline.follows_characterCondition OnlyShares.refl (admitted s) (admitted i)
    (admitted _)).sound

end Sharing

/-! ### Edits -/

/-- A request to assert does nothing, or adds an assertion. -/
theorem Session.record_effect (origin : Origin) (h : Handle) (ss : Session) :
  ss.OnlyShares ((record origin h).run ss).2
    ∨ ((record origin h).run ss).2 = ss.addAssertion h origin
  := by
  obtain same | ⟨-, added⟩ := record_cases origin h ss
  · left
    rw [same]
    apply OnlyShares.refl
  · exact Or.inr added

/-- An edit that extracts no character only shares, or adds a variable, of a name that is given or
unused, or adds an assertion. -/
theorem Edit.perform_cases (e : Edit) (plain : e.extracts = false) (ss : Session) :
  ss.OnlyShares (e.perform ss)
    ∨ (∃ name k internal, ((∃ j, e = .declare name j) ∨ ∃ separator, name = ss.unusedName separator)
      ∧ e.perform ss = (Session.addVariable name k internal ss).2)
    ∨ ∃ h origin, e.perform ss = ss.addAssertion h origin
  := by
  cases e with
  | literal v => exact Or.inl (Session.OnlyShares.refl.share rfl)
  | declare name k => exact Or.inr (Or.inl ⟨name, k, false, Or.inl ⟨k, rfl⟩, rfl⟩)
  | fresh k => exact Or.inr (Or.inl ⟨_, k, false, Or.inr ⟨"", rfl⟩, rfl⟩)
  | freshInternal k => exact Or.inr (Or.inl ⟨_, k, true, Or.inr ⟨"!", rfl⟩, rfl⟩)
  | apply op hs =>
      left
      obtain same | ⟨j, -, shared⟩ := Session.apply_cases op hs ss
      · rw [Edit.perform, same]
        apply Session.OnlyShares.refl
      · rw [Edit.perform, shared]
        apply Session.OnlyShares.refl.share rfl
  | intern op hs k => exact Or.inl (Session.OnlyShares.refl.share rfl)
  | defer r op xs => exact Or.inl (onlyShares_defer r op xs ss)
  | operate o xs => exact Or.inl (o.onlyShares_build xs plain ss)
  | assert h =>
      obtain shared | added := Session.record_effect .user h ss
      · exact Or.inl shared
      · exact Or.inr (Or.inr ⟨h, .user, added⟩)
  | assertInternal h =>
      obtain shared | added := Session.record_effect .internal h ss
      · exact Or.inl shared
      · exact Or.inr (Or.inr ⟨h, .internal, added⟩)

/-! ### Emulated values -/

/-- A definition that ends shares its condition and asserts it, unless that is known to hold, and
its variable is remembered. -/
theorem Emulation.conclude_cases (op : Operator) (hs : List Handle) (h : Handle)
    (condition : Value .bool) (ss : Session) :
  (conclude op hs h condition ss).2 = remember op hs h ss
    ∨ ∃ tt g, ss.OnlyShares tt
      ∧ (conclude op hs h condition ss).2 = remember op hs h (tt.addAssertion g .internal)
  := by
  rw [conclude_eq]
  obtain ⟨-, same⟩ | ⟨-, asserted⟩ := require_cases condition ss
  · left
    rw [same]
  · right
    rw [asserted]
    exact ⟨_, _, condition.onlyShares_handle ss, rfl⟩

/-- A character that is extracted is the one that was remembered, or a new variable, which is
defined and remembered. -/
theorem Strings.extract_cases (s : Value .string) (i : Value .int) (ss : Session) :
  let tt := (named s i ss).2
  let hs := [(named s i ss).1.1, (named s i ss).1.2]
  let uu := Emulation.defined (characterCondition s i) tt
  (∃ h, tt.emulated? .charAt hs = some h ∧ extract s i ss = (.node h, Emulation.countReuse tt))
    ∨ tt.emulated? .charAt hs = none
      ∧ extract s i ss = (.node tt.next, (Emulation.conclude .charAt hs tt.next uu.1 uu.2).2)
  := by
  intro tt hs uu
  cases found : tt.emulated? .charAt hs with
  | some h => exact Or.inl ⟨h, rfl, Emulation.introduce_of_known found⟩
  | none => exact Or.inr ⟨rfl, Emulation.introduce_of_new _ found⟩

/-! ### Requests for characters -/

/-- The string and the position of which an operation gives the character. -/
def Operation.character? : Operation ks r → Operands Value ks → Option (Value .string × Value .int)
  | .first, .one s => some (s, .int 0)
  | .charAt, .two s i => some (s, i)
  | .extract, .two s i => some (s, i)
  | _, _ => none

/-- The string and the position of which an operation requests the character.  A character that is
known is given without a request. -/
def Operation.requested? (o : Operation ks r) (xs : Operands Value ks) (ss : Session) :
    Option (Value .string × Value .int) :=
  if (o.build xs ss).1.node?.isSome then o.character? xs else none

/-- The string and the position of which an edit requests the character. -/
def Edit.requested? : Edit → Session → Option (Value .string × Value .int)
  | .operate o xs, ss => o.requested? xs ss
  | _, _ => none

/-- An operation that extracts no character requests none. -/
theorem Operation.character?_of_plain {o : Operation ks r} (plain : o.extracts = false)
    (xs : Operands Value ks) :
  o.character? xs = none
  := by
  cases o <;> first | rfl | cases plain

/-- A character that is extracted is a node. -/
theorem Strings.isSome_node?_extract (s : Value .string) (i : Value .int) (ss : Session) :
  (extract s i ss).1.node?.isSome
  := by
  obtain ⟨h, -, given⟩ | ⟨-, given⟩ := extract_cases s i ss
  all_goals
    rw [given]
    rfl

/-- A character that is looked up is known, or it is extracted. -/
theorem Strings.node?_charAt_cases (s : Value .string) (i : Value .int) (ss : Session) :
  (charAt s i ss).1.node? = none ∧ (charAt s i ss).2 = ss
    ∨ (charAt s i ss).1.node?.isSome ∧ (charAt s i ss).2 = (extract s i ss).2
  := by
  obtain ⟨c, known⟩ | extracted := charAt_cases s i ss
  · left
    rw [known]
    exact ⟨rfl, rfl⟩
  · right
    rw [extracted]
    exact ⟨isSome_node?_extract s i ss, rfl⟩

/-- An operation requests a character and does nothing else, or it requests none; then it extracts
none, or does nothing at all. -/
theorem Operation.requested?_cases (o : Operation ks r) (xs : Operands Value ks) (ss : Session) :
  (∃ s i, o.requested? xs ss = some (s, i) ∧ (o.build xs ss).2 = (Strings.extract s i ss).2)
    ∨ o.requested? xs ss = none ∧ (o.extracts = false ∨ (o.build xs ss).2 = ss)
  := by
  have looked : ∀ s i, o.character? xs = some (s, i) →
      (o.build xs ss).1.node? = none ∧ (o.build xs ss).2 = ss
        ∨ (o.build xs ss).1.node?.isSome ∧ (o.build xs ss).2 = (Strings.extract s i ss).2 →
      (∃ s i, o.requested? xs ss = some (s, i) ∧ (o.build xs ss).2 = (Strings.extract s i ss).2)
        ∨ o.requested? xs ss = none ∧ (o.extracts = false ∨ (o.build xs ss).2 = ss) := by
    rintro s i character (⟨known, same⟩ | ⟨node, extracted⟩)
    · right
      rw [requested?, known]
      exact ⟨rfl, Or.inr same⟩
    · left
      use s, i
      rw [requested?, if_pos node]
      exact ⟨character, extracted⟩
  cases plain : o.extracts with
  | false =>
      right
      rw [requested?, character?_of_plain plain, ite_self]
      exact ⟨rfl, Or.inl rfl⟩
  | true =>
      cases o <;> cases plain
      case first.refl =>
        obtain _ | ⟨s, _ | _⟩ := xs
        apply looked s (.int 0) rfl
        apply Strings.node?_charAt_cases
      case charAt.refl =>
        obtain _ | ⟨s, _ | ⟨i, _ | _⟩⟩ := xs
        apply looked s i rfl
        apply Strings.node?_charAt_cases
      case extract.refl =>
        obtain _ | ⟨s, _ | ⟨i, _ | _⟩⟩ := xs
        apply looked s i rfl
        exact Or.inr ⟨Strings.isSome_node?_extract s i ss, rfl⟩

/-- An edit requests a character and does nothing else, or it requests none; then it extracts none,
or does nothing at all. -/
theorem Edit.requested?_cases (e : Edit) (ss : Session) :
  (∃ s i, e.requested? ss = some (s, i) ∧ e.perform ss = (Strings.extract s i ss).2)
    ∨ e.requested? ss = none ∧ (e.extracts = false ∨ e.perform ss = ss)
  := by
  cases e with
  | operate o xs => apply o.requested?_cases
  | _ => exact Or.inr ⟨rfl, Or.inl rfl⟩

/-! ### Extensions -/

/-- The extraction of a character extends the session, whatever its operands are. -/
theorem Strings.extends_extract (s : Value .string) (i : Value .int) (ss : Session) :
  ss.Extends (extract s i ss).2
  := by
  apply (onlyShares_named s i ss).shares.toExtends.trans
  apply Emulation.extends_introduce
  apply (onlyShares_defined s i (named s i ss).2).shares.toExtends

/-- An edit extends the session, also where it extracts a character. -/
theorem Edit.extends_perform (e : Edit) (ss : Session) :
  ss.Extends (e.perform ss)
  := by
  obtain ⟨s, i, -, extracted⟩ | ⟨-, plain | same⟩ := e.requested?_cases ss
  · rw [extracted]
    apply Strings.extends_extract
  · apply (e.growsTo_perform plain ss).toExtends
  · rw [same]
    apply Session.Extends.refl

/-! ### Operations -/

/-- An extension adds its nodes at the end of the arena. -/
theorem Session.Extends.exists_nodes (h : ss.Extends tt) :
  ∃ added, tt.nodes = ss.nodes ++ added
  := by
  have kept : tt.nodes.take ss.nodes.size = ss.nodes.take ss.nodes.size :=
    (contents_eq_iff.mp h.contents).2.1
  use tt.nodes.extract ss.nodes.size
  calc tt.nodes
    _ = tt.nodes.take ss.nodes.size ++ tt.nodes.extract ss.nodes.size := by
      have le : ss.nodes.size ≤ tt.nodes.size := h.sizes.1
      simp [le]
    _ = ss.nodes ++ tt.nodes.extract ss.nodes.size := by
      rw [kept]
      simp

/-- Nodes are added at the end of the arena, with at most one internal variable and at most one
internal assertion. -/
structure Session.Appends (ss tt : Session) : Prop where
  nodes : ∃ added, tt.nodes = ss.nodes ++ added
  vars : tt.vars = ss.vars ∨ ∃ v, v.internal = true ∧ tt.vars = ss.vars.push v
  assertions : tt.assertions = ss.assertions
    ∨ ∃ h, tt.assertions = ss.assertions.push ⟨h, .internal⟩

namespace Session.Appends

/-- Internal variables are not the user's. -/
theorem userVariables (h : ss.Appends tt) :
  tt.userVariables = ss.userVariables
  := by
  obtain same | ⟨v, internal, pushed⟩ := h.vars
  · rw [StringTerms.Session.userVariables, same, StringTerms.Session.userVariables]
  · simp [StringTerms.Session.userVariables, pushed, internal]

/-- Internal assertions are not the user's. -/
theorem userAssertions (h : ss.Appends tt) :
  tt.userAssertions = ss.userAssertions
  := by
  obtain same | ⟨g, pushed⟩ := h.assertions
  · rw [StringTerms.Session.userAssertions, same, StringTerms.Session.userAssertions]
  · simp [StringTerms.Session.userAssertions, pushed]

end Session.Appends

theorem Session.OnlyShares.appends (h : ss.OnlyShares tt) :
  ss.Appends tt
  := ⟨h.shares.exists_nodes, Or.inl h.shares.vars, Or.inl h.shares.assertions⟩

/-- An extraction adds at most an internal variable and an internal assertion. -/
theorem Strings.appends_extract (s : Value .string) (i : Value .int) (ss : Session) :
  ss.Appends (extract s i ss).2
  := by
  have named := (onlyShares_named s i ss).shares
  have defined := onlyShares_defined s i (Strings.named s i ss).2
  -- What sharing leaves of the session with the variable, also where the condition is shared.
  have begun : ∀ {uu}, (Session.freshInternal .char (Strings.named s i ss).2).2.OnlyShares uu →
      (∃ added, uu.nodes = ss.nodes ++ added)
        ∧ (∃ v, v.internal = true ∧ uu.vars = ss.vars.push v) ∧ uu.assertions = ss.assertions := by
    intro uu shared
    have grows := Session.growsTo_freshInternal .char (Strings.named s i ss).2
    have shares := shared.shares
    refine ⟨((named.toExtends.trans grows.toExtends).trans shares.toExtends).exists_nodes, ?_, ?_⟩
    · have vars : uu.vars = (Strings.named s i ss).2.vars.push _ := shares.vars
      rw [named.vars] at vars
      exact ⟨_, rfl, vars⟩
    · apply shares.assertions.trans named.assertions
  obtain ⟨h, -, given⟩ | ⟨-, given⟩ := extract_cases s i ss
  · rw [given]
    exact ⟨named.exists_nodes, Or.inl named.vars, Or.inl named.assertions⟩
  · rw [given]
    obtain same | ⟨uu, g, shared, asserted⟩ := Emulation.conclude_cases _ _ _ _ _
    · obtain ⟨nodes, vars, assertions⟩ := begun defined
      rw [same]
      exact ⟨nodes, Or.inr vars, Or.inl assertions⟩
    · obtain ⟨nodes, vars, assertions⟩ := begun (defined.trans shared)
      have pushed : (uu.addAssertion g .internal).assertions
          = ss.assertions.push ⟨g, .internal⟩ := by
        rw [Session.addAssertion, assertions]
      rw [asserted]
      exact ⟨nodes, Or.inr vars, Or.inr ⟨g, pushed⟩⟩

/-- An operation adds nodes, and it adds neither a variable nor an assertion, unless it extracts a
character. -/
theorem Operation.appends_build (o : Operation ks r) (xs : Operands Value ks) (ss : Session) :
  ss.Appends (o.build xs ss).2
    ∧ (o.extracts = false →
        (o.build xs ss).2.vars = ss.vars ∧ (o.build xs ss).2.assertions = ss.assertions)
  := by
  constructor
  · obtain ⟨s, i, -, extracted⟩ | ⟨-, plain | same⟩ := o.requested?_cases xs ss
    · rw [extracted]
      apply Strings.appends_extract
    · apply (o.onlyShares_build xs plain ss).appends
    · rw [same]
      apply Session.OnlyShares.refl.appends
  · intro plain
    have shares := (o.onlyShares_build xs plain ss).shares
    exact ⟨shares.vars, shares.assertions⟩

end StringTerms
