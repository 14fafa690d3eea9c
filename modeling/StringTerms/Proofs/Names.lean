import Mathlib.Data.List.Nodup
import StringTerms.Proofs.NameSearch
import StringTerms.Proofs.Records
import StringTerms.Proofs.Renaming

/-!
# Names of variables

A generated name is not the name of any variable that the session has.  So the names of all
variables stay distinct where no variable is declared under a name that is in use, and then the text
of a variable denotes one variable.  Where a variable is declared under a generated name, the names
are not distinct.
-/

namespace StringTerms

namespace Session

variable {ss tt : Session} {name : String}

/-- A generated name is that of no variable of the session. -/
theorem nameTaken_unusedName (ss : Session) (separator : String) :
  ss.nameTaken (ss.unusedName separator) = false
  := by
  obtain ⟨n, ends⟩ := ss.exists_searchEndsAt separator ss.vars.size
  rw [ends.unusedName_eq]
  exact (mem_unusedNumbers_iff.mp ends.isLeast.1).2

/-! ### Distinct names -/

theorem names_congr (vars : tt.vars = ss.vars) :
  tt.names = ss.names
  := by
  rw [names, vars, names]

/-- A variable of an unused name. -/
theorem nodup_names_addVariable (distinct : ss.names.Nodup) (unused : ss.nameTaken name = false)
    (k : Kind) (internal : Bool) :
  (addVariable name k internal ss).2.names.Nodup
  := by
  have names : (addVariable name k internal ss).2.names = ss.names ++ [name] := by
    simp [Session.names, addVariable]
  rw [names, List.nodup_append_comm]
  apply List.nodup_cons.mpr ⟨nameTaken_eq_false_iff.mp unused, distinct⟩

theorem nodup_names_freshInternal (distinct : ss.names.Nodup) (k : Kind) :
  (freshInternal k ss).2.names.Nodup
  := nodup_names_addVariable distinct (ss.nameTaken_unusedName "!") k true

/-- A rollback only takes names away. -/
theorem nodup_names_truncate (distinct : ss.names.Nodup) (cp : Checkpoint) :
  (ss.truncate cp).names.Nodup
  := by
  apply List.Nodup.sublist _ distinct
  apply List.Sublist.map
  simp [truncate, List.take_sublist]

theorem nodup_names_conclude (distinct : ss.names.Nodup) (op : Operator) (hs : List Handle)
    (h : Handle) (condition : Value .bool) :
  (Emulation.conclude op hs h condition ss).2.names.Nodup
  := by
  obtain same | ⟨tt, g, shared, asserted⟩ := Emulation.conclude_cases op hs h condition ss
  · rw [same]
    exact distinct
  · have names : tt.names = ss.names := names_congr shared.shares.vars
    rw [asserted]
    exact names ▸ distinct

end Session

open Session

theorem Strings.nodup_names_extract {ss : Session} (distinct : ss.names.Nodup) (s : Value .string)
    (i : Value .int) :
  (extract s i ss).2.names.Nodup
  := by
  have named : (named s i ss).2.names.Nodup := by
    rw [names_congr (onlyShares_named s i ss).shares.vars]
    apply distinct
  obtain ⟨h, -, given⟩ | ⟨-, given⟩ := extract_cases s i ss
  · rw [given]
    exact named
  · rw [given]
    apply nodup_names_conclude
    rw [names_congr (onlyShares_defined s i _).shares.vars]
    apply nodup_names_freshInternal named

/-- An edit keeps the names distinct, unless it declares a variable under a name that is in use. -/
theorem Edit.nodup_names_perform {ss : Session} (distinct : ss.names.Nodup) (e : Edit)
    (unused : ∀ name k, e = .declare name k → ss.nameTaken name = false) :
  (e.perform ss).names.Nodup
  := by
  obtain ⟨s, i, -, extracted⟩ | ⟨-, plain | same⟩ := e.requested?_cases ss
  · rw [extracted]
    apply Strings.nodup_names_extract distinct
  · obtain shared | ⟨name, k, internal, source, added⟩ | ⟨h, origin, added⟩ :=
      e.perform_cases plain ss
    · rw [names_congr shared.shares.vars]
      apply distinct
    · rw [added]
      apply nodup_names_addVariable distinct
      obtain ⟨j, declared⟩ | ⟨separator, rfl⟩ := source
      · apply unused name j declared
      · apply nameTaken_unusedName
    · rw [added]
      exact distinct
  · rw [same]
    apply distinct

/-- A name belongs to one number. -/
theorem Session.number_eq_of_name {ss : Session} (distinct : ss.names.Nodup) {i j : Nat}
    {v w : Variable} (record : ss.variableRecord? i = some v)
    (record' : ss.variableRecord? j = some w) (same : v.name = w.name) :
  i = j
  := by
  have named : ∀ {i v}, ss.variableRecord? i = some v → ss.names[i]? = some v.name := by
    intro i v record
    rw [names, List.getElem?_map, Array.getElem?_toList, ← variableRecord?, record]
    rfl
  have inside : i < ss.names.length := (List.getElem?_eq_some_iff.mp (named record)).1
  rw [← List.getElem?_inj inside distinct, named record, named record', same]

/-- The text of a variable is the name of its record. -/
theorem Session.Recorded.exists_name {ss : Session} (recorded : ss.Recorded) {g : Handle} {i : Nat}
    {k : Kind} (hg : ss.node? g = some (.var i k)) :
  ∃ v, ss.variableRecord? i = some v ∧ Smtlib.term ss g = v.name
  := by
  obtain ⟨v, record, -⟩ := recorded g i k hg
  have named : ss.IsNamed g k v.name := ⟨i, v, hg, record, rfl⟩
  exact ⟨v, record, named.text⟩

/-! ### Executions -/

/-- The conduct in which no variable is declared under a name that is in use. -/
def Conduct.unused (P : Policy) : Conduct where
  policy := P
  edits ss e := ∀ name k, e = .declare name k → ss.nameTaken name = false

namespace Execution

variable {P : Policy} {c : Configuration} {X Y : Execution} {es fs : List Event}

/-- A step keeps the names distinct. -/
theorem Transition.nodup_names (next : Transition (.unused P) X fs Y)
    (distinct : X.session.names.Nodup) :
  Y.session.names.Nodup
  := by
  cases next with
  | edit e unused => apply e.nodup_names_perform distinct unused
  | checkpoint => apply distinct
  | rollback _ _ accepted =>
      obtain ⟨-, rfl⟩ := rollback?_eq_ok_iff.mp accepted
      apply nodup_names_truncate distinct
  | reuse => exact distinct
  | begin k _ => apply nodup_names_freshInternal distinct
  | conclude => apply nodup_names_conclude distinct
  | giveUp _ accepted =>
      obtain ⟨-, rfl⟩ := rollback?_eq_ok_iff.mp accepted
      apply nodup_names_truncate distinct
  | stuck => apply distinct

/-- Where no variable is declared under a name that is in use, generated names included, the names
of all variables are distinct in every state that is reached.  In an orderly course the text of a
variable is its name, and no other variable has this text. -/
theorem Course.names_distinct (course : Course (.unused P) (initial c) es X) :
  X.session.names.Nodup
  ∧ (Event.Orderly es → ∀ g i k, X.session.node? g = some (.var i k) →
      ∃ v, X.session.variableRecord? i = some v ∧ Smtlib.term X.session g = v.name
        ∧ ∀ h j l, X.session.node? h = some (.var j l) → Smtlib.term X.session h = v.name → h = g)
  := by
  have distinct : X.session.names.Nodup := by
    induction course with
    | refl => apply List.nodup_nil
    | step _ next ih => apply next.nodup_names ih
  use distinct
  intro orderly g i k hg
  have recorded := (course.recording orderly).recorded
  obtain ⟨v, record, text⟩ := recorded.exists_name hg
  refine ⟨v, record, text, ?_⟩
  intro h j l hh same
  obtain ⟨w, record', text'⟩ := recorded.exists_name hh
  have number : i = j := number_eq_of_name distinct record record' (same.symm.trans text')
  subst number
  apply recorded.distinctVariables h g i l k hh hg

/-- A name that a rollback has freed is declared, and the next generated names differ from it. -/
theorem Course.names_distinct_freed :
  ∃ X es, Course (.unused ⟨false, false, false⟩) (initial {}) es X ∧ Event.Orderly es
    ∧ X.session.names = ["s1", "s2", "s!2"] ∧ X.session.names.Nodup
    ∧ ∃ v, X.session.variableRecord? 1 = some v ∧ Smtlib.term X.session ⟨1⟩ = v.name
  := by
  let C : Conduct := .unused ⟨false, false, false⟩
  let ss := (Session.declare "s1" .string {}).2
  let tt := (Session.fresh .string ss).2
  let uu := (Session.declare "s2" .int (tt.truncate ss.checkpoint)).2
  have first : C.edits {} (.declare "s1" .string) := by
    rintro _ _ ⟨⟩
    decide +kernel
  have second : C.edits (tt.truncate ss.checkpoint) (.declare "s2" .int) := by
    rintro _ _ ⟨⟩
    decide +kernel
  have generated : Course C (initial {}) [.taken ss.checkpoint] ⟨tt, [⟨0, ss.checkpoint⟩], []⟩ :=
    ((Course.refl.step (.edit (.declare "s1" .string) first)).step .checkpoint).step
      (.edit (.fresh .string) fun _ _ same => by cases same)
  have freed : Course C (initial {}) [.rolledBack tt ss.checkpoint, .taken ss.checkpoint]
      ⟨tt.truncate ss.checkpoint, [⟨0, ss.checkpoint⟩], []⟩ :=
    generated.step (.rollback List.mem_cons_self (Or.inr (Nat.le_refl 0)) rfl)
  have declared : Course C (initial {}) [.rolledBack tt ss.checkpoint, .taken ss.checkpoint]
      ⟨uu, [⟨0, ss.checkpoint⟩], []⟩ :=
    freed.step (.edit (.declare "s2" .int) second)
  have course : Course C (initial {}) [.rolledBack tt ss.checkpoint, .taken ss.checkpoint]
      ⟨(Session.freshInternal .char uu).2, [⟨0, ss.checkpoint⟩], []⟩ :=
    declared.step (.edit (.freshInternal .char) fun _ _ same => by cases same)
  have orderly : Event.Orderly [.rolledBack tt ss.checkpoint, .taken ss.checkpoint] :=
    ⟨Or.inl rfl, trivial⟩
  obtain ⟨distinct, texts⟩ := course.names_distinct
  obtain ⟨v, record, text, -⟩ := texts orderly ⟨1⟩ 1 .int rfl
  exact ⟨_, _, course, orderly, by decide +kernel, distinct, v, record, text⟩

end Execution

/-! ### Declaring a generated name -/

/-- The name under which an edit declares a variable. -/
def Edit.declared? : Edit → Option String
  | .declare name _ => some name
  | _ => none

/-- The session after some edits. -/
def Edit.performAll (es : List Edit) (ss : Session) : Session :=
  es.foldl (fun tt e => e.perform tt) ss

/-- That declared names are distinct does not make all names distinct: a variable can be declared
under a name that was generated before. -/
theorem Edit.not_names_distinct :
  ¬ ∀ es : List Edit, (es.filterMap Edit.declared?).Nodup →
    (Edit.performAll es {}).names.Nodup
  := by
  intro always
  have distinct := always [.fresh .int, .declare "s0" .int] (by decide +kernel)
  revert distinct
  decide +kernel

end StringTerms
