import Mathlib.Data.List.Nodup
import Mathlib.Data.List.Perm.Subperm
import Mathlib.Order.Bounds.Basic
import StringTerms.Proofs.Printing
import StringTerms.Proofs.Restorable

/-!
# The search for an unused name

The name of an anonymous variable is found by a search through the numbered names, which stops at
the first name that is unused and has no other bound.  It always comes to an end, at the least
number whose name is unused: among one more numbered names than there are variables, which differ,
one is unused.  The names of the variables can make the search pass as many numbers as there are
variables, but no more.
-/

namespace StringTerms.Session

variable {ss : Session} {name separator : String} {start m n : Nat}

/-! ### Names that are in use -/

/-- The names of all variables, in the order of their allocation. -/
def names (ss : Session) : List String := ss.vars.toList.map Variable.name

theorem nameTaken_eq_false_iff :
  ss.nameTaken name = false ↔ name ∉ ss.names
  := by
  rw [nameTaken, Array.any_eq_false', names, List.mem_map]
  simp

theorem numberedName_injective (ss : Session) (separator : String) :
  Function.Injective (ss.numberedName separator)
  := by
  intro m n same
  apply Smtlib.repr_injective
  exact congrArg String.toList ((String.append_right_inj _).mp same)

theorem numberedName_ne_empty (ss : Session) (separator : String) (n : Nat) :
  ss.numberedName separator n ≠ ""
  := by
  intro empty
  exact Nat.repr_ne_empty (String.append_eq_empty_iff.mp empty).2

/-- The numbers from `start` on whose name is that of no variable. -/
def unusedNumbers (ss : Session) (separator : String) (start : Nat) : Set Nat :=
  {n | start ≤ n ∧ ss.configuration.freshPrefix ++ separator ++ toString n ∉ ss.names}

theorem mem_unusedNumbers_iff :
  n ∈ ss.unusedNumbers separator start
    ↔ start ≤ n ∧ ss.nameTaken (ss.numberedName separator n) = false
  := by
  rw [nameTaken_eq_false_iff]
  exact Iff.rfl

/-- Where the name of the first number is in use, the unused numbers are later ones. -/
theorem unusedNumbers_of_taken (taken : ss.nameTaken (ss.numberedName separator start) = true) :
  ss.unusedNumbers separator start = ss.unusedNumbers separator (start + 1)
  := by
  ext n
  rw [mem_unusedNumbers_iff, mem_unusedNumbers_iff, Nat.succ_le_iff]
  constructor
  · rintro ⟨onward, unused⟩
    refine ⟨Nat.lt_of_le_of_ne onward ?_, unused⟩
    rintro rfl
    rw [taken] at unused
    cases unused
  · rintro ⟨later, unused⟩
    exact ⟨Nat.le_of_lt later, unused⟩

/-- Among one more numbers than there are variables, one is unused. -/
theorem exists_mem_unusedNumbers (ss : Session) (separator : String) (start : Nat) :
  ∃ n ∈ ss.unusedNumbers separator start, n ≤ start + ss.vars.size
  := by
  let tried := (List.range' start (ss.vars.size + 1)).map (ss.numberedName separator)
  by_contra none
  have distinct : tried.Nodup :=
    List.Nodup.map (ss.numberedName_injective separator) (List.nodup_range' 1)
  have taken : tried ⊆ ss.names := by
    intro name mapped
    obtain ⟨n, mem, rfl⟩ := List.mem_map.mp mapped
    rw [List.mem_range'_1] at mem
    by_contra unused
    exact none ⟨n, ⟨mem.1, unused⟩, by omega⟩
  -- There are more of them than there are names of variables.
  have long := distinct.length_le_of_subset taken
  simp only [tried, names, List.length_map, List.length_range', Array.length_toList] at long
  omega

/-! ### The search -/

/-- The search through the numbered names from a number on ends at another number.  As long as the
name of a number is in use, the search goes on to the next one. -/
inductive SearchEndsAt (ss : Session) (separator : String) : Nat → Nat → Prop where
  | found {n : Nat} (unused : ss.nameTaken (ss.numberedName separator n) = false) :
      SearchEndsAt ss separator n n
  | next {start n : Nat} (taken : ss.nameTaken (ss.numberedName separator start) = true)
      (rest : SearchEndsAt ss separator (start + 1) n) :
      SearchEndsAt ss separator start n

/-- A search ends at the least unused number. -/
theorem SearchEndsAt.isLeast (ends : ss.SearchEndsAt separator start n) :
  IsLeast (ss.unusedNumbers separator start) n
  := by
  induction ends with
  | found unused => exact ⟨mem_unusedNumbers_iff.mpr ⟨Nat.le_refl _, unused⟩, fun _ mem => mem.1⟩
  | next taken _ ih =>
      rw [unusedNumbers_of_taken taken]
      exact ih

/-- A search ends where there is an unused number. -/
theorem exists_searchEndsAt_of_mem (mem : m ∈ ss.unusedNumbers separator start) :
  ∃ n, ss.SearchEndsAt separator start n
  := by
  -- Each step of the search brings it nearer to the unused number.
  induction distance : m - start generalizing start with
  | zero =>
      have here : start = m := by
        have onward := mem.1
        omega
      subst here
      exact ⟨start, .found (mem_unusedNumbers_iff.mp mem).2⟩
  | succ _ ih =>
      cases state : ss.nameTaken (ss.numberedName separator start) with
      | false => exact ⟨start, .found state⟩
      | true =>
          rw [unusedNumbers_of_taken state] at mem
          obtain ⟨n, ends⟩ := ih mem (by omega)
          exact ⟨n, .next state ends⟩

theorem searchEndsAt_iff_isLeast :
  ss.SearchEndsAt separator start n ↔ IsLeast (ss.unusedNumbers separator start) n
  := by
  constructor
  · exact SearchEndsAt.isLeast
  · intro least
    obtain ⟨m, ends⟩ := exists_searchEndsAt_of_mem least.1
    rw [least.unique ends.isLeast]
    exact ends

/-! ### The end of the search -/

/-- A search ends, wherever it starts. -/
theorem exists_searchEndsAt (ss : Session) (separator : String) (start : Nat) :
  ∃ n, ss.SearchEndsAt separator start n
  := by
  obtain ⟨m, mem, -⟩ := ss.exists_mem_unusedNumbers separator start
  apply exists_searchEndsAt_of_mem mem

/-- A search passes no more numbers than there are variables. -/
theorem SearchEndsAt.le_add_size (ends : ss.SearchEndsAt separator start n) :
  n ≤ start + ss.vars.size
  := by
  obtain ⟨m, mem, bound⟩ := ss.exists_mem_unusedNumbers separator start
  exact Nat.le_trans (ends.isLeast.2 mem) bound

/-- The generated name is that of the number at which the search from the number of variables on
ends. -/
theorem SearchEndsAt.unusedName_eq (ends : ss.SearchEndsAt separator ss.vars.size n) :
  ss.unusedName separator = ss.numberedName separator n
  := by
  obtain ⟨mem, least⟩ := ends.isLeast
  obtain ⟨onward, unused⟩ := mem_unusedNumbers_iff.mp mem
  have bound := ends.le_add_size
  have found : (List.range' ss.vars.size (ss.vars.size + 1)).find?
      (fun m => !ss.nameTaken (ss.numberedName separator m)) = some n := by
    rw [List.find?_range'_eq_some, List.mem_range'_1, unused]
    refine ⟨rfl, by omega, ?_⟩
    intro m onward earlier
    by_contra free
    have late := least (mem_unusedNumbers_iff.mpr ⟨onward, by simpa using free⟩)
    omega
  rw [unusedName, found]

/-- Whatever the names of the variables, the prefix and the separator are, the search for an unused
name comes to an end at one number.  This is the least number from the number of variables on whose
name is unused, and at most twice the number of variables.  The generated name is the name of this
number, and so it is not the empty one. -/
theorem search_ends (ss : Session) (separator : String) :
  ∃ n, (∀ m, ss.SearchEndsAt separator ss.vars.size m ↔ m = n)
    ∧ IsLeast (ss.unusedNumbers separator ss.vars.size) n
    ∧ n ≤ 2 * ss.vars.size
    ∧ ss.unusedName separator = ss.configuration.freshPrefix ++ separator ++ toString n
    ∧ ss.unusedName separator ≠ ""
  := by
  obtain ⟨n, ends⟩ := ss.exists_searchEndsAt separator ss.vars.size
  have bound := ends.le_add_size
  have name := ends.unusedName_eq
  refine ⟨n, ?_, ends.isLeast, by omega, name, ?_⟩
  · intro m
    constructor
    · intro ends'
      exact ends'.isLeast.unique ends.isLeast
    · rintro rfl
      exact ends
  · rw [name]
    apply numberedName_ne_empty

/-- A name that is used twice, and a prefix that ends in a digit. -/
example :
  let ss := declareAll [("s13", .int), ("s14", .bool), ("s13", .char)]
    { configuration := { freshPrefix := "s1" } }
  ss.unusedName "" = "s15" ∧ ss.unusedName "!" = "s1!3"
  := by decide +kernel

/-! ### Declared names in the way of the search -/

theorem declareAll_cons (d : String × Kind) (ds : List (String × Kind)) (ss : Session) :
  ss.declareAll (d :: ds) = (declare d.1 d.2 ss).2.declareAll ds
  := rfl

theorem configuration_declareAll (ds : List (String × Kind)) (ss : Session) :
  (ss.declareAll ds).configuration = ss.configuration
  := by
  induction ds generalizing ss with
  | nil => rfl
  | cons d ds ih => apply ih

theorem names_declareAll (ds : List (String × Kind)) (ss : Session) :
  (ss.declareAll ds).names = ss.names ++ ds.map Prod.fst
  := by
  induction ds generalizing ss with
  | nil => simp [declareAll]
  | cons d ds ih =>
      rw [declareAll_cons, ih]
      simp [names, declare, addVariable]

/-- The session in which the names of `count` numbers, from `count` on, are declared. -/
def crowded (c : Configuration) (separator : String) (count : Nat) : Session :=
  declareAll
    ((List.range' count count).map fun n => (c.freshPrefix ++ separator ++ toString n, .int))
    { configuration := c }

theorem names_crowded (c : Configuration) (separator : String) (count : Nat) :
  (crowded c separator count).names
    = (List.range' count count).map ((crowded c separator count).numberedName separator)
  := by
  have numbered : (crowded c separator count).numberedName separator
      = fun n => c.freshPrefix ++ separator ++ toString n := by
    funext n
    rw [numberedName, crowded, configuration_declareAll]
  rw [numbered, crowded, names_declareAll, List.map_map]
  rfl

theorem unusedNumbers_crowded (c : Configuration) (separator : String) (count : Nat) :
  (crowded c separator count).unusedNumbers separator count = Set.Ici (2 * count)
  := by
  ext n
  rw [mem_unusedNumbers_iff, nameTaken_eq_false_iff, names_crowded,
    List.mem_map_of_injective (numberedName_injective _ separator), List.mem_range'_1, Set.mem_Ici]
  omega

/-- The bound is attained: the search can pass as many numbers as there are variables. -/
theorem searchEndsAt_crowded (c : Configuration) (separator : String) (count : Nat) :
  (crowded c separator count).vars.size = count
  ∧ (crowded c separator count).SearchEndsAt separator count (2 * count)
  := by
  constructor
  · have size := congrArg List.length (names_crowded c separator count)
    simpa [names] using size
  · rw [searchEndsAt_iff_isLeast, unusedNumbers_crowded]
    exact isLeast_Ici

end StringTerms.Session
