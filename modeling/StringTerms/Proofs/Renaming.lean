import StringTerms.Proofs.Correspondence
import StringTerms.Proofs.HashConsing
import StringTerms.Proofs.Tree
import StringTerms.Smtlib.Term

/-!
# Renaming variables

A tree can be built in two sessions, over variables of the one and over the variables of the other
that a renaming gives for them.  The table of either session leads from terms to their handles, and
a handle of the first session is the same as a handle of the second one when the tables lead to them
from a term and from its renaming.  This is a correspondence, as one term has one handle and one
handle has one term.  So the handles of the two trees unfold to a term and to its renaming, and they
have the same text where the renaming keeps the names of variables.
-/

namespace StringTerms

variable {ss tt uu : Session} {k : Kind} {ks : List Kind} {V : Handle → Prop}
  {f : Handle → Handle}

/-! ### Terms -/

namespace Term

mutual

/-- The term with its variables renamed. -/
def rename (f : Handle → Handle) : Term → Term
  | .literal v => .literal v
  | .var h => .var (f h)
  | .application op ts k => .application op (renameAll f ts) k

/-- The terms with their variables renamed. -/
def renameAll (f : Handle → Handle) : List Term → List Term
  | [] => []
  | t :: ts => t.rename f :: renameAll f ts

end

/-- The value of a literal. -/
def literal? : Term → Option Literal
  | .literal v => some v
  | _ => none

theorem literal?_rename (t : Term) :
  (t.rename f).literal? = t.literal?
  := by
  cases t <;> rfl

mutual

/-- Every variable of the term is one of `V`. -/
def Over (V : Handle → Prop) : Term → Prop
  | .literal _ => True
  | .var h => V h
  | .application _ ts _ => OverAll V ts

/-- Every variable of the terms is one of `V`. -/
def OverAll (V : Handle → Prop) : List Term → Prop
  | [] => True
  | t :: ts => t.Over V ∧ OverAll V ts

end

mutual

/-- A renaming that distinguishes variables distinguishes the terms over them. -/
theorem rename_injective (inj : ∀ g h, V g → V h → f g = f h → g = h) :
    (t u : Term) → t.Over V → u.Over V → t.rename f = u.rename f →
  t = u
  | .literal _, .literal _, _, _, same => by simpa only [rename, literal.injEq] using same
  | .var g, .var h, hg, hh, same => by
    rw [inj g h hg hh (var.inj same)]
  | .application _ ts _, .application _ us _, ht, hu, same => by
    obtain ⟨rfl, operands, rfl⟩ := application.inj same
    rw [renameAll_injective inj ts us ht hu operands]

theorem renameAll_injective (inj : ∀ g h, V g → V h → f g = f h → g = h) :
    (ts us : List Term) → OverAll V ts → OverAll V us → renameAll f ts = renameAll f us →
  ts = us
  | [], [], _, _, _ => rfl
  | t :: ts, u :: us, ht, hu, same => by
    obtain ⟨head, tail⟩ := List.cons.inj same
    rw [rename_injective inj t u ht.1 hu.1 head, renameAll_injective inj ts us ht.2 hu.2 tail]

end

end Term

/-! ### Terms in the table -/

namespace Session

/-- The table names the nodes it is asked for, and operands are earlier nodes. -/
structure Ordered (ss : Session) : Prop where
  table : ∀ {n h}, ss.table.get? n = some h → ss.node? h = some n
  earlier : ∀ {h n}, ss.node? h = some n → ∀ g ∈ n.operands, g.index < h.index

theorem WellKinded.ordered (wk : ss.WellKinded) :
  ss.Ordered
  := by
  refine ⟨wk.table, fun {h n} hn g mem => ?_⟩
  cases n with
  | application op hs k => apply wk.earlier hn g mem
  | _ => cases mem

theorem Ordered.tableInside (ord : ss.Ordered) :
  ss.TableInside
  := fun _ _ known => (Array.getElem?_eq_some_iff.mp (ord.table known)).1

mutual

/-- The table leads from the term to the handle. -/
def LeadsTo (ss : Session) : Term → Handle → Prop
  | .literal v, g => ss.table.get? (.literal v) = some g
  | .var h, g => g = h ∧ ∃ n k, ss.node? h = some (.var n k)
  | .application op ts k, g => ∃ hs, ss.LeadsToAll ts hs
    ∧ ss.table.get? (.application op hs k) = some g

/-- The table leads from the terms to the handles, one by one. -/
def LeadsToAll (ss : Session) : List Term → List Handle → Prop
  | [], [] => True
  | t :: ts, h :: hs => ss.LeadsTo t h ∧ ss.LeadsToAll ts hs
  | _, _ => False

end

mutual

/-- A term has one handle. -/
theorem LeadsTo.unique : {t : Term} → {g h : Handle} → ss.LeadsTo t g → ss.LeadsTo t h →
  g = h
  | .literal _, _, _, hg, hh => Option.some.inj (hg.symm.trans hh)
  | .var _, _, _, hg, hh => hg.1.trans hh.1.symm
  | .application _ _ _, _, _, ⟨_, operands, hg⟩, ⟨_, operands', hh⟩ => by
    rw [LeadsToAll.unique operands operands'] at hg
    apply Option.some.inj (hg.symm.trans hh)

theorem LeadsToAll.unique : {ts : List Term} → {gs hs : List Handle} → ss.LeadsToAll ts gs →
    ss.LeadsToAll ts hs →
  gs = hs
  | [], [], [], _, _ => rfl
  | _ :: _, _ :: _, _ :: _, hg, hh => by
    rw [hg.1.unique hh.1, hg.2.unique hh.2]

end

namespace Ordered

mutual

/-- What the table leads to unfolds to the term. -/
theorem term?_of_leadsTo (ord : ss.Ordered) : {t : Term} → {g : Handle} → ss.LeadsTo t g →
  ss.term? g = some t
  | .literal _, _, leads => term?_eq_literal_iff.mpr (ord.table leads)
  | .var _, _, ⟨same, isVar⟩ => term?_eq_var_iff.mpr ⟨same, same ▸ isVar⟩
  | .application _ _ _, g, ⟨hs, operands, known⟩ => by
    have hn := ord.table known
    have terms := ord.forall₂_of_leadsToAll operands (ord.earlier hn)
    apply term?_eq_application_iff.mpr ⟨hs, hn, terms⟩

theorem forall₂_of_leadsToAll (ord : ss.Ordered) : {ts : List Term} → {hs : List Handle} →
    ss.LeadsToAll ts hs → {h : Handle} → (∀ g ∈ hs, g.index < h.index) →
  List.Forall₂ (fun g t => g.index < h.index ∧ ss.term? g = some t) hs ts
  | [], [], _, _, _ => List.Forall₂.nil
  | _ :: _, g :: _, leads, _, before =>
    List.Forall₂.cons ⟨before g List.mem_cons_self, ord.term?_of_leadsTo leads.1⟩
      (ord.forall₂_of_leadsToAll leads.2 fun f mem => before f (List.mem_cons_of_mem _ mem))

end

/-- A handle has one term. -/
theorem eq_of_leadsTo (ord : ss.Ordered) {t u : Term} {g : Handle} (ht : ss.LeadsTo t g)
    (hu : ss.LeadsTo u g) :
  t = u
  := Option.some.inj ((ord.term?_of_leadsTo ht).symm.trans (ord.term?_of_leadsTo hu))

/-- The node of the handle of a term is a literal exactly when the term is. -/
theorem literal?_of_leadsTo (ord : ss.Ordered) {t : Term} {g : Handle} (leads : ss.LeadsTo t g) :
  ss.literal? g = t.literal?
  := by
  cases t with
  | literal v =>
      rw [literal?, ord.table leads]
      rfl
  | var h =>
      obtain ⟨rfl, i, k, hn⟩ := leads
      rw [literal?, hn]
      rfl
  | application op ts k =>
      obtain ⟨hs, -, known⟩ := leads
      rw [literal?, ord.table known]
      rfl

/-- The handle of a term is in the arena. -/
theorem index_lt_of_leadsTo (ord : ss.Ordered) {t : Term} {g : Handle} (leads : ss.LeadsTo t g) :
  g.index < ss.nodes.size
  := by
  cases t with
  | literal v => apply ord.tableInside _ _ leads
  | var h =>
      obtain ⟨rfl, i, k, hn⟩ := leads
      apply (Array.getElem?_eq_some_iff.mp hn).1
  | application op ts k =>
      obtain ⟨hs, -, known⟩ := leads
      apply ord.tableInside _ _ known

theorem index_lt_of_leadsToAll (ord : ss.Ordered) :
    {ts : List Term} → {hs : List Handle} → ss.LeadsToAll ts hs →
  ∀ g ∈ hs, g.index < ss.nodes.size
  | [], [], _, _, mem => by cases mem
  | _ :: _, _ :: _, leads, g, mem => by
    obtain rfl | mem := List.mem_cons.mp mem
    · apply ord.index_lt_of_leadsTo leads.1
    · apply ord.index_lt_of_leadsToAll leads.2 g mem

mutual

/-- An extension keeps what the table leads to. -/
theorem leadsTo_mono (ord : ss.Ordered) (grows : ss.Extends uu) : {t : Term} → {g : Handle} →
    ss.LeadsTo t g →
  uu.LeadsTo t g
  | .literal _, _, leads => grows.table ord.tableInside leads
  | .var _, _, ⟨same, i, k, hn⟩ => ⟨same, i, k, grows.node? hn⟩
  | .application _ _ _, _, ⟨hs, operands, known⟩ =>
    ⟨hs, ord.leadsToAll_mono grows operands, grows.table ord.tableInside known⟩

theorem leadsToAll_mono (ord : ss.Ordered) (grows : ss.Extends uu) : {ts : List Term} →
    {hs : List Handle} → ss.LeadsToAll ts hs →
  uu.LeadsToAll ts hs
  | [], [], _ => trivial
  | _ :: _, _ :: _, leads =>
    ⟨ord.leadsTo_mono grows leads.1, ord.leadsToAll_mono grows leads.2⟩

end

/-- Sharing a node with operands in the arena. -/
theorem share (ord : ss.Ordered) {n : Node} (inside : ∀ g ∈ n.operands, g.index < ss.nodes.size) :
  (Session.share n ss).2.Ordered
  := by
  cases known : ss.table.get? n with
  | some h =>
      rw [share_of_known known]
      exact ⟨ord.table, ord.earlier⟩
  | none =>
      have grows := extends_addShared known
      rw [share_of_new known]
      constructor
      · intro m h found
        rw [addShared, FiniteMap.get?_insert] at found
        split at found
        case isTrue same =>
          cases found
          rw [same]
          apply node?_next_addShared
        case isFalse => apply grows.node? (ord.table found)
      · intro h m hm
        rw [node?_addShared] at hm
        split at hm
        case isTrue last =>
          cases hm
          rw [last]
          apply inside
        case isFalse => apply ord.earlier hm

end Ordered

end Session

/-! ### The correspondence of a renaming -/

namespace Correspondence

/-- Handles are the same when the tables lead to them from a term over the renamed variables and
from its renaming. -/
def SameTerm (V : Handle → Prop) (f : Handle → Handle) (ss tt : Session) (g h : Handle) : Prop :=
  ∃ t, t.Over V ∧ ss.LeadsTo t g ∧ tt.LeadsTo (t.rename f) h

/-- Handles that are the same one by one have terms and their renamings. -/
theorem exists_terms {gs hs : List Handle} (same : List.Forall₂ (SameTerm V f ss tt) gs hs) :
  ∃ ts, Term.OverAll V ts ∧ ss.LeadsToAll ts gs ∧ tt.LeadsToAll (Term.renameAll f ts) hs
  := by
  induction same with
  | nil => exact ⟨[], trivial, trivial, trivial⟩
  | cons head _ ih =>
      obtain ⟨t, inside, first, second⟩ := head
      obtain ⟨ts, insides, firsts, seconds⟩ := ih
      exact ⟨t :: ts, ⟨inside, insides⟩, ⟨first, firsts⟩, ⟨second, seconds⟩⟩

/-- A renaming that distinguishes variables is a correspondence. -/
def renamed (inj : ∀ g h, V g → V h → f g = f h → g = h) : Correspondence where
  within _ := True
  related ss tt := ss.Ordered ∧ tt.Ordered ∧ ss.configuration.fold = tt.configuration.fold
  same := SameTerm V f
  within_of_extends _ _ := trivial
  mono related grows grows' same := by
    obtain ⟨ord, ord', -⟩ := related
    obtain ⟨t, inside, first, second⟩ := same
    exact ⟨t, inside, ord.leadsTo_mono grows first, ord'.leadsTo_mono grows' second⟩
  folding related := related.2.2
  literal := by
    rintro ss tt g h ⟨ord, ord', -⟩ ⟨t, -, first, second⟩
    rw [ord.literal?_of_leadsTo first, ord'.literal?_of_leadsTo second, Term.literal?_rename]
  unique := by
    rintro ss tt g h e e' ⟨ord, ord', -⟩ ⟨t, inside, first, second⟩ ⟨u, inside', first', second'⟩
    constructor
    · rintro rfl
      cases ord.eq_of_leadsTo first first'
      apply second.unique second'
    · rintro rfl
      cases Term.rename_injective inj t u inside inside' (ord'.eq_of_leadsTo second second')
      apply first.unique first'
  fold := by
    rintro ss tt ⟨ord, ord', fold⟩
    exact ⟨⟨ord.table, ord.earlier⟩, ⟨ord'.table, ord'.earlier⟩, fold⟩
  share := by
    rintro ss tt n m ⟨ord, ord', fold⟩ alike -
    have grows := Session.extends_share n ss
    have grows' := Session.extends_share m tt
    have fold : (Session.share n ss).2.configuration.fold
        = (Session.share m tt).2.configuration.fold := by
      rw [grows.configuration, grows'.configuration, fold]
    cases alike with
    | literal v =>
        refine ⟨⟨ord.share (fun g mem => by cases mem), ord'.share (fun g mem => by cases mem),
          fold⟩, ?_⟩
        exact ⟨.literal v, trivial, Session.table_share _ ss, Session.table_share _ tt⟩
    | @application op k gs hs operands =>
        obtain ⟨ts, inside, first, second⟩ := exists_terms operands
        refine ⟨⟨ord.share (ord.index_lt_of_leadsToAll first),
          ord'.share (ord'.index_lt_of_leadsToAll second), fold⟩, ?_⟩
        use .application op ts k, inside
        constructor
        · exact ⟨gs, ord.leadsToAll_mono grows first, Session.table_share _ ss⟩
        · exact ⟨hs, ord'.leadsToAll_mono grows' second, Session.table_share _ tt⟩

/-! ### Trees -/

variable {C : Correspondence}

/-- Operands agree if they do so within the bounds of the first session. -/
theorem AgreesAll.of_within {xs ys : Operands Value ks}
    (h : C.within ss → C.AgreesAll ss tt xs ys) :
  C.AgreesAll ss tt xs ys
  := by
  induction xs with
  | nil =>
      cases ys
      trivial
  | cons x xs ih =>
      obtain _ | ⟨y, ys⟩ := ys
      exact ⟨fun within => (h within).1 within, ih fun within => (h within).2⟩

end Correspondence

/-- The value with its variable renamed. -/
def Value.rename (f : Handle → Handle) : Value k → Value k
  | .known v => .known v
  | .node h => .node (f h)

namespace Tree

mutual

/-- The tree with the variables at its leaves renamed. -/
def rename (f : Handle → Handle) : {k : Kind} → Tree k → Tree k
  | _, .leaf x => .leaf (x.rename f)
  | _, .node o ts => .node o (renameAll f ts)

/-- The trees with the variables at their leaves renamed. -/
def renameAll (f : Handle → Handle) : {ks : List Kind} → Operands Tree ks → Operands Tree ks
  | _, .nil => .nil
  | _, .cons t ts => .cons (t.rename f) (renameAll f ts)

end

variable {C : Correspondence}

mutual

/-- Trees without extraction whose leaves agree respect every correspondence. -/
theorem parallel_build : {ss tt : Session} → C.Linked ss tt → {k : Kind} → (t : Tree k) →
    t.Leaves (fun x => C.Agrees ss tt x (x.rename f)) → t.ExtractionFree →
  C.Parallel C.Alike ss tt t.build (t.rename f).build
  | _, _, linked, _, .leaf x, leaves, _ => .value linked leaves
  | _, _, linked, _, .node o ts, leaves, free => by
    apply (parallel_buildAll linked ts leaves free.2).bind linked
    intro xs ys uu vv _ linked agree
    apply Correspondence.parallel_build linked o xs ys (.of_within agree) free.1

theorem parallel_buildAll : {ss tt : Session} → C.Linked ss tt → {ks : List Kind} →
    (ts : Operands Tree ks) → LeavesAll (fun x => C.Agrees ss tt x (x.rename f)) ts →
    InnerAll (fun o _ => o.extracts = false) ts →
  C.Parallel (fun uu vv xs ys => C.AgreesAll uu vv xs ys) ss tt (buildAll ts)
    (buildAll (renameAll f ts))
  | _, _, linked, _, .nil, _, _ => .pure linked fun _ => trivial
  | _, _, linked, _, .cons t ts, leaves, free => by
    apply (parallel_build linked t leaves.1 free.1).bind linked
    intro x y _ _ later linked agree
    apply (parallel_buildAll linked ts
      (leavesAll_imp ts (fun h => h.mono later) leaves.2) free.2).bind linked
    intro xs ys _ _ later linked agrees
    apply Correspondence.Parallel.pure linked
    exact fun within => ⟨Correspondence.Agrees.mono agree later, agrees within⟩

end

end Tree

/-! ### Names and texts -/

/-- The text of a node whose operands precede it. -/
theorem Smtlib.term_of_node {h : Handle} {n : Node} (hn : ss.node? h = some n)
    (earlier : ∀ g ∈ n.operands, g.index < h.index) :
  term ss h = node ss (term ss) n
  := by
  rw [term, hn]
  cases n with
  | literal v => rfl
  | var i k => rfl
  | application op hs k =>
      have operands : ∀ g ∈ hs, " " ++ (if _before : g.index < h.index then term ss g
          else unknown g) = " " ++ term ss g :=
        fun g mem => congrArg _ (dif_pos (earlier g mem))
      simp only [node, List.map_congr_left operands]

/-- The handle is a variable of the kind and the name. -/
def Session.IsNamed (ss : Session) (g : Handle) (k : Kind) (name : String) : Prop :=
  ∃ i v, ss.node? g = some (.var i k) ∧ ss.variableRecord? i = some v ∧ v.name = name

/-- The renaming takes variables of a session to distinct variables of another one that have the
same kinds and names. -/
structure Session.Renames (V : Handle → Prop) (f : Handle → Handle) (ss tt : Session) : Prop where
  injective : ∀ g h, V g → V h → f g = f h → g = h
  keeps : ∀ g, V g → ∃ k name, ss.IsNamed g k name ∧ tt.IsNamed (f g) k name

namespace Session

theorem IsNamed.mono {g : Handle} {name : String} (isNamed : ss.IsNamed g k name)
    (grows : ss.Extends uu) :
  uu.IsNamed g k name
  := by
  obtain ⟨i, v, hn, recorded, named⟩ := isNamed
  exact ⟨i, v, grows.node? hn, grows.variableRecord? recorded, named⟩

/-- The text of a variable is its name. -/
theorem IsNamed.text {g : Handle} {name : String} (isNamed : ss.IsNamed g k name) :
  Smtlib.term ss g = name
  := by
  obtain ⟨i, v, hn, recorded, named⟩ := isNamed
  rw [Smtlib.term_of_node hn (fun g mem => by cases mem), Smtlib.node, Smtlib.variableText,
    recorded]
  apply named

theorem Renames.mono {vv : Session} (renames : ss.Renames V f tt) (grows : ss.Extends uu)
    (grows' : tt.Extends vv) :
  uu.Renames V f vv
  := by
  use renames.injective
  intro g inside
  obtain ⟨k, name, isNamed, isNamed'⟩ := renames.keeps g inside
  exact ⟨k, name, isNamed.mono grows, isNamed'.mono grows'⟩

mutual

/-- A term and its renaming have the same text. -/
theorem Renames.text (renames : Renames V f ss tt) (ord : ss.Ordered) (ord' : tt.Ordered) :
    {t : Term} → {g h : Handle} → t.Over V → ss.LeadsTo t g → tt.LeadsTo (t.rename f) h →
  Smtlib.term ss g = Smtlib.term tt h
  | .literal _, _, _, _, first, second => by
    rw [Smtlib.term_of_node (ord.table first) (fun g mem => by cases mem),
      Smtlib.term_of_node (ord'.table second) (fun g mem => by cases mem)]
    rfl
  | .var i, _, _, inside, ⟨same, _⟩, ⟨same', _⟩ => by
    obtain ⟨k, name, isNamed, isNamed'⟩ := renames.keeps i inside
    rw [same, same', isNamed.text, isNamed'.text]
  | .application op ts k, _, _, inside, ⟨gs, operands, first⟩, ⟨hs, operands', second⟩ => by
    have hn := ord.table first
    have hn' := ord'.table second
    rw [Smtlib.term_of_node hn (ord.earlier hn), Smtlib.term_of_node hn' (ord'.earlier hn'),
      Smtlib.node, Smtlib.node, renames.texts ord ord' inside operands operands']

theorem Renames.texts (renames : Renames V f ss tt) (ord : ss.Ordered) (ord' : tt.Ordered) :
    {ts : List Term} → {gs hs : List Handle} → Term.OverAll V ts → ss.LeadsToAll ts gs →
    tt.LeadsToAll (Term.renameAll f ts) hs →
  gs.map (fun g => " " ++ Smtlib.term ss g) = hs.map fun h => " " ++ Smtlib.term tt h
  | [], [], [], _, _, _ => rfl
  | _ :: _, _ :: _, _ :: _, inside, first, second => by
    rw [List.map_cons, List.map_cons, renames.text ord ord' inside.1 first.1 second.1,
      renames.texts ord ord' inside.2 first.2 second.2]

end

end Session

/-- The shape of a term does not depend on what the session holds besides: a tree without extraction
over known values and variables, built in two sessions whose variables are renamed, gives the same
known value in both, or nodes that have the same text and unfold to a term over these variables and
to its renaming. -/
theorem Tree.build_rename (wk : ss.WellKinded) (wk' : tt.WellKinded)
    (fold : ss.configuration.fold = tt.configuration.fold) (renames : Session.Renames V f ss tt)
    (t : Tree k) (free : t.ExtractionFree)
    (leaves : t.Leaves fun x => ∀ h, x = .node h → V h) :
  (∃ v, (t.build ss).1 = .known v ∧ ((t.rename f).build tt).1 = .known v)
  ∨ ∃ g h u, (t.build ss).1 = .node g ∧ ((t.rename f).build tt).1 = .node h
      ∧ Smtlib.term (t.build ss).2 g = Smtlib.term ((t.rename f).build tt).2 h
      ∧ u.Over V ∧ (t.build ss).2.term? g = some u
      ∧ ((t.rename f).build tt).2.term? h = some (u.rename f)
  := by
  have related : (Correspondence.renamed renames.injective).related ss tt :=
    ⟨wk.ordered, wk'.ordered, fold⟩
  have agree : t.Leaves fun x =>
      (Correspondence.renamed renames.injective).Agrees ss tt x (x.rename f) := by
    apply t.leaves_imp _ leaves
    intro k x inside _
    cases x with
    | known v => apply Value.Alike.known
    | node h =>
        obtain ⟨k, name, ⟨i, v, hn, -⟩, ⟨j, w, hn', -⟩⟩ := renames.keeps h (inside h rfl)
        exact Value.Alike.node ⟨.var h, inside h rfl, ⟨rfl, i, k, hn⟩, ⟨rfl, j, k, hn'⟩⟩
  have parallel := t.parallel_build (fun _ => related) agree free
  obtain ⟨grows', ⟨ord, ord', -⟩, alike⟩ := parallel.ends trivial
  have renames := renames.mono parallel.grows grows'
  obtain known | ⟨g, h, first, second, u, inside, leads, leads'⟩ := alike.known_or_node
  · exact Or.inl known
  · right
    use g, h, u, first, second, renames.text ord ord' inside leads leads', inside
    exact ⟨ord.term?_of_leadsTo leads, ord'.term?_of_leadsTo leads'⟩

/-- The first character of a variable, in a new session and in one that has measured the
variable. -/
theorem Tree.build_rename_take :
  let ss : Session := (Session.declare "x" .string {}).2
  let tt : Session := (Session.intern .length [⟨1⟩] .int
    (Session.declare "x" .string (Session.declare "p" .bool {}).2).2).2
  let t : Tree .string := .node .take (.two (.leaf (.int 1)) (.leaf (.node ⟨0⟩)))
  let u : Tree .string := .node .take (.two (.leaf (.int 1)) (.leaf (.node ⟨1⟩)))
  (t.build ss).1 = .node ⟨6⟩ ∧ (u.build tt).1 = .node ⟨7⟩
    ∧ Smtlib.term (t.build ss).2 ⟨6⟩ = Smtlib.term (u.build tt).2 ⟨7⟩
  := by
  intro ss tt t u
  have wk : ss.WellKinded := (Session.wellKinded_empty {}).addVariable "x" .string false
  have declared : (Session.declare "x" .string (Session.declare "p" .bool {}).2).2.WellKinded :=
    ((Session.wellKinded_empty {}).addVariable "p" .bool false).addVariable "x" .string false
  have measured := declared.share (n := .application .length [⟨1⟩] .int)
    ⟨.bool, List.Forall₂.cons rfl List.Forall₂.nil, rfl⟩
  have renames : Session.Renames (· = ⟨0⟩) (fun h => ⟨h.index + 1⟩) ss tt := by
    constructor
    · rintro g h rfl rfl -
      rfl
    · rintro g rfl
      exact ⟨.string, "x", ⟨0, _, rfl, rfl, rfl⟩, ⟨1, _, rfl, rfl, rfl⟩⟩
  have first : (t.build ss).1 = .node ⟨6⟩ := by decide +kernel
  have second : (u.build tt).1 = .node ⟨7⟩ := by decide +kernel
  have leaves : t.Leaves fun {k} (x : Value k) => ∀ h, x = .node h → h = ⟨0⟩ :=
    ⟨fun _ same => (by cases same), fun _ same => (Value.node.inj same).symm, trivial⟩
  obtain ⟨v, known, -⟩ | ⟨g, h, term, named, named', text, -⟩ :=
    Tree.build_rename wk measured.2.1 rfl renames t ⟨rfl, trivial, trivial, trivial⟩ leaves
  · cases first.symm.trans known
  · cases first.symm.trans named
    cases second.symm.trans named'
    exact ⟨first, second, text⟩

end StringTerms
