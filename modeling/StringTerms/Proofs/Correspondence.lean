import StringTerms.Proofs.Discipline

/-!
# Correspondences

A computation can be performed in two sessions.  A correspondence says which sessions are related
and which of their handles are the same: related sessions show the same literal at handles that are
the same, and requests for nodes that are alike give handles that are the same again.  The first
session may be followed only as long as it stays within bounds; beyond them nothing is said of the
second one.

Every operation that extracts no character respects every correspondence: performed in related
sessions, on operands that are alike, it ends in related sessions with values that are alike.
-/

namespace StringTerms

variable {α β γ δ : Type} {ss tt uu vv : Session} {k r : Kind} {ks : List Kind}

/-- The nodes are one literal, or they apply one operator to operands that are the same. -/
inductive Node.Alike (same : Handle → Handle → Prop) : Node → Node → Prop
  | literal (v : Literal) : Alike same (.literal v) (.literal v)
  | application (op : Operator) (k : Kind) {gs hs : List Handle}
    (operands : List.Forall₂ same gs hs) :
    Alike same (.application op gs k) (.application op hs k)

/-- The values are known and equal, or they are nodes that are the same. -/
inductive Value.Alike (same : Handle → Handle → Prop) : Value k → Value k → Prop
  | known (v : k.Carrier) : Alike same (.known v) (.known v)
  | node {g h : Handle} (agree : same g h) : Alike same (.node g) (.node h)

theorem Value.Alike.known_or_node {same : Handle → Handle → Prop} {x y : Value k}
    (alike : x.Alike same y) :
  (∃ v, x = .known v ∧ y = .known v) ∨ ∃ g h, x = .node g ∧ y = .node h ∧ same g h
  := by
  cases alike with
  | known v => exact Or.inl ⟨v, rfl, rfl⟩
  | node agree => exact Or.inr ⟨_, _, rfl, rfl, agree⟩

/-- A relation between two sessions, and one between their handles, that folds and requests for
nodes keep. -/
structure Correspondence where
  /-- The bounds within which the first session is followed. -/
  within : Session → Prop
  related : Session → Session → Prop
  same : Session → Session → Handle → Handle → Prop
  within_of_extends : ∀ {ss uu}, ss.Extends uu → within uu → within ss
  mono : ∀ {ss tt uu vv g h}, related ss tt → ss.Extends uu → tt.Extends vv → same ss tt g h →
    same uu vv g h
  folding : ∀ {ss tt}, related ss tt → ss.configuration.fold = tt.configuration.fold
  literal : ∀ {ss tt g h}, related ss tt → same ss tt g h → ss.literal? g = tt.literal? h
  /-- A handle is the same as one handle of the other session only. -/
  unique : ∀ {ss tt g h e f}, related ss tt → same ss tt g h → same ss tt e f → (g = e ↔ h = f)
  fold : ∀ {ss tt}, related ss tt → related ss.countFold tt.countFold
  share : ∀ {ss tt n m}, related ss tt → n.Alike (same ss tt) m →
    within (Session.share n ss).2 → related (Session.share n ss).2 (Session.share m tt).2
      ∧ same (Session.share n ss).2 (Session.share m tt).2
        (Session.share n ss).1 (Session.share m tt).1

namespace Correspondence

variable {C : Correspondence}

/-- Within its bounds, the first session is related to the second. -/
def Linked (C : Correspondence) (ss tt : Session) : Prop := C.within ss → C.related ss tt

abbrev Alike (C : Correspondence) (ss tt : Session) (x y : Value k) : Prop :=
  x.Alike (C.same ss tt) y

/-- Within the bounds of the first session, the values are alike. -/
def Agrees (C : Correspondence) (ss tt : Session) (x y : Value k) : Prop :=
  C.within ss → C.Alike ss tt x y

/-- The operands agree one by one. -/
def AgreesAll (C : Correspondence) (ss tt : Session) :
    {ks : List Kind} → Operands Value ks → Operands Value ks → Prop
  | _, .nil, .nil => True
  | _, .cons x xs, .cons y ys => C.Agrees ss tt x y ∧ C.AgreesAll ss tt xs ys

/-- Both sessions have been extended, the second one as far as the first one is followed. -/
structure Later (C : Correspondence) (ss tt uu vv : Session) : Prop where
  grows : ss.Extends uu
  follows : C.within uu → C.related ss tt ∧ tt.Extends vv

theorem Agrees.known (v : k.Carrier) :
  C.Agrees ss tt (.known v) (.known v)
  := fun _ => .known v

theorem Agrees.mono {x y : Value k} (h : C.Agrees ss tt x y) (later : C.Later ss tt uu vv) :
  C.Agrees uu vv x y
  := by
  intro within
  obtain ⟨related, grows⟩ := later.follows within
  cases h (C.within_of_extends later.grows within) with
  | known v => exact .known v
  | node agree => exact .node (C.mono related later.grows grows agree)

theorem AgreesAll.mono {xs ys : Operands Value ks} (h : C.AgreesAll ss tt xs ys)
    (later : C.Later ss tt uu vv) :
  C.AgreesAll uu vv xs ys
  := by
  induction xs with
  | nil =>
      cases ys
      trivial
  | cons x xs ih =>
      obtain _ | ⟨y, ys⟩ := ys
      exact ⟨h.1.mono later, ih h.2⟩

/-- Operands of one kind agree as lists. -/
theorem AgreesAll.toList {n : Nat} {xs ys : Operands Value (List.replicate n k)}
    (h : C.AgreesAll ss tt xs ys) :
  List.Forall₂ (C.Agrees ss tt) xs.toList ys.toList
  := by
  induction n with
  | zero =>
      cases xs
      cases ys
      apply List.Forall₂.nil
  | succ n ih =>
      obtain _ | ⟨x, xs⟩ := xs
      obtain _ | ⟨y, ys⟩ := ys
      apply List.Forall₂.cons h.1 (ih h.2)

theorem forall₂_mono {xs ys : List (Value k)} (h : List.Forall₂ (C.Agrees ss tt) xs ys)
    (later : C.Later ss tt uu vv) :
  List.Forall₂ (C.Agrees uu vv) xs ys
  := h.imp fun _ _ agrees => agrees.mono later

/-! ### What is known of values that agree -/

section Known

variable {x x' y y' : Value k}

theorem Agrees.known? (h : C.Agrees ss tt x y) (linked : C.Linked ss tt) (within : C.within ss) :
  x.known? ss = y.known? tt
  := by
  cases h within with
  | known v => rfl
  | node agree => simp only [Value.known?, C.literal (linked within) agree]

/-- Two values are equal exactly when the values that agree with them are. -/
theorem Agrees.eq_iff (hx : C.Agrees ss tt x x') (hy : C.Agrees ss tt y y')
    (linked : C.Linked ss tt) (within : C.within ss) :
  x = y ↔ x' = y'
  := by
  cases hx within with
  | known u => cases hy within <;> simp
  | node agree =>
      cases hy within with
      | known v => simp
      | node agree' => simpa using C.unique (linked within) agree agree'

theorem AgreesAll.known? {xs ys : Operands Value ks} (h : C.AgreesAll ss tt xs ys)
    (linked : C.Linked ss tt) (within : C.within ss) :
  xs.known? ss = ys.known? tt
  := by
  induction xs with
  | nil =>
      cases ys
      rfl
  | cons x xs ih =>
      obtain _ | ⟨y, ys⟩ := ys
      rw [Operands.known?, Operands.known?, h.1.known? linked within, ih h.2]

theorem mapM_known? {xs ys : List (Value k)} (h : List.Forall₂ (C.Agrees ss tt) xs ys)
    (linked : C.Linked ss tt) (within : C.within ss) :
  xs.mapM (Value.known? ss) = ys.mapM (Value.known? tt)
  := by
  induction h with
  | nil => rfl
  | cons head _ ih => rw [List.mapM_cons, List.mapM_cons, head.known? linked within, ih]

end Known

/-! ### Computations side by side -/

/-- The computations end in related sessions with results that are related, as far as the first
session is followed. -/
structure Parallel (C : Correspondence) (R : Session → Session → α → β → Prop) (ss tt : Session)
    (x : Builder α) (y : Builder β) : Prop where
  grows : ss.Extends (x ss).2
  ends : C.within (x ss).2 → tt.Extends (y tt).2 ∧ C.related (x ss).2 (y tt).2
    ∧ R (x ss).2 (y tt).2 (x ss).1 (y tt).1

namespace Parallel

variable {R : Session → Session → α → β → Prop} {S : Session → Session → γ → δ → Prop}

theorem pure {a : α} {b : β} (linked : C.Linked ss tt) (h : C.within ss → R ss tt a b) :
  C.Parallel R ss tt (Pure.pure a) (Pure.pure b)
  := ⟨Session.Extends.refl ss, fun within => ⟨Session.Extends.refl tt, linked within, h within⟩⟩

/-- Values that agree are given as they are. -/
theorem value {a b : Value k} (linked : C.Linked ss tt) (h : C.Agrees ss tt a b) :
  C.Parallel C.Alike ss tt (Pure.pure a) (Pure.pure b)
  := pure linked h

theorem known {v : k.Carrier} (linked : C.Linked ss tt) :
  C.Parallel C.Alike ss tt (Pure.pure (.known v)) (Pure.pure (.known v))
  := value linked (Agrees.known v)

/-- Computations may depend on their sessions. -/
theorem get {f : Session → Builder α} {g : Session → Builder β}
    (h : C.Parallel R ss tt (f ss) (g tt)) :
  C.Parallel R ss tt (MonadState.get >>= f) (MonadState.get >>= g)
  := ⟨h.grows, h.ends⟩

/-- Within the bounds of the first session, the second computation may be replaced. -/
theorem of_within {x : Builder α} {y z : Builder β} (same : C.within ss → y = z)
    (h : C.Parallel R ss tt x z) :
  C.Parallel R ss tt x y
  := by
  refine ⟨h.grows, fun within => ?_⟩
  rw [same (C.within_of_extends h.grows within)]
  apply h.ends within

/-- Computations after which the results are used by others. -/
theorem bind {x : Builder α} {y : Builder β} {f : α → Builder γ} {g : β → Builder δ}
    (linked : C.Linked ss tt) (hx : C.Parallel R ss tt x y)
    (hf : ∀ {a b uu vv}, C.Later ss tt uu vv → C.Linked uu vv → (C.within uu → R uu vv a b) →
      C.Parallel S uu vv (f a) (g b)) :
  C.Parallel S ss tt (x >>= f) (y >>= g)
  := by
  have later : C.Later ss tt (x ss).2 (y tt).2 := by
    refine ⟨hx.grows, fun within => ⟨?_, (hx.ends within).1⟩⟩
    apply linked (C.within_of_extends hx.grows within)
  have rest : C.Parallel S (x ss).2 (y tt).2 (f (x ss).1) (g (y tt).1) :=
    hf later (fun within => (hx.ends within).2.1) (fun within => (hx.ends within).2.2)
  constructor
  · apply hx.grows.trans rest.grows
  · intro within
    obtain ⟨grows, ends⟩ := rest.ends within
    exact ⟨(hx.ends (C.within_of_extends rest.grows within)).1.trans grows, ends⟩

/-- Computations that branch on conditions that agree. -/
theorem ite {p q : Prop} [Decidable p] [Decidable q] {x x' : Builder α} {y y' : Builder β}
    (same : C.within ss → (p ↔ q)) (holds : C.Parallel R ss tt x y)
    (fails : C.Parallel R ss tt x' y') :
  C.Parallel R ss tt (if p then x else x') (if q then y else y')
  := by
  split
  case isTrue h =>
    apply of_within _ holds
    intro within
    rw [if_pos ((same within).mp h)]
  case isFalse h =>
    apply of_within _ fails
    intro within
    rw [if_neg (mt (same within).mpr h)]

/-- Computations that try to fold. -/
theorem fold {ε : Type} {operands operands' : Option ε} {host : ε → Option r.Carrier}
    {f : Option (Value r) → Builder α} {g : Option (Value r) → Builder β}
    (linked : C.Linked ss tt) (same : C.within ss → operands = operands')
    (folds : ∀ v, C.Linked ss.countFold tt.countFold →
      C.Parallel R ss.countFold tt.countFold (f (some (.known v))) (g (some (.known v))))
    (defers : C.Parallel R ss tt (f none) (g none)) :
  C.Parallel R ss tt (fold? operands host >>= f) (fold? operands' host >>= g)
  := by
  have counted := Session.extends_countFold ss
  have linked' : C.Linked ss.countFold tt.countFold := fun within =>
    C.fold (linked (C.within_of_extends counted within))
  by_cases folded : ss.configuration.fold = true ∧ ∃ v, operands.bind host = some v
  · obtain ⟨on, v, found⟩ := folded
    have rest := folds v linked'
    have first : (fold? operands host >>= f) ss = f (some (.known v)) ss.countFold := by
      rw [Builder.bind_apply, fold?_of_host on found]
    constructor
    · rw [first]
      apply counted.trans rest.grows
    · rw [first]
      intro within
      have start := C.within_of_extends (counted.trans rest.grows) within
      have second : (fold? operands' host >>= g) tt = g (some (.known v)) tt.countFold := by
        have on' : tt.configuration.fold = true := by rw [← C.folding (linked start), on]
        rw [Builder.bind_apply, ← same start, fold?_of_host on' found]
      rw [second]
      obtain ⟨grows, ends⟩ := rest.ends within
      exact ⟨(Session.extends_countFold tt).trans grows, ends⟩
  · have missing : ss.configuration.fold = true → operands.bind host = none := by
      intro on
      rw [Option.eq_none_iff_forall_ne_some]
      exact fun v found => folded ⟨on, v, found⟩
    have first : (fold? operands host >>= f) ss = f none ss := by
      rw [Builder.bind_apply, fold?_of_no_host missing]
    constructor
    · rw [first]
      apply defers.grows
    · rw [first]
      intro within
      have start := C.within_of_extends defers.grows within
      have second : (fold? operands' host >>= g) tt = g none tt := by
        rw [Builder.bind_apply, ← same start, fold?_of_no_host]
        rwa [← C.folding (linked start)]
      rw [second]
      apply defers.ends within

/-- Computations that a test of the session may spare. -/
theorem spare {known known' : Session → Bool} {a a' : Value k} {x x' : Builder (Value k)}
    (linked : C.Linked ss tt) (same : C.within ss → known ss = known' tt)
    (ha : C.Agrees ss tt a a') (hx : C.Parallel C.Alike ss tt x x') :
  C.Parallel C.Alike ss tt (do if known (← MonadState.get) then return a else x)
    (do if known' (← MonadState.get) then return a' else x')
  := by
  apply get
  apply ite _ (value linked ha) hx
  intro within
  rw [same within]

end Parallel

/-! ### Nodes -/

/-- Handles that are the same one by one. -/
abbrev SameAll (C : Correspondence) (ss tt : Session) : List Handle → List Handle → Prop :=
  List.Forall₂ (C.same ss tt)

theorem parallel_share {n m : Node} (linked : C.Linked ss tt)
    (alike : C.within ss → n.Alike (C.same ss tt) m) :
  C.Parallel C.same ss tt (Session.share n) (Session.share m)
  := by
  have grows := Session.extends_share n ss
  refine ⟨grows, fun within => ⟨Session.extends_share m tt, ?_⟩⟩
  have start := C.within_of_extends grows within
  apply C.share (linked start) (alike start) within

theorem parallel_handle {x y : Value k} (linked : C.Linked ss tt) (h : C.Agrees ss tt x y) :
  C.Parallel C.same ss tt x.handle y.handle
  := by
  cases x with
  | known v =>
      apply Parallel.of_within _ (parallel_share linked fun _ => Node.Alike.literal (.of k v))
      intro within
      cases h within
      rfl
  | node g =>
      refine ⟨Session.Extends.refl ss, fun within => ?_⟩
      cases h within with
      | node agree => exact ⟨Session.Extends.refl tt, linked within, agree⟩

theorem parallel_handles {xs ys : Operands Value ks} (linked : C.Linked ss tt)
    (h : C.AgreesAll ss tt xs ys) :
  C.Parallel C.SameAll ss tt xs.handles ys.handles
  := by
  induction xs generalizing ss tt with
  | nil =>
      cases ys
      apply Parallel.pure linked
      exact fun _ => List.Forall₂.nil
  | cons x xs ih =>
      obtain _ | ⟨y, ys⟩ := ys
      apply (parallel_handle linked h.1).bind linked
      intro g e uu vv later linked' head
      apply (ih linked' (h.2.mono later)).bind linked'
      intro gs es uu' vv' later' linked'' tail
      apply Parallel.pure linked''
      intro within
      obtain ⟨related, grows⟩ := later'.follows within
      apply List.Forall₂.cons _ (tail within)
      apply C.mono related later'.grows grows (head (C.within_of_extends later'.grows within))

theorem parallel_defer {xs ys : Operands Value ks} (op : Operator) (linked : C.Linked ss tt)
    (h : C.AgreesAll ss tt xs ys) :
  C.Parallel C.Alike ss tt (defer r op xs) (defer r op ys)
  := by
  apply (parallel_handles linked h).bind linked
  intro gs es _ _ _ linked operands
  apply (parallel_share linked fun within => .application op r (operands within)).bind linked
  intro g e _ _ _ linked same
  apply Parallel.value linked
  exact fun within => .node (same within)

theorem parallel_compute {xs ys : Operands Value ks} (op : Operator)
    (host : Operands Kind.Carrier ks → Option r.Carrier) (linked : C.Linked ss tt)
    (h : C.AgreesAll ss tt xs ys) :
  C.Parallel C.Alike ss tt (compute op xs host) (compute op ys host)
  := by
  apply Parallel.get
  apply Parallel.fold linked (h.known? linked)
  · intro v linked
    apply Parallel.known linked
  · apply parallel_defer op linked h

section Compute

variable {i j l : Kind} {a a' : Value i} {b b' : Value j} {c c' : Value l} {op : Operator}

theorem parallel_one {host : Operands Kind.Carrier [i] → Option r.Carrier}
    (linked : C.Linked ss tt) (ha : C.Agrees ss tt a a') :
  C.Parallel C.Alike ss tt (compute op (.one a) host) (compute op (.one a') host)
  := parallel_compute op host linked ⟨ha, trivial⟩

theorem parallel_two {host : Operands Kind.Carrier [i, j] → Option r.Carrier}
    (linked : C.Linked ss tt) (ha : C.Agrees ss tt a a') (hb : C.Agrees ss tt b b') :
  C.Parallel C.Alike ss tt (compute op (.two a b) host) (compute op (.two a' b') host)
  := parallel_compute op host linked ⟨ha, hb, trivial⟩

theorem parallel_three {host : Operands Kind.Carrier [i, j, l] → Option r.Carrier}
    (linked : C.Linked ss tt) (ha : C.Agrees ss tt a a') (hb : C.Agrees ss tt b b')
    (hc : C.Agrees ss tt c c') :
  C.Parallel C.Alike ss tt (compute op (.three a b c) host) (compute op (.three a' b' c') host)
  := parallel_compute op host linked ⟨ha, hb, hc, trivial⟩

end Compute

/-! ### Boolean operations -/

section Logic

open Logic

variable {a a' b b' c c' : Value .bool} {x x' y y' : Value k}

/-- Values are one node exactly when the values that agree with them are. -/
theorem Agrees.sameNode (hx : C.Agrees ss tt x x') (hy : C.Agrees ss tt y y')
    (linked : C.Linked ss tt) (within : C.within ss) :
  Logic.sameNode x y = Logic.sameNode x' y'
  := by
  cases hx within with
  | known u => rfl
  | node agree =>
      cases hy within with
      | known v => rfl
      | node agree' =>
          simp only [Logic.sameNode]
          rw [decide_eq_decide]
          apply C.unique (linked within) agree agree'

theorem parallel_equal (linked : C.Linked ss tt) (hx : C.Agrees ss tt x x')
    (hy : C.Agrees ss tt y y') :
  C.Parallel C.Alike ss tt (equal x y) (equal x' y')
  := by
  apply Parallel.ite _ (Parallel.known linked) (parallel_two linked hx hy)
  intro within
  rw [hx.sameNode hy linked within]

theorem parallel_distinct (linked : C.Linked ss tt) (hx : C.Agrees ss tt x x')
    (hy : C.Agrees ss tt y y') :
  C.Parallel C.Alike ss tt (distinct x y) (distinct x' y')
  := by
  apply (parallel_equal linked hx hy).bind linked
  intro e e' _ _ _ linked he
  apply parallel_one linked he

theorem parallel_conjoin (linked : C.Linked ss tt) (ha : C.Agrees ss tt a a')
    (hb : C.Agrees ss tt b b') :
  C.Parallel C.Alike ss tt (conjoin a b) (conjoin a' b')
  := by
  apply Parallel.get
  apply Parallel.of_within
  · intro within
    rw [← ha.known? linked within, ← hb.known? linked within]
  · split
    case h_1 => apply Parallel.known linked
    case h_2 => apply Parallel.known linked
    case h_3 => apply Parallel.value linked hb
    case h_4 => apply Parallel.value linked ha
    case h_5 => apply parallel_two linked ha hb

theorem parallel_disjoin (linked : C.Linked ss tt) (ha : C.Agrees ss tt a a')
    (hb : C.Agrees ss tt b b') :
  C.Parallel C.Alike ss tt (disjoin a b) (disjoin a' b')
  := by
  apply Parallel.get
  apply Parallel.of_within
  · intro within
    rw [← ha.known? linked within, ← hb.known? linked within]
  · split
    case h_1 => apply Parallel.known linked
    case h_2 => apply Parallel.known linked
    case h_3 => apply Parallel.value linked hb
    case h_4 => apply Parallel.value linked ha
    case h_5 => apply parallel_two linked ha hb

theorem parallel_choose (linked : C.Linked ss tt) (hc : C.Agrees ss tt c c')
    (hx : C.Agrees ss tt x x') (hy : C.Agrees ss tt y y') :
  C.Parallel C.Alike ss tt (choose c x y) (choose c' x' y')
  := by
  apply Parallel.get
  apply Parallel.of_within
  · intro within
    rw [← hc.known? linked within]
  · split
    case h_1 => apply Parallel.value linked hx
    case h_2 => apply Parallel.value linked hy
    case h_3 =>
      have operands : C.AgreesAll ss tt (.three c x y) (.three c' x' y') :=
        ⟨hc, hx, hy, trivial⟩
      apply Parallel.ite (hx.eq_iff hy linked) (Parallel.value linked hx)
      apply parallel_defer .ite linked operands

end Logic

/-! ### String operations -/

section Strings

open Strings

variable {s s' t t' u u' : Value .string} {i i' l l' n n' o o' : Value .int} {c c' : Value .char}
  {p p' : Value .bool}

theorem Agrees.knownEmpty (hs : C.Agrees ss tt s s') (linked : C.Linked ss tt)
    (within : C.within ss) :
  Strings.knownEmpty ss s = Strings.knownEmpty tt s'
  := by
  rw [Strings.knownEmpty, hs.known? linked within, Strings.knownEmpty]

theorem Agrees.knownShorter (hs : C.Agrees ss tt s s') (ht : C.Agrees ss tt t t')
    (linked : C.Linked ss tt) (within : C.within ss) :
  Strings.knownShorter ss s t = Strings.knownShorter tt s' t'
  := by
  rw [Strings.knownShorter, hs.known? linked within, ht.known? linked within, Strings.knownShorter]

theorem Agrees.knownOutside (hs : C.Agrees ss tt s s') (hi : C.Agrees ss tt i i')
    (linked : C.Linked ss tt) (within : C.within ss) :
  Strings.knownOutside ss s i = Strings.knownOutside tt s' i'
  := by
  rw [Strings.knownOutside, hs.known? linked within, hi.known? linked within, Strings.knownOutside]

theorem parallel_isEmpty (linked : C.Linked ss tt) (hs : C.Agrees ss tt s s') :
  C.Parallel C.Alike ss tt (isEmpty s) (isEmpty s')
  := by
  apply Parallel.get
  apply Parallel.of_within
  · intro within
    rw [← hs.known? linked within]
  · split
    case h_1 => apply Parallel.known linked
    case h_2 => apply parallel_equal linked hs (Agrees.known _)

theorem parallel_append (linked : C.Linked ss tt) (hs : C.Agrees ss tt s s')
    (ht : C.Agrees ss tt t t') :
  C.Parallel C.Alike ss tt (append s t) (append s' t')
  := by
  apply Parallel.get
  apply Parallel.ite _ (Parallel.value linked ht)
  · apply Parallel.ite _ (Parallel.value linked hs) (parallel_two linked hs ht)
    intro within
    rw [ht.knownEmpty linked within]
  · intro within
    rw [hs.knownEmpty linked within]

/-- Joining strings to one that is there already. -/
theorem parallel_foldlM_append {parts parts' : List (Value .string)} (linked : C.Linked ss tt)
    (hs : C.Agrees ss tt s s') (agree : List.Forall₂ (C.Agrees ss tt) parts parts') :
  C.Parallel C.Alike ss tt (parts.foldlM append s) (parts'.foldlM append s')
  := by
  induction parts generalizing ss tt s s' parts' with
  | nil =>
      cases agree
      apply Parallel.value linked hs
  | cons x parts ih =>
      cases agree with
      | cons head tail =>
          rw [List.foldlM_cons, List.foldlM_cons]
          apply (parallel_append linked hs head).bind linked
          intro t t' _ _ later linked ht
          apply ih linked ht (forall₂_mono tail later)

/-- Putting characters in front of the empty string, the last one first. -/
theorem parallel_foldrM_singleton {cs ds : List (Value .char)} (linked : C.Linked ss tt)
    (agree : List.Forall₂ (C.Agrees ss tt) cs ds) :
  C.Parallel C.Alike ss tt
    (cs.foldrM (fun c rest => do append (← singleton c) rest) Strings.empty)
    (ds.foldrM (fun c rest => do append (← singleton c) rest) Strings.empty)
  := by
  induction agree with
  | nil => apply Parallel.known linked
  | cons head _ ih =>
      rw [List.foldrM_cons, List.foldrM_cons]
      apply ih.bind linked
      intro rest rest' _ _ later linked hrest
      apply (parallel_one linked (head.mono later)).bind linked
      intro unit unit' _ _ later linked hunit
      apply parallel_append linked hunit (Agrees.mono hrest later)

theorem parallel_ofChars {cs ds : List (Value .char)} (linked : C.Linked ss tt)
    (agree : List.Forall₂ (C.Agrees ss tt) cs ds) :
  C.Parallel C.Alike ss tt (ofChars cs) (ofChars ds)
  := by
  apply Parallel.get
  apply Parallel.fold linked (mapM_known? agree linked)
  · intro v linked
    apply Parallel.known linked
  · apply parallel_foldrM_singleton linked agree

theorem parallel_isDigit (linked : C.Linked ss tt) (hc : C.Agrees ss tt c c') :
  C.Parallel C.Alike ss tt (isDigit c) (isDigit c')
  := by
  apply (parallel_one linked hc).bind linked
  intro n n' _ _ _ linked hn
  apply (parallel_two linked hn (Agrees.known _)).bind linked
  intro low low' _ _ later linked hlow
  apply (parallel_two linked (Agrees.mono hn later) (Agrees.known _)).bind linked
  intro high high' _ _ later linked hhigh
  apply parallel_conjoin linked (Agrees.mono hlow later) hhigh

theorem parallel_replaceFirst (linked : C.Linked ss tt) (hs : C.Agrees ss tt s s')
    (ht : C.Agrees ss tt t t') (hu : C.Agrees ss tt u u') :
  C.Parallel C.Alike ss tt (replaceFirst s t u) (replaceFirst s' t' u')
  := by
  apply Parallel.get
  apply Parallel.ite _ (parallel_append linked hu hs)
  · apply Parallel.ite _ (Parallel.value linked hs) (parallel_three linked hs ht hu)
    intro within
    rw [hs.knownShorter ht linked within]
  · intro within
    rw [ht.knownEmpty linked within]

theorem parallel_indexOfFrom (linked : C.Linked ss tt) (hs : C.Agrees ss tt s s')
    (ht : C.Agrees ss tt t t') (hi : C.Agrees ss tt i i') :
  C.Parallel C.Alike ss tt (indexOfFrom s t i) (indexOfFrom s' t' i')
  := Parallel.spare linked (hs.knownOutside hi linked) (Agrees.known _)
      (parallel_three linked hs ht hi)

theorem parallel_indexOf (linked : C.Linked ss tt) (hs : C.Agrees ss tt s s')
    (ht : C.Agrees ss tt t t') :
  C.Parallel C.Alike ss tt (indexOf s t) (indexOf s' t')
  := by
  have operands : C.AgreesAll ss tt (.two s t) (.two s' t') := ⟨hs, ht, trivial⟩
  apply Parallel.get
  apply Parallel.fold linked (operands.known? linked)
  · intro v linked
    apply Parallel.known linked
  · apply parallel_indexOfFrom linked hs ht (Agrees.known _)

theorem parallel_slice (linked : C.Linked ss tt) (hs : C.Agrees ss tt s s')
    (ho : C.Agrees ss tt o o') (hl : C.Agrees ss tt l l') :
  C.Parallel C.Alike ss tt (slice s o l) (slice s' o' l')
  := parallel_three linked hs ho hl

theorem parallel_rest (linked : C.Linked ss tt) (hs : C.Agrees ss tt s s') :
  C.Parallel C.Alike ss tt (rest s) (rest s')
  := by
  apply Parallel.get
  apply Parallel.of_within
  · intro within
    rw [← hs.known? linked within]
  · split
    case h_1 => apply Parallel.known linked
    case h_2 =>
      apply (parallel_one linked hs).bind linked
      intro n n' _ _ later linked hn
      apply (parallel_two linked hn (Agrees.known _)).bind linked
      intro count count' _ _ later' linked hcount
      apply parallel_slice linked ((hs.mono later).mono later') (Agrees.known _) hcount

theorem parallel_front (linked : C.Linked ss tt) (hi : C.Agrees ss tt i i')
    (hs : C.Agrees ss tt s s') (hp : C.Agrees ss tt p p') :
  C.Parallel C.Alike ss tt (front i s p) (front i' s' p')
  := by
  apply Parallel.ite (hp.eq_iff (Agrees.known true) linked) (Parallel.value linked hs)
  apply (parallel_slice linked hs (Agrees.known _) hi).bind linked
  intro part part' _ _ later linked hpart
  apply parallel_choose linked (hp.mono later) (hs.mono later) hpart

theorem parallel_take (linked : C.Linked ss tt) (hi : C.Agrees ss tt i i')
    (hs : C.Agrees ss tt s s') :
  C.Parallel C.Alike ss tt (take i s) (take i' s')
  := by
  have operands : C.AgreesAll ss tt (.two i s) (.two i' s') := ⟨hi, hs, trivial⟩
  apply Parallel.get
  apply Parallel.fold linked (operands.known? linked)
  · intro v linked
    apply Parallel.known linked
  · apply (parallel_two linked hi (Agrees.known _)).bind linked
    intro nonPositive nonPositive' _ _ later linked hnon
    have hi := hi.mono later
    have hs := hs.mono later
    apply Parallel.ite (Agrees.eq_iff hnon (Agrees.known true) linked) (Parallel.known linked)
    apply (parallel_one linked hs).bind linked
    intro n n' _ _ later linked hn
    have hnon := Agrees.mono hnon later
    have hi := hi.mono later
    have hs := hs.mono later
    apply (parallel_two linked hi hn).bind linked
    intro pastEnd pastEnd' _ _ later linked hpast
    apply (parallel_front linked (hi.mono later) (hs.mono later) hpast).bind linked
    intro part part' _ _ later' linked hpart
    apply parallel_choose linked ((hnon.mono later).mono later') (Agrees.known _) hpart

theorem parallel_back (linked : C.Linked ss tt) (hi : C.Agrees ss tt i i')
    (hs : C.Agrees ss tt s s') (hn : C.Agrees ss tt n n') (hp : C.Agrees ss tt p p') :
  C.Parallel C.Alike ss tt (back i s n p) (back i' s' n' p')
  := by
  apply Parallel.ite (hp.eq_iff (Agrees.known true) linked) (Parallel.value linked hs)
  apply (parallel_two linked hn hi).bind linked
  intro count count' _ _ later linked hcount
  have hs := hs.mono later
  apply (parallel_slice linked hs (hi.mono later) hcount).bind linked
  intro part part' _ _ later' linked hpart
  apply parallel_choose linked ((hp.mono later).mono later') (hs.mono later') hpart

theorem parallel_drop (linked : C.Linked ss tt) (hi : C.Agrees ss tt i i')
    (hs : C.Agrees ss tt s s') :
  C.Parallel C.Alike ss tt (drop i s) (drop i' s')
  := by
  have operands : C.AgreesAll ss tt (.two i s) (.two i' s') := ⟨hi, hs, trivial⟩
  apply Parallel.get
  apply Parallel.fold linked (operands.known? linked)
  · intro v linked
    apply Parallel.known linked
  · apply (parallel_one linked hs).bind linked
    intro n n' _ _ later linked hn
    have hi := hi.mono later
    have hs := hs.mono later
    apply (parallel_two linked hi hn).bind linked
    intro pastEnd pastEnd' _ _ later linked hpast
    have hi := hi.mono later
    have hs := hs.mono later
    have hn := Agrees.mono hn later
    apply Parallel.ite (Agrees.eq_iff hpast (Agrees.known true) linked) (Parallel.known linked)
    apply (parallel_two linked hi (Agrees.known _)).bind linked
    intro nonPositive nonPositive' _ _ later linked hnon
    have hpast := Agrees.mono hpast later
    apply (parallel_back linked (hi.mono later) (hs.mono later) (hn.mono later) hnon).bind linked
    intro part part' _ _ later linked hpart
    apply parallel_choose linked (hpast.mono later) (Agrees.known _) hpart

end Strings

/-! ### Operations -/

/-- An operation that extracts no character respects every correspondence. -/
theorem parallel_build (linked : C.Linked ss tt) :
    (o : Operation ks r) → (xs ys : Operands Value ks) → (agree : C.AgreesAll ss tt xs ys) →
    o.extracts = false → C.Parallel C.Alike ss tt (o.build xs) (o.build ys)
  | .equal _, .two _ _, .two _ _, h, _ => parallel_equal linked h.1 h.2.1
  | .distinct _, .two _ _, .two _ _, h, _ => parallel_distinct linked h.1 h.2.1
  | .choose _, .three _ _ _, .three _ _ _, h, _ => parallel_choose linked h.1 h.2.1 h.2.2.1
  | .negate, .one _, .one _, h, _ => parallel_one linked h.1
  | .conjoin, .two _ _, .two _ _, h, _ => parallel_conjoin linked h.1 h.2.1
  | .disjoin, .two _ _, .two _ _, h, _ => parallel_disjoin linked h.1 h.2.1
  | .add, .two _ _, .two _ _, h, _ => parallel_two linked h.1 h.2.1
  | .subtract, .two _ _, .two _ _, h, _ => parallel_two linked h.1 h.2.1
  | .atMost, .two _ _, .two _ _, h, _ => parallel_two linked h.1 h.2.1
  | .lessThan, .two _ _, .two _ _, h, _ => parallel_two linked h.1 h.2.1
  | .atLeast, .two _ _, .two _ _, h, _ => parallel_two linked h.1 h.2.1
  | .greaterThan, .two _ _, .two _ _, h, _ => parallel_two linked h.1 h.2.1
  | .empty, .nil, .nil, _, _ => Parallel.known linked
  | .length, .one _, .one _, h, _ => parallel_one linked h.1
  | .isEmpty, .one _, .one _, h, _ => parallel_isEmpty linked h.1
  | .rest, .one _, .one _, h, _ => parallel_rest linked h.1
  | .singleton, .one _, .one _, h, _ => parallel_one linked h.1
  | .sliceAt, .two _ _, .two _ _, h, _ => parallel_slice linked h.1 h.2.1 (Agrees.known _)
  | .ofChars _, _, _, h, _ => parallel_ofChars linked h.toList
  | .append, .two _ _, .two _ _, h, _ => parallel_append linked h.1 h.2.1
  | .join _, _, _, h, _ => parallel_foldlM_append linked (Agrees.known _) h.toList
  | .contains, .two _ _, .two _ _, h, _ =>
    Parallel.spare linked (h.1.knownEmpty linked) (Agrees.known _) (parallel_two linked h.2.1 h.1)
  | .startsWith, .two _ _, .two _ _, h, _ =>
    Parallel.spare linked (h.1.knownEmpty linked) (Agrees.known _) (parallel_two linked h.1 h.2.1)
  | .endsWith, .two _ _, .two _ _, h, _ =>
    Parallel.spare linked (h.1.knownEmpty linked) (Agrees.known _) (parallel_two linked h.1 h.2.1)
  | .take, .two _ _, .two _ _, h, _ => parallel_take linked h.1 h.2.1
  | .drop, .two _ _, .two _ _, h, _ => parallel_drop linked h.1 h.2.1
  | .slice, .three _ _ _, .three _ _ _, h, _ => parallel_slice linked h.1 h.2.1 h.2.2.1
  | .replaceFirst, .three _ _ _, .three _ _ _, h, _ =>
    parallel_replaceFirst linked h.1 h.2.1 h.2.2.1
  | .replaceAll, .three _ _ _, .three _ _ _, h, _ =>
    Parallel.spare linked (h.2.1.knownEmpty linked) h.1 (parallel_three linked h.1 h.2.1 h.2.2.1)
  | .indexOf, .two _ _, .two _ _, h, _ => parallel_indexOf linked h.1 h.2.1
  | .indexOfFrom, .three _ _ _, .three _ _ _, h, _ =>
    parallel_indexOfFrom linked h.1 h.2.1 h.2.2.1
  | .toInt, .one _, .one _, h, _ => parallel_one linked h.1
  | .ofInt, .one _, .one _, h, _ => parallel_one linked h.1
  | .code, .one _, .one _, h, _ => parallel_one linked h.1
  | .isDigit, .one _, .one _, h, _ => parallel_isDigit linked h.1

end Correspondence

end StringTerms
