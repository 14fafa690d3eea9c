import StringTerms.Operation
import StringTerms.Proofs.Growth
import StringTerms.Strings.Character

/-!
# Disciplines

A discipline singles out sessions, which are called sound, and in each of them the handles that may
be used as values of a kind.  Counting a fold keeps a session sound, and so does a request for a
literal or for an application to usable operands, whose answer may be used at the kind of the node.
Every operation that extracts no character follows every discipline: performed on usable operands
in a sound session, it extends the session to a sound one and gives a usable value.  To have grown
out of a given session is a discipline in which every handle may be used, so operations grow every
session, whatever their operands are.
-/

namespace StringTerms

variable {ss tt : Session} {k r : Kind} {ks : List Kind}

/-- A property of sessions, and one of their handles, that folds and requests for nodes keep. -/
structure Discipline where
  sound : Session → Prop
  usable : Session → Kind → Handle → Prop
  /-- An extension keeps what may be used. -/
  mono : ∀ {ss tt k h}, ss.Extends tt → usable ss k h → usable tt k h
  fold : ∀ {ss}, sound ss → sound ss.countFold
  share : ∀ {ss n}, sound ss → n.var? = none → (∀ g ∈ n.operands, ∃ k, usable ss k g) →
    sound (Session.share n ss).2 ∧ usable (Session.share n ss).2 n.kind (Session.share n ss).1

namespace Discipline

variable {D : Discipline}

/-- The value is known, or a usable node. -/
def Admits (D : Discipline) (ss : Session) : Value k → Prop
  | .known _ => True
  | .node h => D.usable ss k h

/-- All operands are known, or usable nodes. -/
def AdmitsAll (D : Discipline) (ss : Session) : {ks : List Kind} → Operands Value ks → Prop
  | _, .nil => True
  | _, .cons x xs => D.Admits ss x ∧ D.AdmitsAll ss xs

theorem Admits.mono {x : Value k} (hx : D.Admits ss x) (grows : ss.Extends tt) :
  D.Admits tt x
  := by
  cases x with
  | known => trivial
  | node h => apply D.mono grows hx

theorem AdmitsAll.mono {xs : Operands Value ks} (hx : D.AdmitsAll ss xs) (grows : ss.Extends tt) :
  D.AdmitsAll tt xs
  := by
  induction xs with
  | nil => trivial
  | cons x xs ih => exact ⟨hx.1.mono grows, ih hx.2⟩

/-- Where every handle may be used, so may every value. -/
theorem admits_of_usable (usable : ∀ {ss k h}, D.usable ss k h) (x : Value k) :
  D.Admits ss x
  := by
  cases x with
  | known v => trivial
  | node h => apply usable

theorem admitsAll_of_usable (usable : ∀ {ss k h}, D.usable ss k h) (xs : Operands Value ks) :
  D.AdmitsAll ss xs
  := by
  induction xs with
  | nil => trivial
  | cons x xs ih => exact ⟨admits_of_usable usable x, ih⟩

/-- Operands of one kind are admitted as a list. -/
theorem AdmitsAll.toList {n : Nat} {xs : Operands Value (List.replicate n k)}
    (hx : D.AdmitsAll ss xs) :
  ∀ x ∈ xs.toList, D.Admits ss x
  := by
  induction n with
  | zero =>
      cases xs
      exact fun x mem => by cases mem
  | succ n ih =>
      cases xs with
      | cons y ys =>
          intro x mem
          obtain rfl | mem := List.mem_cons.mp mem
          · apply hx.1
          · apply ih hx.2 x mem

/-- The computation extends the session to a sound one, of which its value is admitted. -/
structure Follows (D : Discipline) (ss : Session) (x : Builder (Value k)) : Prop where
  grows : ss.Extends (x ss).2
  sound : D.sound (x ss).2
  admits : D.Admits (x ss).2 (x ss).1

namespace Follows

variable {x : Builder (Value k)}

/-- A value of the session is given as it is. -/
theorem value {a : Value k} (sound : D.sound ss) (ha : D.Admits ss a) :
  D.Follows ss (pure a)
  := ⟨Session.Extends.refl ss, sound, ha⟩

theorem known {v : k.Carrier} (sound : D.sound ss) :
  D.Follows ss (pure (.known v))
  := value sound trivial

/-- A computation may depend on the session. -/
theorem get {f : Session → Builder (Value k)} (h : D.Follows ss (f ss)) :
  D.Follows ss (get >>= f)
  := ⟨h.grows, h.sound, h.admits⟩

/-- A computation after which the value is used by another. -/
theorem bind {f : Value k → Builder (Value r)} (hx : D.Follows ss x)
    (hf : ∀ {a tt}, ss.Extends tt → D.sound tt → D.Admits tt a → D.Follows tt (f a)) :
  D.Follows ss (x >>= f)
  := by
  have h := hf hx.grows hx.sound hx.admits
  exact ⟨hx.grows.trans h.grows, h.sound, h.admits⟩

/-- A computation that does in `ss` what another does in an extension of `ss`. -/
theorem of_run {y : Builder (Value k)} (h : D.Follows tt y) (grows : ss.Extends tt)
    (run : x ss = y tt) :
  D.Follows ss x
  := by
  constructor
  · rw [run]
    apply grows.trans h.grows
  · rw [run]
    apply h.sound
  · rw [run]
    apply h.admits

/-- A computation that tries to fold. -/
theorem fold {α : Type} {operands : Option α} {host : α → Option r.Carrier}
    {f : Option (Value r) → Builder (Value k)}
    (folds : ∀ v, D.Follows ss.countFold (f (some (.known v)))) (defers : D.Follows ss (f none)) :
  D.Follows ss (fold? operands host >>= f)
  := by
  obtain ⟨a, v, -, -, folded⟩ | skipped := fold?_cases operands host ss
  · have run : (fold? operands host >>= f) ss = f (some (.known v)) ss.countFold := by
      rw [Builder.bind_apply, folded]
    apply (folds v).of_run (Session.extends_countFold ss) run
  · have run : (fold? operands host >>= f) ss = f none ss := by
      rw [Builder.bind_apply, skipped]
    apply defers.of_run (Session.Extends.refl ss) run

/-- A computation that a test of the session may spare. -/
theorem spare {known : Session → Bool} {a : Value k} (sound : D.sound ss) (ha : D.Admits ss a)
    (hx : D.Follows ss x) :
  D.Follows ss (do if known (← MonadState.get) then return a else x)
  := by
  apply get
  split
  case isTrue => apply value sound ha
  case isFalse => apply hx

end Follows

/-! ### Nodes -/

/-- A value becomes a usable node. -/
theorem handle {x : Value k} (sound : D.sound ss) (hx : D.Admits ss x) :
  D.sound (x.handle ss).2 ∧ D.usable (x.handle ss).2 k (x.handle ss).1
  := by
  cases x with
  | node h => exact ⟨sound, hx⟩
  | known v =>
      have shared := D.share (n := .literal (.of k v)) sound rfl (fun g mem => by cases mem)
      rwa [Node.kind, Literal.kind_of] at shared

/-- Operands become usable nodes. -/
theorem handles {xs : Operands Value ks} (sound : D.sound ss) (hx : D.AdmitsAll ss xs) :
  D.sound (xs.handles ss).2 ∧ ∀ g ∈ (xs.handles ss).1, ∃ k, D.usable (xs.handles ss).2 k g
  := by
  induction xs generalizing ss with
  | nil => exact ⟨sound, fun g mem => by cases mem⟩
  | @cons k _ x xs ih =>
      obtain ⟨sound, head⟩ := handle sound hx.1
      obtain ⟨sound, tail⟩ := ih sound (hx.2.mono ((grows_handle x).grown ss).toExtends)
      use sound
      intro g mem
      obtain rfl | mem := List.mem_cons.mp mem
      · use k
        apply D.mono ((grows_handles xs).grown _).toExtends head
      · apply tail g mem

theorem follows_defer {xs : Operands Value ks} (op : Operator) (sound : D.sound ss)
    (hx : D.AdmitsAll ss xs) :
  D.Follows ss (defer r op xs)
  := by
  obtain ⟨sound, operands⟩ := handles sound hx
  have shared := D.share (n := .application op (xs.handles ss).1 r) sound rfl operands
  exact ⟨((grows_defer r op xs).grown ss).toExtends, shared.1, shared.2⟩

theorem follows_compute {xs : Operands Value ks} (op : Operator)
    (host : Operands Kind.Carrier ks → Option r.Carrier) (sound : D.sound ss)
    (hx : D.AdmitsAll ss xs) :
  D.Follows ss (compute op xs host)
  := by
  apply Follows.get
  apply Follows.fold
  · intro v
    apply Follows.known (D.fold sound)
  · apply follows_defer op sound hx

section Compute

variable {i j l : Kind} {a : Value i} {b : Value j} {c : Value l} {op : Operator}

theorem follows_one {host : Operands Kind.Carrier [i] → Option r.Carrier} (sound : D.sound ss)
    (ha : D.Admits ss a) :
  D.Follows ss (compute op (.one a) host)
  := follows_compute op host sound ⟨ha, trivial⟩

theorem follows_two {host : Operands Kind.Carrier [i, j] → Option r.Carrier} (sound : D.sound ss)
    (ha : D.Admits ss a) (hb : D.Admits ss b) :
  D.Follows ss (compute op (.two a b) host)
  := follows_compute op host sound ⟨ha, hb, trivial⟩

theorem follows_three {host : Operands Kind.Carrier [i, j, l] → Option r.Carrier}
    (sound : D.sound ss) (ha : D.Admits ss a) (hb : D.Admits ss b) (hc : D.Admits ss c) :
  D.Follows ss (compute op (.three a b c) host)
  := follows_compute op host sound ⟨ha, hb, hc, trivial⟩

end Compute

/-! ### Boolean operations -/

section Logic

open Logic

variable {a b c : Value .bool} {x y : Value k}

theorem follows_equal (sound : D.sound ss) (hx : D.Admits ss x) (hy : D.Admits ss y) :
  D.Follows ss (equal x y)
  := by
  unfold equal
  split
  case isTrue => apply Follows.known sound
  case isFalse => apply follows_two sound hx hy

theorem follows_distinct (sound : D.sound ss) (hx : D.Admits ss x) (hy : D.Admits ss y) :
  D.Follows ss (distinct x y)
  := by
  apply (follows_equal sound hx hy).bind
  intro e _ _ sound he
  apply follows_one sound he

theorem follows_conjoin (sound : D.sound ss) (ha : D.Admits ss a) (hb : D.Admits ss b) :
  D.Follows ss (conjoin a b)
  := by
  apply Follows.get
  split
  case h_1 => apply Follows.known sound
  case h_2 => apply Follows.known sound
  case h_3 => apply Follows.value sound hb
  case h_4 => apply Follows.value sound ha
  case h_5 => apply follows_two sound ha hb

theorem follows_disjoin (sound : D.sound ss) (ha : D.Admits ss a) (hb : D.Admits ss b) :
  D.Follows ss (disjoin a b)
  := by
  apply Follows.get
  split
  case h_1 => apply Follows.known sound
  case h_2 => apply Follows.known sound
  case h_3 => apply Follows.value sound hb
  case h_4 => apply Follows.value sound ha
  case h_5 => apply follows_two sound ha hb

theorem follows_choose (sound : D.sound ss) (hc : D.Admits ss c) (hx : D.Admits ss x)
    (hy : D.Admits ss y) :
  D.Follows ss (choose c x y)
  := by
  apply Follows.get
  split
  case h_1 => apply Follows.value sound hx
  case h_2 => apply Follows.value sound hy
  case h_3 =>
    split
    case isTrue => apply Follows.value sound hx
    case isFalse =>
      have held : D.AdmitsAll ss (.three c x y) := ⟨hc, hx, hy, trivial⟩
      apply follows_defer .ite sound held

end Logic

/-! ### String operations -/

section Strings

open Strings

variable {s t u : Value .string} {i o l : Value .int} {c : Value .char} {p : Value .bool}

theorem follows_isEmpty (sound : D.sound ss) (hs : D.Admits ss s) :
  D.Follows ss (isEmpty s)
  := by
  apply Follows.get
  split
  case h_1 => apply Follows.known sound
  case h_2 =>
    have empty : D.Admits ss Strings.empty := trivial
    apply follows_equal sound hs empty

theorem follows_append (sound : D.sound ss) (hs : D.Admits ss s) (ht : D.Admits ss t) :
  D.Follows ss (append s t)
  := by
  apply Follows.get
  split
  case isTrue => apply Follows.value sound ht
  case isFalse =>
    split
    case isTrue => apply Follows.value sound hs
    case isFalse => apply follows_two sound hs ht

/-- Joining strings to one that is there already. -/
theorem follows_foldlM_append {parts : List (Value .string)} (sound : D.sound ss)
    (hs : D.Admits ss s) (held : ∀ x ∈ parts, D.Admits ss x) :
  D.Follows ss (parts.foldlM append s)
  := by
  induction parts generalizing ss s with
  | nil => apply Follows.value sound hs
  | cons x parts ih =>
      rw [List.foldlM_cons]
      apply (follows_append sound hs (held x List.mem_cons_self)).bind
      intro t _ grows sound ht
      apply ih sound ht
      intro y mem
      apply (held y (List.mem_cons_of_mem _ mem)).mono grows

/-- Putting characters in front of the empty string, the last one first. -/
theorem follows_foldrM_singleton {cs : List (Value .char)} (sound : D.sound ss)
    (held : ∀ c ∈ cs, D.Admits ss c) :
  D.Follows ss (cs.foldrM (fun c rest => do append (← singleton c) rest) Strings.empty)
  := by
  induction cs with
  | nil => apply Follows.known sound
  | cons c cs ih =>
      rw [List.foldrM_cons]
      apply (ih fun d mem => held d (List.mem_cons_of_mem _ mem)).bind
      intro rest _ grows sound hrest
      apply (follows_one sound ((held c List.mem_cons_self).mono grows)).bind
      intro unit _ grows sound hunit
      apply follows_append sound hunit (hrest.mono grows)

theorem follows_ofChars {cs : List (Value .char)} (sound : D.sound ss)
    (held : ∀ c ∈ cs, D.Admits ss c) :
  D.Follows ss (ofChars cs)
  := by
  apply Follows.get
  apply Follows.fold
  · intro v
    apply Follows.known (D.fold sound)
  · apply follows_foldrM_singleton sound held

theorem follows_isDigit (sound : D.sound ss) (hc : D.Admits ss c) :
  D.Follows ss (isDigit c)
  := by
  apply (follows_one sound hc).bind
  intro n _ _ sound hn
  have bound : ∀ {tt : Session} {m : Int}, D.Admits tt (.int m) := trivial
  apply (follows_two sound hn bound).bind
  intro low _ grows sound hlow
  apply (follows_two sound (hn.mono grows) bound).bind
  intro high _ grows sound hhigh
  apply follows_conjoin sound (hlow.mono grows) hhigh

theorem follows_replaceFirst (sound : D.sound ss) (hs : D.Admits ss s) (ht : D.Admits ss t)
    (hu : D.Admits ss u) :
  D.Follows ss (replaceFirst s t u)
  := by
  apply Follows.get
  split
  case isTrue => apply follows_append sound hu hs
  case isFalse =>
    split
    case isTrue => apply Follows.value sound hs
    case isFalse => apply follows_three sound hs ht hu

theorem follows_indexOfFrom (sound : D.sound ss) (hs : D.Admits ss s) (ht : D.Admits ss t)
    (hi : D.Admits ss i) :
  D.Follows ss (indexOfFrom s t i)
  := Follows.spare sound trivial (follows_three sound hs ht hi)

theorem follows_indexOf (sound : D.sound ss) (hs : D.Admits ss s) (ht : D.Admits ss t) :
  D.Follows ss (indexOf s t)
  := by
  apply Follows.get
  apply Follows.fold
  · intro v
    apply Follows.known (D.fold sound)
  · have zero : D.Admits ss (.int 0) := trivial
    apply follows_indexOfFrom sound hs ht zero

theorem follows_slice (sound : D.sound ss) (hs : D.Admits ss s) (ho : D.Admits ss o)
    (hl : D.Admits ss l) :
  D.Follows ss (slice s o l)
  := follows_three sound hs ho hl

theorem follows_rest (sound : D.sound ss) (hs : D.Admits ss s) :
  D.Follows ss (rest s)
  := by
  have one : ∀ {tt : Session}, D.Admits tt (.int 1) := trivial
  apply Follows.get
  split
  case h_1 => apply Follows.known sound
  case h_2 =>
    apply (follows_one sound hs).bind
    intro n _ grows sound hn
    apply (follows_two sound hn one).bind
    intro count _ grows' sound hcount
    apply follows_slice sound ((hs.mono grows).mono grows') one hcount

theorem follows_front (sound : D.sound ss) (hi : D.Admits ss i) (hs : D.Admits ss s)
    (hp : D.Admits ss p) :
  D.Follows ss (front i s p)
  := by
  unfold front
  split
  case isTrue => apply Follows.value sound hs
  case isFalse =>
    have zero : D.Admits ss (.int 0) := trivial
    apply (follows_slice sound hs zero hi).bind
    intro part _ grows sound hpart
    apply follows_choose sound (hp.mono grows) (hs.mono grows) hpart

theorem follows_take (sound : D.sound ss) (hi : D.Admits ss i) (hs : D.Admits ss s) :
  D.Follows ss (take i s)
  := by
  apply Follows.get
  apply Follows.fold
  · intro v
    apply Follows.known (D.fold sound)
  · have zero : D.Admits ss (.int 0) := trivial
    apply (follows_two sound hi zero).bind
    intro nonPositive _ grows sound hnon
    have hi := hi.mono grows
    have hs := hs.mono grows
    split
    case isTrue => apply Follows.known sound
    case isFalse =>
      apply (follows_one sound hs).bind
      intro n _ grows sound hn
      have hnon := hnon.mono grows
      have hi := hi.mono grows
      have hs := hs.mono grows
      apply (follows_two sound hi hn).bind
      intro pastEnd _ grows sound hpast
      apply (follows_front sound (hi.mono grows) (hs.mono grows) hpast).bind
      intro part _ grows' sound hpart
      have empty : ∀ {tt : Session}, D.Admits tt Strings.empty := trivial
      apply follows_choose sound ((hnon.mono grows).mono grows') empty hpart

theorem follows_back (sound : D.sound ss) (hi : D.Admits ss i) (hs : D.Admits ss s)
    (hl : D.Admits ss l) (hp : D.Admits ss p) :
  D.Follows ss (back i s l p)
  := by
  unfold back
  split
  case isTrue => apply Follows.value sound hs
  case isFalse =>
    apply (follows_two sound hl hi).bind
    intro count _ grows sound hcount
    have hs := hs.mono grows
    apply (follows_slice sound hs (hi.mono grows) hcount).bind
    intro part _ grows' sound hpart
    apply follows_choose sound ((hp.mono grows).mono grows') (hs.mono grows') hpart

theorem follows_drop (sound : D.sound ss) (hi : D.Admits ss i) (hs : D.Admits ss s) :
  D.Follows ss (drop i s)
  := by
  apply Follows.get
  apply Follows.fold
  · intro v
    apply Follows.known (D.fold sound)
  · apply (follows_one sound hs).bind
    intro n _ grows sound hn
    have hi := hi.mono grows
    have hs := hs.mono grows
    apply (follows_two sound hi hn).bind
    intro pastEnd _ grows sound hpast
    have hi := hi.mono grows
    have hs := hs.mono grows
    have hn := hn.mono grows
    split
    case isTrue => apply Follows.known sound
    case isFalse =>
      have zero : ∀ {tt : Session}, D.Admits tt (.int 0) := trivial
      apply (follows_two sound hi zero).bind
      intro nonPositive _ grows sound hnon
      have hpast := hpast.mono grows
      apply (follows_back sound (hi.mono grows) (hs.mono grows) (hn.mono grows) hnon).bind
      intro part _ grows sound hpart
      have empty : ∀ {tt : Session}, D.Admits tt Strings.empty := trivial
      apply follows_choose sound (hpast.mono grows) empty hpart

theorem follows_isPosition (sound : D.sound ss) (hs : D.Admits ss s) (hi : D.Admits ss i) :
  D.Follows ss (isPosition s i)
  := by
  have zero : D.Admits ss (.int 0) := trivial
  apply (follows_two sound zero hi).bind
  intro nonNegative _ grows sound hnon
  have hi := hi.mono grows
  apply (follows_one sound (hs.mono grows)).bind
  intro n _ grows sound hn
  have hnon := hnon.mono grows
  apply (follows_two sound (hi.mono grows) hn).bind
  intro below _ grows sound hbelow
  apply follows_conjoin sound (hnon.mono grows) hbelow

/-- The condition on an extracted character. -/
theorem follows_characterCondition (sound : D.sound ss) (hs : D.Admits ss s) (hi : D.Admits ss i)
    (hc : D.Admits ss c) :
  D.Follows ss (characterCondition s i c)
  := by
  have one : ∀ {tt : Session}, D.Admits tt (.int 1) := trivial
  apply (follows_one sound hc).bind
  intro unit _ grows sound hunit
  have hs := hs.mono grows
  have hi := hi.mono grows
  apply (follows_slice sound hs hi one).bind
  intro there _ grows sound hthere
  have hs := hs.mono grows
  have hi := hi.mono grows
  apply (follows_equal sound (hunit.mono grows) hthere).bind
  intro same _ grows sound hsame
  have hs := hs.mono grows
  have hi := hi.mono grows
  apply (follows_isPosition sound hs hi).bind
  intro inside _ grows sound hinside
  have hsame := hsame.mono grows
  apply (follows_one sound hinside).bind
  intro outside _ grows sound houtside
  apply follows_disjoin sound houtside (hsame.mono grows)

end Strings

end Discipline

/-! ### Operations -/

/-- Whether an operation gives a character of a string. -/
def Operation.extracts : Operation ks r → Bool
  | .first | .charAt | .extract => true
  | _ => false

namespace Discipline

variable {D : Discipline}

/-- An operation that extracts no character follows every discipline. -/
theorem follows_build (sound : D.sound ss) :
    (o : Operation ks r) → (xs : Operands Value ks) → (held : D.AdmitsAll ss xs) →
    o.extracts = false → D.Follows ss (o.build xs)
  | .equal _, .two _ _, h, _ => follows_equal sound h.1 h.2.1
  | .distinct _, .two _ _, h, _ => follows_distinct sound h.1 h.2.1
  | .choose _, .three _ _ _, h, _ => follows_choose sound h.1 h.2.1 h.2.2.1
  | .negate, .one _, h, _ => follows_one sound h.1
  | .conjoin, .two _ _, h, _ => follows_conjoin sound h.1 h.2.1
  | .disjoin, .two _ _, h, _ => follows_disjoin sound h.1 h.2.1
  | .add, .two _ _, h, _ => follows_two sound h.1 h.2.1
  | .subtract, .two _ _, h, _ => follows_two sound h.1 h.2.1
  | .atMost, .two _ _, h, _ => follows_two sound h.1 h.2.1
  | .lessThan, .two _ _, h, _ => follows_two sound h.1 h.2.1
  | .atLeast, .two _ _, h, _ => follows_two sound h.1 h.2.1
  | .greaterThan, .two _ _, h, _ => follows_two sound h.1 h.2.1
  | .empty, .nil, _, _ => Follows.known sound
  | .length, .one _, h, _ => follows_one sound h.1
  | .isEmpty, .one _, h, _ => follows_isEmpty sound h.1
  | .rest, .one _, h, _ => follows_rest sound h.1
  | .singleton, .one _, h, _ => follows_one sound h.1
  | .sliceAt, .two _ _, h, _ => follows_slice sound h.1 h.2.1 trivial
  | .ofChars _, _, h, _ => follows_ofChars sound h.toList
  | .append, .two _ _, h, _ => follows_append sound h.1 h.2.1
  | .join _, _, h, _ => follows_foldlM_append sound trivial h.toList
  | .contains, .two _ _, h, _ => Follows.spare sound trivial (follows_two sound h.2.1 h.1)
  | .startsWith, .two _ _, h, _ => Follows.spare sound trivial (follows_two sound h.1 h.2.1)
  | .endsWith, .two _ _, h, _ => Follows.spare sound trivial (follows_two sound h.1 h.2.1)
  | .take, .two _ _, h, _ => follows_take sound h.1 h.2.1
  | .drop, .two _ _, h, _ => follows_drop sound h.1 h.2.1
  | .slice, .three _ _ _, h, _ => follows_slice sound h.1 h.2.1 h.2.2.1
  | .replaceFirst, .three _ _ _, h, _ => follows_replaceFirst sound h.1 h.2.1 h.2.2.1
  | .replaceAll, .three _ _ _, h, _ =>
    Follows.spare sound h.1 (follows_three sound h.1 h.2.1 h.2.2.1)
  | .indexOf, .two _ _, h, _ => follows_indexOf sound h.1 h.2.1
  | .indexOfFrom, .three _ _ _, h, _ => follows_indexOfFrom sound h.1 h.2.1 h.2.2.1
  | .toInt, .one _, h, _ => follows_one sound h.1
  | .ofInt, .one _, h, _ => follows_one sound h.1
  | .code, .one _, h, _ => follows_one sound h.1
  | .isDigit, .one _, h, _ => follows_isDigit sound h.1

/-- Sessions that have grown out of a session, with all handles usable. -/
def growing (start : Session) : Discipline where
  sound := start.GrowsTo
  usable _ _ _ := True
  mono _ := id
  fold grown := grown.trans (Session.growsTo_countFold _)
  share grown term _ := ⟨grown.trans (Session.growsTo_share term _), trivial⟩

end Discipline

/-- An operation that extracts no character grows the session, whatever its operands are. -/
theorem Operation.grows_build (o : Operation ks r) (xs : Operands Value ks)
    (plain : o.extracts = false) :
  Grows (o.build xs)
  := by
  constructor
  intro ss
  have admitted : (Discipline.growing ss).AdmitsAll ss xs :=
    Discipline.admitsAll_of_usable trivial xs
  apply (Discipline.follows_build (Session.GrowsTo.refl ss) o xs admitted plain).sound

end StringTerms
