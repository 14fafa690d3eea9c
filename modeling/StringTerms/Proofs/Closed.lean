import StringTerms.Proofs.Extraction
import StringTerms.Proofs.HashConsing
import StringTerms.Proofs.Tree

/-!
# Closed trees

Where folding is on, a tree whose leaves are known is computed on the host, provided that slices and
characters lie in their strings and that no character is extracted without looking it up: what is
built is known to be the value of the tree, and the session changes only in the number of folds.
Extracting a character introduces a variable also where the string and the position are known.
-/

namespace StringTerms

variable {α β : Type} {ks : List Kind} {k r : Kind} {ss : Session}

/-! ### Computations that only fold -/

/-- The session after a number of operations computed on the host. -/
def Session.addFolds (n : Nat) (ss : Session) : Session :=
  { ss with statistics.folds := ss.statistics.folds + n }

@[simp]
theorem Session.addFolds_zero (ss : Session) :
  ss.addFolds 0 = ss
  := rfl

/-- Folds do not change what is known of a value. -/
@[simp]
theorem Value.known?_addFolds (x : Value k) (n : Nat) (ss : Session) :
  x.known? (ss.addFolds n) = x.known? ss
  := by
  cases x <;> rfl

@[simp]
theorem Operands.known?_addFolds (xs : Operands Value ks) (n : Nat) (ss : Session) :
  xs.known? (ss.addFolds n) = xs.known? ss
  := by
  induction xs with
  | nil => rfl
  | cons x xs ih => rw [known?, Value.known?_addFolds, ih, known?]

/-- Whatever has been folded in the session, the computation only folds, and its result has a
property. -/
structure Session.Folds (ss : Session) (x : Builder α) (P : α → Prop) : Prop where
  ends : ∀ n, ∃ a m, x (ss.addFolds n) = (a, ss.addFolds m) ∧ P a

/-- The computation only folds, and its value is known. -/
abbrev Session.FoldsTo (ss : Session) (x : Builder (Value k)) (v : k.Carrier) : Prop :=
  ss.Folds x fun a => a.known? ss = some v

namespace Session.Folds

variable {P : α → Prop} {Q : β → Prop}

theorem pure {a : α} (h : P a) :
  ss.Folds (Pure.pure a) P
  := ⟨fun n => ⟨a, n, rfl, h⟩⟩

/-- A value that is known is given as it is. -/
theorem value {a : Value k} {v : k.Carrier} (ha : a.known? ss = some v) :
  ss.FoldsTo (Pure.pure a) v
  := pure ha

theorem known {v : k.Carrier} :
  ss.FoldsTo (Pure.pure (.known v)) v
  := value rfl

theorem of_some {x : Builder (Value k)} {u v : k.Carrier} (hx : ss.FoldsTo x u)
    (same : some u = some v) :
  ss.FoldsTo x v
  := by
  cases same
  apply hx

theorem bind {x : Builder α} {f : α → Builder β} (hx : ss.Folds x P)
    (hf : ∀ {a}, P a → ss.Folds (f a) Q) :
  ss.Folds (x >>= f) Q
  := by
  constructor
  intro n
  obtain ⟨a, m, first, ha⟩ := hx.ends n
  obtain ⟨b, l, second, hb⟩ := (hf ha).ends m
  refine ⟨b, l, ?_, hb⟩
  rw [Builder.bind_apply, first, second]

/-- A computation may depend on the session. -/
theorem get {f : Session → Builder α} (h : ∀ n, ss.Folds (f (ss.addFolds n)) P) :
  ss.Folds (MonadState.get >>= f) P
  := ⟨fun n => (h n).ends n⟩

/-- A computation that folds. -/
theorem fold {ε : Type} {operands : Option ε} {host : ε → Option r.Carrier}
    {f : Option (Value r) → Builder α} {v : r.Carrier} (on : ss.configuration.fold = true)
    (found : operands.bind host = some v) (rest : ss.Folds (f (some (.known v))) P) :
  ss.Folds (fold? operands host >>= f) P
  := by
  constructor
  intro n
  obtain ⟨a, m, ends, ha⟩ := rest.ends (n + 1)
  have on : (ss.addFolds n).configuration.fold = true := on
  refine ⟨a, m, ?_, ha⟩
  rw [Builder.bind_apply, fold?_of_host on found]
  apply ends

/-- A computation that first tries to fold what is known of its operands. -/
theorem hosted {xs : Operands Value ks} {vs : Operands Kind.Carrier ks} {v : r.Carrier}
    {host : Operands Kind.Carrier ks → Option r.Carrier}
    {f : Option (Value r) → Builder (Value r)} (on : ss.configuration.fold = true)
    (hx : xs.known? ss = some vs) (found : host vs = some v)
    (given : f (some (.known v)) = Pure.pure (.known v)) :
  ss.FoldsTo (MonadState.get >>= fun tt => fold? (xs.known? tt) host >>= f) v
  := by
  constructor
  intro n
  refine ⟨.known v, n + 1, ?_, rfl⟩
  have folds : (xs.known? (ss.addFolds n)).bind host = some v := by
    rw [Operands.known?_addFolds, hx]
    apply found
  have on : (ss.addFolds n).configuration.fold = true := on
  rw [Builder.get_bind, Builder.bind_apply, fold?_of_host on folds, given]
  rfl

theorem compute {xs : Operands Value ks} {op : Operator}
    {host : Operands Kind.Carrier ks → Option r.Carrier} {vs : Operands Kind.Carrier ks}
    {v : r.Carrier} (on : ss.configuration.fold = true) (hx : xs.known? ss = some vs)
    (found : host vs = some v) :
  ss.FoldsTo (StringTerms.compute op xs host) v
  := hosted on hx found rfl

section Compute

variable {i j l : Kind} {a : Value i} {b : Value j} {c : Value l} {op : Operator} {u : i.Carrier}
  {w : j.Carrier} {x : l.Carrier} {v : r.Carrier}

theorem known?_two (ha : a.known? ss = some u) (hb : b.known? ss = some w) :
  (Operands.two a b).known? ss = some (.two u w)
  := by
  simp only [Operands.known?, ha, hb]
  rfl

theorem one {host : Operands Kind.Carrier [i] → Option r.Carrier}
    (on : ss.configuration.fold = true) (ha : a.known? ss = some u)
    (found : host (.one u) = some v) :
  ss.FoldsTo (StringTerms.compute op (.one a) host) v
  := by
  have operands : (Operands.one a).known? ss = some (.one u) := by
    simp only [Operands.known?, ha]
    rfl
  apply compute on operands found

theorem two {host : Operands Kind.Carrier [i, j] → Option r.Carrier}
    (on : ss.configuration.fold = true) (ha : a.known? ss = some u) (hb : b.known? ss = some w)
    (found : host (.two u w) = some v) :
  ss.FoldsTo (StringTerms.compute op (.two a b) host) v
  := compute on (known?_two ha hb) found

theorem three {host : Operands Kind.Carrier [i, j, l] → Option r.Carrier}
    (on : ss.configuration.fold = true) (ha : a.known? ss = some u) (hb : b.known? ss = some w)
    (hc : c.known? ss = some x) (found : host (.three u w x) = some v) :
  ss.FoldsTo (StringTerms.compute op (.three a b c) host) v
  := by
  have operands : (Operands.three a b c).known? ss = some (.three u w x) := by
    simp only [Operands.known?, ha, hb, hc]
    rfl
  apply compute on operands found

end Compute

/-! ### Boolean operations -/

section Logic

open Logic

variable {a b c : Value .bool} {p q : Bool} {x y : Value k} {u w : k.Carrier}

theorem equal (on : ss.configuration.fold = true) (hx : x.known? ss = some u)
    (hy : y.known? ss = some w) :
  ss.FoldsTo (Logic.equal x y) (decide (u = w))
  := by
  unfold Logic.equal
  split
  case isTrue same =>
    have equal : u = w := by
      cases x <;> cases y <;> simp only [sameNode, decide_eq_true_eq, Bool.false_eq_true] at same
      rw [same, hy] at hx
      exact (Option.some.inj hx).symm
    rw [decide_eq_true equal]
    apply known
  case isFalse => apply two on hx hy rfl

theorem negate (on : ss.configuration.fold = true) (ha : a.known? ss = some p) :
  ss.FoldsTo (Logic.negate a) (!p)
  := one on ha rfl

theorem distinct (on : ss.configuration.fold = true) (hx : x.known? ss = some u)
    (hy : y.known? ss = some w) :
  ss.FoldsTo (Logic.distinct x y) (!decide (u = w))
  := by
  apply (equal on hx hy).bind
  intro e he
  apply negate on he

theorem conjoin (ha : a.known? ss = some p) (hb : b.known? ss = some q) :
  ss.FoldsTo (Logic.conjoin a b) (p && q)
  := by
  apply get
  intro n
  rw [Value.known?_addFolds, Value.known?_addFolds, ha, hb]
  cases p with
  | false => apply known
  | true =>
      cases q with
      | false => apply known
      | true => apply value hb

theorem disjoin (ha : a.known? ss = some p) (hb : b.known? ss = some q) :
  ss.FoldsTo (Logic.disjoin a b) (p || q)
  := by
  apply get
  intro n
  rw [Value.known?_addFolds, Value.known?_addFolds, ha, hb]
  cases p with
  | true => apply known
  | false =>
      cases q with
      | true => apply known
      | false => apply value hb

theorem choose (hc : c.known? ss = some p) (hx : x.known? ss = some u)
    (hy : y.known? ss = some w) :
  ss.FoldsTo (Logic.choose c x y) (if p then u else w)
  := by
  apply get
  intro n
  rw [Value.known?_addFolds, hc]
  cases p with
  | true => apply value hx
  | false => apply value hy

end Logic

/-! ### String operations -/

section Strings

open Strings

variable {s t u : Value .string} {i o l : Value .int} {c : Value .char} {x y z : ByteString}
  {m n : Int} {d : UInt8}

/-- A string whose characters are known is known to be empty exactly when it is. -/
theorem knownEmpty_addFolds (hs : s.known? ss = some x) (n : Nat) :
  knownEmpty (ss.addFolds n) s = x.isEmpty
  := by
  rw [knownEmpty, Value.known?_addFolds, hs]

theorem knownShorter_addFolds (hs : s.known? ss = some x) (ht : t.known? ss = some y) (n : Nat) :
  knownShorter (ss.addFolds n) s t = decide (x.length < y.length)
  := by
  rw [knownShorter, Value.known?_addFolds, Value.known?_addFolds, hs, ht]

theorem knownOutside_addFolds (hs : s.known? ss = some x) (hi : i.known? ss = some m) (n : Nat) :
  knownOutside (ss.addFolds n) s i = decide (m < 0 ∨ (x.length : Int) < m)
  := by
  rw [knownOutside, Value.known?_addFolds, Value.known?_addFolds, hs, hi, Bool.decide_or]

theorem isEmpty (hs : s.known? ss = some x) :
  ss.FoldsTo (Strings.isEmpty s) x.isEmpty
  := by
  apply get
  intro n
  rw [Value.known?_addFolds, hs]
  apply known

theorem append (on : ss.configuration.fold = true) (hs : s.known? ss = some x)
    (ht : t.known? ss = some y) :
  ss.FoldsTo (Strings.append s t) (x ++ y)
  := by
  apply get
  intro n
  rw [knownEmpty_addFolds hs, knownEmpty_addFolds ht]
  split
  case isTrue nothing =>
    rw [List.isEmpty_iff.mp nothing]
    apply value ht
  case isFalse =>
    split
    case isTrue nothing =>
      rw [List.isEmpty_iff.mp nothing, List.append_nil]
      apply value hs
    case isFalse => apply two on hs ht rfl

/-- Joining strings to one that is there already. -/
theorem foldlM_append {parts : List (Value .string)} {xs : List ByteString}
    (on : ss.configuration.fold = true) (hs : s.known? ss = some x)
    (hparts : List.Forall₂ (fun t y => t.known? ss = some y) parts xs) :
  ss.FoldsTo (parts.foldlM Strings.append s) (x ++ xs.flatten)
  := by
  induction hparts generalizing s x with
  | nil =>
      rw [List.flatten_nil, List.append_nil]
      apply value hs
  | cons head _ ih =>
      rw [List.foldlM_cons, List.flatten_cons, ← List.append_assoc]
      apply (append on hs head).bind
      intro t ht
      apply ih ht

theorem join {parts : List (Value .string)} {xs : List ByteString}
    (on : ss.configuration.fold = true)
    (hparts : List.Forall₂ (fun t y => t.known? ss = some y) parts xs) :
  ss.FoldsTo (Strings.join parts) xs.flatten
  := foldlM_append (x := []) on rfl hparts

theorem ofChars {cs : List (Value .char)} (on : ss.configuration.fold = true)
    (hcs : List.Forall₂ (fun c d => c.known? ss = some d) cs x) :
  ss.FoldsTo (Strings.ofChars cs) x
  := by
  apply get
  intro n
  apply fold on _ known
  have found : cs.mapM (Value.known? (ss.addFolds n)) = some x := by
    rw [List.mapM_eq_some_iff]
    apply hcs.imp
    intro c d hc
    rw [Value.known?_addFolds, hc]
  rw [found]
  rfl

theorem isDigit (on : ss.configuration.fold = true) (hc : c.known? ss = some d) :
  ss.FoldsTo (Strings.isDigit c) (ByteString.isDigit d)
  := by
  rw [isDigit_eq]
  apply Folds.bind (one on hc rfl)
  intro n hn
  apply Folds.bind (two on hn rfl rfl)
  intro low hlow
  apply Folds.bind (two on hn rfl rfl)
  intro high hhigh
  apply conjoin hlow hhigh

theorem contains (on : ss.configuration.fold = true) (hs : s.known? ss = some x)
    (ht : t.known? ss = some y) :
  ss.FoldsTo (Strings.contains t s) (ByteString.contains y x)
  := by
  apply get
  intro n
  rw [knownEmpty_addFolds ht]
  split
  case isTrue nothing =>
    rw [List.isEmpty_iff.mp nothing, contains_nil]
    apply known
  case isFalse => apply two on hs ht rfl

theorem startsWith (on : ss.configuration.fold = true) (hs : s.known? ss = some x)
    (ht : t.known? ss = some y) :
  ss.FoldsTo (Strings.startsWith t s) (ByteString.startsWith y x)
  := by
  apply get
  intro n
  rw [knownEmpty_addFolds ht]
  split
  case isTrue nothing =>
    rw [List.isEmpty_iff.mp nothing, ByteString.startsWith, List.isPrefixOf_nil_left]
    apply known
  case isFalse => apply two on ht hs rfl

theorem endsWith (on : ss.configuration.fold = true) (hs : s.known? ss = some x)
    (ht : t.known? ss = some y) :
  ss.FoldsTo (Strings.endsWith t s) (ByteString.endsWith y x)
  := by
  apply get
  intro n
  rw [knownEmpty_addFolds ht]
  split
  case isTrue nothing =>
    rw [List.isEmpty_iff.mp nothing, ByteString.endsWith, List.isSuffixOf_nil_left]
    apply known
  case isFalse => apply two on ht hs rfl

theorem replaceFirst (on : ss.configuration.fold = true) (hs : s.known? ss = some x)
    (ht : t.known? ss = some y) (hu : u.known? ss = some z) :
  ss.FoldsTo (Strings.replaceFirst s t u) (ByteString.replaceFirst x y z)
  := by
  apply get
  intro n
  rw [knownEmpty_addFolds ht, knownShorter_addFolds hs ht]
  split
  case isTrue nothing =>
    rw [List.isEmpty_iff.mp nothing, replaceFirst_nil]
    apply append on hu hs
  case isFalse =>
    split
    case isTrue shorter =>
      rw [replaceFirst_of_length_lt (of_decide_eq_true shorter)]
      apply value hs
    case isFalse => apply three on hs ht hu rfl

theorem replaceAll (on : ss.configuration.fold = true) (hs : s.known? ss = some x)
    (ht : t.known? ss = some y) (hu : u.known? ss = some z) :
  ss.FoldsTo (Strings.replaceAll s t u) (ByteString.replaceAll x y z)
  := by
  apply get
  intro n
  rw [knownEmpty_addFolds ht]
  split
  case isTrue nothing =>
    rw [List.isEmpty_iff.mp nothing, replaceAll_nil]
    apply value hs
  case isFalse => apply three on hs ht hu rfl

theorem indexOfFrom (on : ss.configuration.fold = true) (hs : s.known? ss = some x)
    (ht : t.known? ss = some y) (hi : i.known? ss = some m) :
  ss.FoldsTo (Strings.indexOfFrom s t i) (ByteString.indexOfFrom x y m)
  := by
  apply get
  intro n
  rw [knownOutside_addFolds hs hi]
  split
  case isTrue outside =>
    have none : ByteString.indexOfFrom x y m = -1 := by
      have outside := of_decide_eq_true outside
      rw [ByteString.indexOfFrom, if_neg (by omega)]
    rw [none]
    apply known
  case isFalse => apply three on hs ht hi rfl

theorem indexOf (on : ss.configuration.fold = true) (hs : s.known? ss = some x)
    (ht : t.known? ss = some y) :
  ss.FoldsTo (Strings.indexOf s t) (ByteString.indexOf x y)
  := hosted on (known?_two hs ht) rfl rfl

theorem slice (on : ss.configuration.fold = true) (hs : s.known? ss = some x)
    (ho : o.known? ss = some m) (hl : l.known? ss = some n)
    (inside : ByteString.slice? x m n = some y) :
  ss.FoldsTo (Strings.slice s o l) y
  := three on hs ho hl inside

theorem rest (hs : s.known? ss = some (d :: x)) :
  ss.FoldsTo (Strings.rest s) x
  := by
  apply get
  intro n
  rw [Value.known?_addFolds, hs]
  apply known

theorem take (on : ss.configuration.fold = true) (hi : i.known? ss = some m)
    (hs : s.known? ss = some x) :
  ss.FoldsTo (Strings.take i s) (ByteString.take m x)
  := hosted on (known?_two hi hs) rfl rfl

theorem drop (on : ss.configuration.fold = true) (hi : i.known? ss = some m)
    (hs : s.known? ss = some x) :
  ss.FoldsTo (Strings.drop i s) (ByteString.drop m x)
  := hosted on (known?_two hi hs) rfl rfl

theorem charAt (hs : s.known? ss = some x) (hi : i.known? ss = some m)
    (inside : ByteString.charAt? x m = some d) :
  ss.FoldsTo (Strings.charAt s i) d
  := by
  apply get
  intro n
  rw [Value.known?_addFolds, Value.known?_addFolds, hs, hi]
  have found : (do ByteString.charAt? (← some x) (← some m) : Option UInt8) = some d := inside
  rw [found]
  apply known

end Strings

end Session.Folds

/-! ### Operations -/

/-- The operands are known to have the values. -/
def Operands.Known (ss : Session) : {ks : List Kind} → Operands Value ks →
    Operands Kind.Carrier ks → Prop
  | _, .nil, .nil => True
  | _, .cons x xs, .cons v vs => x.known? ss = some v ∧ xs.Known ss vs

/-- Operands of one kind are known one by one. -/
theorem Operands.Known.toList {n : Nat} {xs : Operands Value (List.replicate n k)}
    {vs : Operands Kind.Carrier (List.replicate n k)} (hx : xs.Known ss vs) :
  List.Forall₂ (fun x v => x.known? ss = some v) xs.toList vs.toList
  := by
  induction n with
  | zero =>
      cases xs
      cases vs
      apply List.Forall₂.nil
  | succ n ih =>
      obtain _ | ⟨x, xs⟩ := xs
      obtain _ | ⟨v, vs⟩ := vs
      exact List.Forall₂.cons hx.1 (ih hx.2)

namespace Operation

/-- Whether an operation introduces an emulated value without looking at its operands. -/
def emulates : Operation ks r → Bool
  | .extract => true
  | _ => false

/-- Slices and characters lie in their strings. -/
def Inside : Operation ks r → Operands Kind.Carrier ks → Prop
  | .slice, .three s o l => 0 ≤ o ∧ 0 ≤ l ∧ o + l ≤ s.length
  | .sliceAt, .two s i => 0 ≤ i ∧ i + 1 ≤ s.length
  | .charAt, .two s i => 0 ≤ i ∧ i < s.length
  | .extract, .two s i => 0 ≤ i ∧ i < s.length
  | .first, .one s => s ≠ []
  | .rest, .one s => s ≠ []
  | _, _ => True

/-- The host function of an operation, defined for slices and characters that lie in their
strings. -/
def host? : Operation ks r → Operands Kind.Carrier ks → Option r.Carrier
  | .slice, .three s o l => ByteString.slice? s o l
  | .sliceAt, .two s i => ByteString.slice? s i 1
  | .rest, .one s => s.tail?
  | o, vs => o.host vs

/-- An operation has a host value where slices and characters lie in their strings. -/
theorem exists_host? (o : Operation ks r) (vs : Operands Kind.Carrier ks) (inside : o.Inside vs) :
  ∃ v, o.host? vs = some v
  := by
  cases o
  case slice =>
    obtain _ | ⟨s, _ | ⟨o, _ | ⟨l, _ | _⟩⟩⟩ := vs
    apply Option.isSome_iff_exists.mp
    apply (ByteString.slice?_isSome_iff s o l).mpr inside
  case sliceAt =>
    obtain _ | ⟨s, _ | ⟨i, _ | _⟩⟩ := vs
    apply Option.isSome_iff_exists.mp
    apply (ByteString.slice?_isSome_iff s i 1).mpr ⟨inside.1, by decide, inside.2⟩
  case charAt =>
    obtain _ | ⟨s, _ | ⟨i, _ | _⟩⟩ := vs
    obtain ⟨c, found⟩ := ByteString.exists_char s i
    exact ⟨c, found inside.1 inside.2⟩
  case extract =>
    obtain _ | ⟨s, _ | ⟨i, _ | _⟩⟩ := vs
    obtain ⟨c, found⟩ := ByteString.exists_char s i
    exact ⟨c, found inside.1 inside.2⟩
  case first =>
    obtain _ | ⟨s, _ | _⟩ := vs
    obtain ⟨c, found⟩ := ByteString.exists_char s 0
    exact ⟨c, found (Int.le_refl 0) (Int.natCast_pos.mpr (List.length_pos_iff.mpr inside))⟩
  case rest =>
    obtain _ | ⟨s, _ | _⟩ := vs
    cases s with
    | nil => exact absurd rfl inside
    | cons c s => exact ⟨s, rfl⟩
  case ofChars => exact ⟨vs.toList, rfl⟩
  case join => exact ⟨vs.toList.flatten, rfl⟩
  all_goals exact Option.isSome_iff_exists.mp (host_isSome rfl vs)

open Session in
/-- An operation on known operands is computed on the host. -/
theorem folds_build (on : ss.configuration.fold = true) :
    (o : Operation ks r) → (xs : Operands Value ks) → (vs : Operands Kind.Carrier ks) →
    xs.Known ss vs → o.emulates = false → {v : r.Carrier} → o.host? vs = some v →
  ss.FoldsTo (o.build xs) v
  | .equal _, .two _ _, .two _ _, h, _, _, host => (Folds.equal on h.1 h.2.1).of_some host
  | .distinct _, .two _ _, .two _ _, h, _, _, host => (Folds.distinct on h.1 h.2.1).of_some host
  | .choose _, .three _ _ _, .three _ _ _, h, _, _, host =>
    (Folds.choose h.1 h.2.1 h.2.2.1).of_some host
  | .negate, .one _, .one _, h, _, _, host => (Folds.negate on h.1).of_some host
  | .conjoin, .two _ _, .two _ _, h, _, _, host => (Folds.conjoin h.1 h.2.1).of_some host
  | .disjoin, .two _ _, .two _ _, h, _, _, host => (Folds.disjoin h.1 h.2.1).of_some host
  | .add, .two _ _, .two _ _, h, _, _, host => .two on h.1 h.2.1 host
  | .subtract, .two _ _, .two _ _, h, _, _, host => .two on h.1 h.2.1 host
  | .atMost, .two _ _, .two _ _, h, _, _, host => .two on h.1 h.2.1 host
  | .lessThan, .two _ _, .two _ _, h, _, _, host => .two on h.1 h.2.1 host
  | .atLeast, .two _ _, .two _ _, h, _, _, host => .two on h.1 h.2.1 host
  | .greaterThan, .two _ _, .two _ _, h, _, _, host => .two on h.1 h.2.1 host
  | .empty, .nil, .nil, _, _, _, host => Folds.known.of_some host
  | .length, .one _, .one _, h, _, _, host => .one on h.1 host
  | .isEmpty, .one _, .one _, h, _, _, host => (Folds.isEmpty h.1).of_some host
  | .first, .one _, .one _, h, _, _, inside => .charAt h.1 rfl inside
  | .rest, .one _, .one [], _, _, _, host => by cases host
  | .rest, .one _, .one (_ :: _), h, _, _, host => (Folds.rest h.1).of_some host
  | .singleton, .one _, .one _, h, _, _, host => .one on h.1 host
  | .sliceAt, .two _ _, .two _ _, h, _, _, inside => .slice on h.1 h.2.1 rfl inside
  | .charAt, .two _ _, .two _ _, h, _, _, inside => .charAt h.1 h.2.1 inside
  | .ofChars _, _, _, h, _, _, host => (Folds.ofChars on h.toList).of_some host
  | .append, .two _ _, .two _ _, h, _, _, host => (Folds.append on h.1 h.2.1).of_some host
  | .join _, _, _, h, _, _, host => (Folds.join on h.toList).of_some host
  | .contains, .two _ _, .two _ _, h, _, _, host => (Folds.contains on h.2.1 h.1).of_some host
  | .startsWith, .two _ _, .two _ _, h, _, _, host => (Folds.startsWith on h.2.1 h.1).of_some host
  | .endsWith, .two _ _, .two _ _, h, _, _, host => (Folds.endsWith on h.2.1 h.1).of_some host
  | .take, .two _ _, .two _ _, h, _, _, host => (Folds.take on h.1 h.2.1).of_some host
  | .drop, .two _ _, .two _ _, h, _, _, host => (Folds.drop on h.1 h.2.1).of_some host
  | .slice, .three _ _ _, .three _ _ _, h, _, _, inside => .slice on h.1 h.2.1 h.2.2.1 inside
  | .replaceFirst, .three _ _ _, .three _ _ _, h, _, _, host =>
    (Folds.replaceFirst on h.1 h.2.1 h.2.2.1).of_some host
  | .replaceAll, .three _ _ _, .three _ _ _, h, _, _, host =>
    (Folds.replaceAll on h.1 h.2.1 h.2.2.1).of_some host
  | .indexOf, .two _ _, .two _ _, h, _, _, host => (Folds.indexOf on h.1 h.2.1).of_some host
  | .indexOfFrom, .three _ _ _, .three _ _ _, h, _, _, host =>
    (Folds.indexOfFrom on h.1 h.2.1 h.2.2.1).of_some host
  | .toInt, .one _, .one _, h, _, _, host => .one on h.1 host
  | .ofInt, .one _, .one _, h, _, _, host => .one on h.1 host
  | .code, .one _, .one _, h, _, _, host => .one on h.1 host
  | .isDigit, .one _, .one _, h, _, _, host => (Folds.isDigit on h.1).of_some host

end Operation

/-! ### Trees -/

namespace Tree

mutual

/-- The host value of a tree whose leaves are known, if slices and characters lie in their
strings. -/
def closed? (ss : Session) : {k : Kind} → Tree k → Option k.Carrier
  | _, .leaf x => x.known? ss
  | _, .node o ts => do o.host? (← closedAll? ss ts)

/-- The host values of trees. -/
def closedAll? (ss : Session) : {ks : List Kind} → Operands Tree ks →
    Option (Operands Kind.Carrier ks)
  | _, .nil => some .nil
  | _, .cons t ts => do return .cons (← t.closed? ss) (← closedAll? ss ts)

end

/-- Slices and characters of the tree lie in their strings. -/
def Inside (ss : Session) (t : Tree k) : Prop :=
  t.Inner fun o ts => ∀ vs, closedAll? ss ts = some vs → o.Inside vs

mutual

/-- A tree with known leaves has a host value if slices and characters lie in their strings. -/
theorem exists_closed : {k : Kind} → (t : Tree k) → t.Leaves (fun x => ∃ v, x.known? ss = some v) →
    t.Inside ss →
  ∃ v, t.closed? ss = some v
  | _, .leaf _, leaves, _ => leaves
  | _, .node o ts, leaves, inside => by
    obtain ⟨vs, hvs⟩ := exists_closedAll ts leaves inside.2
    obtain ⟨v, hv⟩ := o.exists_host? vs (inside.1 vs hvs)
    exact ⟨v, Option.bind_eq_some_iff.mpr ⟨vs, hvs, hv⟩⟩

theorem exists_closedAll : {ks : List Kind} → (ts : Operands Tree ks) →
    LeavesAll (fun x => ∃ v, x.known? ss = some v) ts →
    InnerAll (fun o ts => ∀ vs, closedAll? ss ts = some vs → o.Inside vs) ts →
  ∃ vs, closedAll? ss ts = some vs
  | _, .nil, _, _ => ⟨.nil, rfl⟩
  | _, .cons t ts, leaves, inside => by
    obtain ⟨v, hv⟩ := exists_closed t leaves.1 inside.1
    obtain ⟨vs, hvs⟩ := exists_closedAll ts leaves.2 inside.2
    use .cons v vs
    simp only [closedAll?, hv, hvs]
    rfl

end

mutual

/-- A tree with a host value is computed on the host. -/
theorem folds_build (on : ss.configuration.fold = true) : {k : Kind} → (t : Tree k) →
    t.Inner (fun o _ => o.emulates = false) → {v : k.Carrier} → t.closed? ss = some v →
  ss.FoldsTo t.build v
  | _, .leaf _, _, _, value => .value value
  | _, .node o ts, plain, _, value => by
    obtain ⟨vs, hvs, value⟩ := Option.bind_eq_some_iff.mp value
    apply (folds_buildAll on ts plain.2 hvs).bind
    intro xs hxs
    apply o.folds_build on xs vs hxs plain.1 value

theorem folds_buildAll (on : ss.configuration.fold = true) : {ks : List Kind} →
    (ts : Operands Tree ks) → InnerAll (fun o _ => o.emulates = false) ts →
    {vs : Operands Kind.Carrier ks} → closedAll? ss ts = some vs →
  ss.Folds (buildAll ts) fun xs => xs.Known ss vs
  | _, .nil, _, .nil, _ => .pure trivial
  | _, .cons t ts, plain, _, values => by
    obtain ⟨v, hv, values⟩ := Option.bind_eq_some_iff.mp values
    obtain ⟨vs, hvs, values⟩ := Option.bind_eq_some_iff.mp values
    cases values
    apply (folds_build on t plain.1 hv).bind
    intro x hx
    apply (folds_buildAll on ts plain.2 hvs).bind
    intro xs hxs
    apply Session.Folds.pure
    exact ⟨hx, hxs⟩

end

/-- Closed trees do not reach the arena: where folding is on, building a tree whose leaves are
known, in which slices and characters lie in their strings and no character is extracted without
looking it up, gives what is known to be its host value, and nothing but the number of folds changes
in the session. -/
theorem build_closed (on : ss.configuration.fold = true) (t : Tree k)
    (leaves : t.Leaves fun x => ∃ v, x.known? ss = some v) (inside : t.Inside ss)
    (plain : t.Inner fun o _ => o.emulates = false) :
  ∃ v n, t.closed? ss = some v ∧ (t.build ss).1.known? (t.build ss).2 = some v
    ∧ (t.build ss).2 = ss.addFolds n
  := by
  obtain ⟨v, value⟩ := t.exists_closed leaves inside
  obtain ⟨x, n, built, known⟩ := (t.folds_build on plain value).ends 0
  rw [Session.addFolds_zero] at built
  use v, n, value
  rw [built, Value.known?_addFolds]
  exact ⟨known, rfl⟩

/-- Dropping the first character of a string that is joined from a known string and a literal
node. -/
theorem build_closed_drop :
  let ss : Session := (Session.literal (.string [99]) {}).2
  let t : Tree .string := .node .drop (.two (.leaf (.int 1))
    (.node .append (.two (.leaf (.known [97, 98])) (.leaf (.node ⟨0⟩)))))
  (t.build ss).1.known? (t.build ss).2 = some [98, 99] ∧ (t.build ss).2.contents = ss.contents
  := by
  intro ss t
  have literal : (Value.node ⟨0⟩ : Value .string).known? ss = some [99] := rfl
  have leaves : t.Leaves fun x => ∃ v, x.known? ss = some v :=
    ⟨⟨1, rfl⟩, ⟨⟨[97, 98], rfl⟩, ⟨[99], literal⟩, trivial⟩, trivial⟩
  have inside : t.Inside ss := ⟨fun _ _ => trivial, trivial, ⟨fun _ _ => trivial, trivial, trivial,
    trivial⟩, trivial⟩
  have on : ss.configuration.fold = true := rfl
  obtain ⟨v, n, value, known, only⟩ := t.build_closed on leaves inside
    ⟨rfl, trivial, ⟨rfl, trivial, trivial, trivial⟩, trivial⟩
  cases value
  rw [known, only]
  exact ⟨rfl, rfl⟩

/-- Extracting a character without looking it up introduces a variable, also where the string and
the position are known and the position is inside. -/
theorem not_all_closed :
  ¬ ∀ (ss : Session) (t : Tree .char), ss.configuration.fold = true →
    t.Leaves (fun x => ∃ v, x.known? ss = some v) → t.Inside ss →
    ∃ v n, t.closed? ss = some v ∧ (t.build ss).1.known? (t.build ss).2 = some v
      ∧ (t.build ss).2 = ss.addFolds n
  := by
  intro all
  have inside :
      (Tree.node .extract (.two (.leaf (.known [97, 98])) (.leaf (.int 0)))).Inside {} := by
    refine ⟨fun vs value => ?_, trivial, trivial, trivial⟩
    cases value
    have within : (0 : Int) ≤ 0 ∧ (0 : Int) < 2 := by decide
    exact within
  obtain ⟨v, n, -, -, only⟩ := all {} (.node .extract (.two (.leaf (.known [97, 98]))
    (.leaf (.int 0)))) rfl ⟨⟨[97, 98], rfl⟩, ⟨0, rfl⟩, trivial⟩ inside
  have introduced : ((Tree.node .extract (.two (.leaf (.known [97, 98]))
      (.leaf (.int 0)))).build {}).2.vars.size = 1 := by decide +kernel
  rw [only] at introduced
  cases introduced

end Tree

end StringTerms
