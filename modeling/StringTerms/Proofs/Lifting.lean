import StringTerms.Operation

/-!
# Nodes at the kinds of their operators

The operations choose the operators of their nodes, the order of the operands and the kind of the
result without a check.  They choose them well: every node that an operation may ask for, in
whatever session, is one of an operator at kinds that the operator accepts, with the kind of the
result that the operator then has.  This also holds of the nodes that are spared because their value
is computed on the host.
-/

namespace StringTerms

variable {α β : Type} {k r : Kind} {ks : List Kind}

/-- A computation that asks for the nodes of operators only at kinds that the operators accept, with
the kinds of their results. -/
inductive RespectsKinds : {α : Type} → Builder α → Prop
  | pure {α : Type} (a : α) : RespectsKinds (Pure.pure a)
  | bind {α β : Type} {x : Builder α} {f : α → Builder β} (hx : RespectsKinds x)
    (hf : ∀ a, RespectsKinds (f a)) :
    RespectsKinds (x >>= f)
  /-- A computation may depend on the session. -/
  | get {α : Type} {f : Session → Builder α} (hf : ∀ ss, RespectsKinds (f ss)) :
    RespectsKinds (MonadState.get >>= f)
  | fold {α : Type} {r : Kind} (operands : Option α) (host : α → Option r.Carrier) :
    RespectsKinds (fold? operands host)
  | compute {ks : List Kind} {r : Kind} {op : Operator} (accepts : op.resultKind ks = .ok r)
    (xs : Operands Value ks) (host : Operands Kind.Carrier ks → Option r.Carrier) :
    RespectsKinds (compute op xs host)
  | defer {ks : List Kind} {r : Kind} {op : Operator} (accepts : op.resultKind ks = .ok r)
    (xs : Operands Value ks) :
    RespectsKinds (defer r op xs)
  /-- The node of a value is a literal of its kind. -/
  | handle {k : Kind} (x : Value k) : RespectsKinds x.handle
  | introduce (k : Kind) (op : Operator) (hs : List Handle)
    {define : Value k → Builder (Value .bool)} (hd : ∀ x, RespectsKinds (define x)) :
    RespectsKinds (Emulation.introduce k op hs define)

/-- An operator accepts operands of its own kinds. -/
theorem Operator.resultKind_operandKinds (op : Operator) (j : Kind) :
  op.resultKind (op.operandKinds j) = .ok (op.kindAt j)
  := resultKind_eq_ok_iff.mpr ⟨j, rfl, rfl⟩

namespace RespectsKinds

/-- An operator computed at its own kinds. -/
theorem compute_at (op : Operator) (j : Kind) {xs : Operands Value (op.operandKinds j)}
    {host : Operands Kind.Carrier (op.operandKinds j) → Option (op.kindAt j).Carrier} :
  RespectsKinds (StringTerms.compute op xs host)
  := compute (op.resultKind_operandKinds j) xs host

/-- A computation that tries to fold. -/
theorem fold_bind {operands : Option α} {host : α → Option r.Carrier}
    {f : Option (Value r) → Builder β} (folds : ∀ v, RespectsKinds (f (some v)))
    (defers : RespectsKinds (f none)) :
  RespectsKinds (fold? operands host >>= f)
  := by
  apply (fold operands host).bind
  rintro (_ | v)
  · apply defers
  · apply folds

/-- A computation that a test of the session may spare. -/
theorem spare {x : Builder α} (known : Session → Bool) (a : α) (hx : RespectsKinds x) :
  RespectsKinds (do if known (← MonadState.get) then return a else x)
  := by
  apply get
  intro ss
  split
  case isTrue => apply pure
  case isFalse => apply hx

end RespectsKinds

open RespectsKinds (compute_at fold_bind spare)

/-! ### Integer and Boolean operations -/

namespace Logic

variable (a b c : Value .bool) (x y : Value k)

theorem respectsKinds_equal :
  RespectsKinds (equal x y)
  := by
  unfold equal
  split
  case isTrue => apply RespectsKinds.pure
  case isFalse => exact compute_at .eq k

theorem respectsKinds_negate :
  RespectsKinds (negate a)
  := compute_at .not .bool

theorem respectsKinds_distinct :
  RespectsKinds (distinct x y)
  := (respectsKinds_equal x y).bind respectsKinds_negate

theorem respectsKinds_conjoin :
  RespectsKinds (conjoin a b)
  := by
  apply RespectsKinds.get
  intro ss
  split
  case h_5 => exact compute_at .and .bool
  all_goals apply RespectsKinds.pure

theorem respectsKinds_disjoin :
  RespectsKinds (disjoin a b)
  := by
  apply RespectsKinds.get
  intro ss
  split
  case h_5 => exact compute_at .or .bool
  all_goals apply RespectsKinds.pure

theorem respectsKinds_choose :
  RespectsKinds (choose c x y)
  := by
  apply RespectsKinds.get
  intro ss
  split
  case h_1 => apply RespectsKinds.pure
  case h_2 => apply RespectsKinds.pure
  case h_3 =>
    split
    case isTrue => apply RespectsKinds.pure
    case isFalse => exact RespectsKinds.defer (Operator.resultKind_operandKinds .ite k) _

end Logic

/-! ### String operations -/

namespace Strings

open Logic

variable (s t u : Value .string) (c : Value .char) (i l : Value .int)

theorem respectsKinds_length :
  RespectsKinds (length s)
  := compute_at .length .bool

theorem respectsKinds_isEmpty :
  RespectsKinds (isEmpty s)
  := by
  apply RespectsKinds.get
  intro ss
  split
  case h_1 => apply RespectsKinds.pure
  case h_2 => apply respectsKinds_equal

theorem respectsKinds_singleton :
  RespectsKinds (singleton c)
  := compute_at .unit .bool

theorem respectsKinds_append :
  RespectsKinds (append s t)
  := by
  apply RespectsKinds.get
  intro ss
  split
  case isTrue => apply RespectsKinds.pure
  case isFalse =>
    split
    case isTrue => apply RespectsKinds.pure
    case isFalse => exact compute_at .append .bool

/-- Appending strings to a first one. -/
theorem respectsKinds_foldlM_append (parts : List (Value .string)) :
  RespectsKinds (parts.foldlM append s)
  := by
  induction parts generalizing s with
  | nil => apply RespectsKinds.pure
  | cons t parts ih =>
      rw [List.foldlM_cons]
      apply (respectsKinds_append s t).bind ih

theorem respectsKinds_ofChars (cs : List (Value .char)) :
  RespectsKinds (ofChars cs)
  := by
  apply RespectsKinds.get
  intro ss
  apply fold_bind
  · apply RespectsKinds.pure
  · induction cs with
    | nil => apply RespectsKinds.pure
    | cons c cs ih =>
        rw [List.foldrM_cons]
        apply ih.bind
        intro rest
        apply (respectsKinds_singleton c).bind
        intro head
        apply respectsKinds_append

theorem respectsKinds_slice :
  RespectsKinds (slice s i l)
  := compute_at .slice .bool

theorem respectsKinds_rest :
  RespectsKinds (rest s)
  := by
  apply RespectsKinds.get
  intro ss
  split
  case h_1 => apply RespectsKinds.pure
  case h_2 =>
    apply (respectsKinds_length s).bind
    intro n
    apply (compute_at .sub .int).bind
    intro count
    apply respectsKinds_slice

theorem respectsKinds_front (pastEnd : Value .bool) :
  RespectsKinds (front i s pastEnd)
  := by
  unfold front
  split
  case isTrue => apply RespectsKinds.pure
  case isFalse =>
    apply (respectsKinds_slice s _ i).bind
    intro part
    apply respectsKinds_choose

theorem respectsKinds_take :
  RespectsKinds (take i s)
  := by
  apply RespectsKinds.get
  intro ss
  apply fold_bind
  · apply RespectsKinds.pure
  · apply (compute_at .le .int).bind
    intro nonPositive
    split
    case isTrue => apply RespectsKinds.pure
    case isFalse =>
      apply (respectsKinds_length s).bind
      intro n
      apply (compute_at .ge .int).bind
      intro pastEnd
      apply (respectsKinds_front s i pastEnd).bind
      intro part
      apply respectsKinds_choose

theorem respectsKinds_back (n : Value .int) (nonPositive : Value .bool) :
  RespectsKinds (back i s n nonPositive)
  := by
  unfold back
  split
  case isTrue => apply RespectsKinds.pure
  case isFalse =>
    apply (compute_at .sub .int).bind
    intro count
    apply (respectsKinds_slice s i count).bind
    intro part
    apply respectsKinds_choose

theorem respectsKinds_drop :
  RespectsKinds (drop i s)
  := by
  apply RespectsKinds.get
  intro ss
  apply fold_bind
  · apply RespectsKinds.pure
  · apply (respectsKinds_length s).bind
    intro n
    apply (compute_at .ge .int).bind
    intro pastEnd
    split
    case isTrue => apply RespectsKinds.pure
    case isFalse =>
      apply (compute_at .le .int).bind
      intro nonPositive
      apply (respectsKinds_back s i n nonPositive).bind
      intro part
      apply respectsKinds_choose

theorem respectsKinds_replaceFirst :
  RespectsKinds (replaceFirst s t u)
  := by
  apply RespectsKinds.get
  intro ss
  split
  case isTrue => apply respectsKinds_append
  case isFalse =>
    split
    case isTrue => apply RespectsKinds.pure
    case isFalse => exact compute_at .replaceFirst .bool

theorem respectsKinds_indexOfFrom :
  RespectsKinds (indexOfFrom s t i)
  := spare _ _ (compute_at .indexOf .bool)

theorem respectsKinds_indexOf :
  RespectsKinds (indexOf s t)
  := by
  apply RespectsKinds.get
  intro ss
  apply fold_bind
  · apply RespectsKinds.pure
  · apply respectsKinds_indexOfFrom

theorem respectsKinds_isDigit :
  RespectsKinds (isDigit c)
  := by
  apply (compute_at .code .bool).bind
  intro n
  apply (compute_at .ge .int).bind
  intro low
  apply (compute_at .le .int).bind
  intro high
  apply respectsKinds_conjoin

theorem respectsKinds_isPosition :
  RespectsKinds (isPosition s i)
  := by
  apply (compute_at .le .int).bind
  intro nonNegative
  apply (respectsKinds_length s).bind
  intro n
  apply (compute_at .lt .int).bind
  intro below
  apply respectsKinds_conjoin

/-- The condition on an extracted character. -/
theorem respectsKinds_characterCondition :
  RespectsKinds (characterCondition s i c)
  := by
  apply (respectsKinds_singleton c).bind
  intro unit
  apply (respectsKinds_slice s i _).bind
  intro there
  apply (respectsKinds_equal unit there).bind
  intro same
  apply (respectsKinds_isPosition s i).bind
  intro inside
  apply (respectsKinds_negate inside).bind
  intro outside
  apply respectsKinds_disjoin

theorem respectsKinds_extract :
  RespectsKinds (extract s i)
  := by
  apply (RespectsKinds.handle s).bind
  intro string
  apply (RespectsKinds.handle i).bind
  intro position
  apply RespectsKinds.introduce
  intro c
  apply respectsKinds_characterCondition

theorem respectsKinds_charAt :
  RespectsKinds (charAt s i)
  := by
  apply RespectsKinds.get
  intro ss
  dsimp only
  split
  case h_1 => apply RespectsKinds.pure
  case h_2 => apply respectsKinds_extract

end Strings

open Logic Strings in
/-- Every operation asks for nodes only at kinds that their operators accept. -/
theorem Operation.respectsKinds_build :
    (o : Operation ks r) → (xs : Operands Value ks) → RespectsKinds (o.build xs)
  | .equal _, .two a b => respectsKinds_equal a b
  | .distinct _, .two a b => respectsKinds_distinct a b
  | .choose _, .three c t e => respectsKinds_choose c t e
  | .negate, .one a => respectsKinds_negate a
  | .conjoin, .two a b => respectsKinds_conjoin a b
  | .disjoin, .two a b => respectsKinds_disjoin a b
  | .add, .two _ _ => compute_at .add .int
  | .subtract, .two _ _ => compute_at .sub .int
  | .atMost, .two _ _ => compute_at .le .int
  | .lessThan, .two _ _ => compute_at .lt .int
  | .atLeast, .two _ _ => compute_at .ge .int
  | .greaterThan, .two _ _ => compute_at .gt .int
  | .empty, .nil => .pure _
  | .length, .one s => respectsKinds_length s
  | .isEmpty, .one s => respectsKinds_isEmpty s
  | .first, .one s => respectsKinds_charAt s _
  | .rest, .one s => respectsKinds_rest s
  | .singleton, .one c => respectsKinds_singleton c
  | .sliceAt, .two s i => respectsKinds_slice s i _
  | .charAt, .two s i => respectsKinds_charAt s i
  | .extract, .two s i => respectsKinds_extract s i
  | .ofChars _, cs => respectsKinds_ofChars cs.toList
  | .append, .two s t => respectsKinds_append s t
  | .join _, ss => respectsKinds_foldlM_append _ ss.toList
  | .contains, .two _ _ => spare _ _ (compute_at .contains .bool)
  | .startsWith, .two _ _ => spare _ _ (compute_at .startsWith .bool)
  | .endsWith, .two _ _ => spare _ _ (compute_at .endsWith .bool)
  | .take, .two i s => respectsKinds_take s i
  | .drop, .two i s => respectsKinds_drop s i
  | .slice, .three s o l => respectsKinds_slice s o l
  | .replaceFirst, .three s old new => respectsKinds_replaceFirst s old new
  | .replaceAll, .three _ _ _ => spare _ _ (compute_at .replaceAll .bool)
  | .indexOf, .two s sub => respectsKinds_indexOf s sub
  | .indexOfFrom, .three s sub start => respectsKinds_indexOfFrom s sub start
  | .toInt, .one _ => compute_at .toInt .bool
  | .ofInt, .one _ => compute_at .ofInt .bool
  | .code, .one _ => compute_at .code .bool
  | .isDigit, .one c => respectsKinds_isDigit c

end StringTerms
