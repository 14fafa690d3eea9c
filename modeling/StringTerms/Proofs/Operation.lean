import StringTerms.Proofs.Discipline
import StringTerms.Proofs.Slices

/-!
# What the operations compute

Each operation has a host function, and an operation that extracts no character reads as its host
function applied to what its operands read as.  Strings that are sliced have to be short, so that
the lengths of their slices are below the index bound.
-/

namespace StringTerms

variable {ks : List Kind} {k r : Kind} {ss : Session}

/-- The host function of an operation; a character is only given at a position of the string. -/
def Operation.host : Operation ks r → Operands Kind.Carrier ks → Option r.Carrier
  | .equal _, .two x y => some (decide (x = y))
  | .distinct _, .two x y => some (!decide (x = y))
  | .choose _, .three p x y => some (if p then x else y)
  | .negate, .one p => some (!p)
  | .conjoin, .two p q => some (p && q)
  | .disjoin, .two p q => some (p || q)
  | .add, .two m n => some (m + n)
  | .subtract, .two m n => some (m - n)
  | .atMost, .two m n => some (decide (m ≤ n))
  | .lessThan, .two m n => some (decide (m < n))
  | .atLeast, .two m n => some (decide (m ≥ n))
  | .greaterThan, .two m n => some (decide (m > n))
  | .empty, .nil => some []
  | .length, .one s => some (s.length : Int)
  | .isEmpty, .one s => some s.isEmpty
  | .first, .one s => ByteString.charAt? s 0
  | .rest, .one s => some (ByteString.drop 1 s)
  | .singleton, .one c => some [c]
  | .sliceAt, .two s i => some (ByteString.slice s i 1)
  | .charAt, .two s i => ByteString.charAt? s i
  | .extract, .two s i => ByteString.charAt? s i
  | .ofChars _, cs => some cs.toList
  | .append, .two s t => some (s ++ t)
  | .join _, ss => some ss.toList.flatten
  | .contains, .two sub s => some (ByteString.contains sub s)
  | .startsWith, .two sub s => some (ByteString.startsWith sub s)
  | .endsWith, .two sub s => some (ByteString.endsWith sub s)
  | .take, .two i s => some (ByteString.take i s)
  | .drop, .two i s => some (ByteString.drop i s)
  | .slice, .three s o l => some (ByteString.slice s o l)
  | .replaceFirst, .three s old new => some (ByteString.replaceFirst s old new)
  | .replaceAll, .three s old new => some (ByteString.replaceAll s old new)
  | .indexOf, .two s sub => some (ByteString.indexOf s sub)
  | .indexOfFrom, .three s sub start => some (ByteString.indexOfFrom s sub start)
  | .toInt, .one s => some (ByteString.toInt s)
  | .ofInt, .one n => some (ByteString.ofInt n)
  | .code, .one c => some (c.toNat : Int)
  | .isDigit, .one c => some (ByteString.isDigit c)

/-- An operation that gives no character has a value at all operands. -/
theorem Operation.host_isSome {o : Operation ks r} (plain : o.extracts = false)
    (vs : Operands Kind.Carrier ks) :
  (o.host vs).isSome
  := by
  unfold host
  split <;> first | rfl | cases plain

/-- A string is short when its characters can be counted below the index bound, as those of every
string in memory can. -/
def Operands.Short : {ks : List Kind} → Operands Kind.Carrier ks → Prop
  | _, .nil => True
  | .string :: _, .cons s vs => s.length < ByteString.indexBound ∧ vs.Short
  | _ :: _, .cons _ vs => vs.Short

/-- Operands of one kind that are values of a session are so one by one. -/
theorem Session.HoldsAll.toList {n : Nat} {xs : Operands Value (List.replicate n k)}
    (hx : ss.HoldsAll xs) :
  ∀ x ∈ xs.toList, ss.Holds x
  := by
  induction n with
  | zero =>
      cases xs
      intro x mem
      cases mem
  | succ n ih =>
      obtain _ | ⟨y, ys⟩ := xs
      intro x mem
      obtain rfl | mem := List.mem_cons.mp mem
      · apply hx.1
      · apply ih hx.2 x mem

/-- Operands of one kind are read one by one. -/
theorem Operands.ReadAs.toList {R : Reading} {n : Nat} {xs : Operands Value (List.replicate n k)}
    {vs : Operands Kind.Carrier (List.replicate n k)} (hv : xs.ReadAs R vs) :
  List.Forall₂ (Value.ReadsAs R) xs.toList vs.toList
  := by
  induction n with
  | zero =>
      cases xs
      cases vs
      apply List.Forall₂.nil
  | succ n ih =>
      obtain _ | ⟨x, xs⟩ := xs
      obtain _ | ⟨v, vs⟩ := vs
      apply List.Forall₂.cons hv.1 (ih hv.2)

section Host

variable {i j l : Kind} {a : Value i} {b : Value j} {c : Value l} {cut : Slicing}
  {x : Builder (Value r)}

/-- A function of what one operand reads as, as the host function of an operation. -/
theorem Session.Computes.of_one {o : Operation [i] r} {f : i.Carrier → r.Carrier}
    (h : ss.Computes cut x fun R v => ∃ u, a.ReadsAs R u ∧ v = f u)
    (host : ∀ u, o.host (.one u) = some (f u)) :
  ss.Computes cut x fun R v => ∃ vs, (Operands.one a).ReadAs R vs ∧ vs.Short ∧ o.host vs = some v
  := by
  apply h.weaken
  rintro R v - ⟨_ | ⟨u, _ | _⟩, ⟨hu, -⟩, -, value⟩
  use u, hu
  apply Option.some.inj (Eq.trans value.symm (host u))

/-- A function of what two operands read as, as the host function of an operation. -/
theorem Session.Computes.of_two {o : Operation [i, j] r} {f : i.Carrier → j.Carrier → r.Carrier}
    (h : ss.Computes cut x fun R v => ∃ u w, a.ReadsAs R u ∧ b.ReadsAs R w ∧ v = f u w)
    (host : ∀ u w, o.host (.two u w) = some (f u w)) :
  ss.Computes cut x fun R v => ∃ vs, (Operands.two a b).ReadAs R vs ∧ vs.Short ∧ o.host vs = some v
  := by
  apply h.weaken
  rintro R v - ⟨_ | ⟨u, _ | ⟨w, _ | _⟩⟩, ⟨hu, hw, -⟩, -, value⟩
  use u, w, hu, hw
  apply Option.some.inj (Eq.trans value.symm (host u w))

/-- A function of what three operands read as, as the host function of an operation. -/
theorem Session.Computes.of_three {o : Operation [i, j, l] r}
    {f : i.Carrier → j.Carrier → l.Carrier → r.Carrier}
    (h : ss.Computes cut x fun R v =>
      ∃ u w z, a.ReadsAs R u ∧ b.ReadsAs R w ∧ c.ReadsAs R z ∧ v = f u w z)
    (host : ∀ u w z, o.host (.three u w z) = some (f u w z)) :
  ss.Computes cut x fun R v =>
    ∃ vs, (Operands.three a b c).ReadAs R vs ∧ vs.Short ∧ o.host vs = some v
  := by
  apply h.weaken
  rintro R v - ⟨_ | ⟨u, _ | ⟨w, _ | ⟨z, _ | _⟩⟩⟩, ⟨hu, hw, hz, -⟩, -, value⟩
  use u, w, z, hu, hw, hz
  apply Option.some.inj (Eq.trans value.symm (host u w z))

end Host

open Strings in
/-- An operation reads as its host function at what its operands read as. -/
theorem Operation.computes_build (wk : ss.WellKinded) :
  (o : Operation ks r) → {xs : Operands Value ks} → ss.HoldsAll xs → o.extracts = false →
    ss.Computes ByteString.slice (o.build xs) fun R v =>
      ∃ vs, xs.ReadAs R vs ∧ vs.Short ∧ o.host vs = some v
  | .equal _, .two _ _, hx, _ => (Logic.computes_equal wk hx.1 hx.2.1).of_two fun _ _ => rfl
  | .distinct _, .two _ _, hx, _ => (Logic.computes_distinct wk hx.1 hx.2.1).of_two fun _ _ => rfl
  | .choose _, .three _ _ _, hx, _ =>
    (Logic.computes_choose wk hx.1 hx.2.1 hx.2.2.1).of_three fun _ _ _ => rfl
  | .negate, .one _, hx, _ => (Logic.computes_negate wk hx.1).of_one fun _ => rfl
  | .conjoin, .two _ _, hx, _ => (Logic.computes_conjoin wk hx.1 hx.2.1).of_two fun _ _ => rfl
  | .disjoin, .two _ _, hx, _ => (Logic.computes_disjoin wk hx.1 hx.2.1).of_two fun _ _ => rfl
  | .add, .two _ _, hx, _ => (Arithmetic.computes_add wk hx.1 hx.2.1).of_two fun _ _ => rfl
  | .subtract, .two _ _, hx, _ =>
    (Arithmetic.computes_subtract wk hx.1 hx.2.1).of_two fun _ _ => rfl
  | .atMost, .two _ _, hx, _ => (Arithmetic.computes_atMost wk hx.1 hx.2.1).of_two fun _ _ => rfl
  | .lessThan, .two _ _, hx, _ =>
    (Arithmetic.computes_lessThan wk hx.1 hx.2.1).of_two fun _ _ => rfl
  | .atLeast, .two _ _, hx, _ =>
    (Arithmetic.computes_atLeast wk hx.1 hx.2.1).of_two fun _ _ => rfl
  | .greaterThan, .two _ _, hx, _ =>
    (Arithmetic.computes_greaterThan wk hx.1 hx.2.1).of_two fun _ _ => rfl
  | .empty, .nil, _, _ => by
    apply Session.Computes.known wk
    rintro R v - ⟨⟨⟩, -, -, ⟨⟩⟩
    rfl
  | .length, .one _, hx, _ => (computes_length wk hx.1).of_one fun _ => rfl
  | .isEmpty, .one _, hx, _ => (computes_isEmpty wk hx.1).of_one fun _ => rfl
  | .rest, .one _, hx, _ => by
    apply (computes_rest Slicing.exact_slice wk hx.1).weaken
    rintro R v - ⟨_ | ⟨cs, _ | _⟩, ⟨hs, -⟩, ⟨short, -⟩, ⟨⟩⟩
    use cs, hs, short
    cases cs <;> rfl
  | .singleton, .one _, hx, _ => (computes_singleton wk hx.1).of_one fun _ => rfl
  | .sliceAt, .two _ _, hx, _ =>
    (computes_sliceAt Slicing.exact_slice wk hx.1 hx.2.1).of_two fun _ _ => rfl
  | .ofChars _, cs, hx, _ => by
    apply (computes_ofChars cs.toList wk hx.toList).weaken
    rintro R v - ⟨vs, hv, -, ⟨⟩⟩
    apply hv.toList
  | .append, .two _ _, hx, _ => (computes_append wk hx.1 hx.2.1).of_two fun _ _ => rfl
  | .join _, ts, hx, _ => by
    apply (computes_join ts.toList wk hx.toList).weaken
    rintro R v - ⟨vs, hv, -, ⟨⟩⟩
    use vs.toList, hv.toList
  | .contains, .two _ _, hx, _ => (computes_contains wk hx.1 hx.2.1).of_two fun _ _ => rfl
  | .startsWith, .two _ _, hx, _ => (computes_startsWith wk hx.1 hx.2.1).of_two fun _ _ => rfl
  | .endsWith, .two _ _, hx, _ => (computes_endsWith wk hx.1 hx.2.1).of_two fun _ _ => rfl
  | .take, .two _ _, hx, _ => by
    apply (computes_take Slicing.exact_slice wk hx.1 hx.2.1).weaken
    rintro R v - ⟨_ | ⟨m, _ | ⟨cs, _ | _⟩⟩, ⟨hi, hs, -⟩, ⟨short, -⟩, ⟨⟩⟩
    use m, cs, hi, hs, short
  | .drop, .two _ _, hx, _ => by
    apply (computes_drop Slicing.exact_slice wk hx.1 hx.2.1).weaken
    rintro R v - ⟨_ | ⟨m, _ | ⟨cs, _ | _⟩⟩, ⟨hi, hs, -⟩, ⟨short, -⟩, ⟨⟩⟩
    use m, cs, hi, hs, short
  | .slice, .three _ _ _, hx, _ => by
    apply (computes_slice Slicing.exact_slice wk hx.1 hx.2.1 hx.2.2.1).weaken
    rintro R v - ⟨_ | ⟨cs, _ | ⟨x, _ | ⟨y, _ | _⟩⟩⟩, ⟨hs, ho, hl, -⟩, ⟨short, -⟩, ⟨⟩⟩
    use cs, x, y, hs, ho, hl, bounded_of_short short
  | .replaceFirst, .three _ _ _, hx, _ =>
    (computes_replaceFirst wk hx.1 hx.2.1 hx.2.2.1).of_three fun _ _ _ => rfl
  | .replaceAll, .three _ _ _, hx, _ =>
    (computes_replaceAll wk hx.1 hx.2.1 hx.2.2.1).of_three fun _ _ _ => rfl
  | .indexOf, .two _ _, hx, _ => (computes_indexOf wk hx.1 hx.2.1).of_two fun _ _ => rfl
  | .indexOfFrom, .three _ _ _, hx, _ =>
    (computes_indexOfFrom wk hx.1 hx.2.1 hx.2.2.1).of_three fun _ _ _ => rfl
  | .toInt, .one _, hx, _ => (computes_toInt wk hx.1).of_one fun _ => rfl
  | .ofInt, .one _, hx, _ => (computes_ofInt wk hx.1).of_one fun _ => rfl
  | .code, .one _, hx, _ => (computes_code wk hx.1).of_one fun _ => rfl
  | .isDigit, .one _, hx, _ => (computes_isDigit wk hx.1).of_one fun _ => rfl

end StringTerms
