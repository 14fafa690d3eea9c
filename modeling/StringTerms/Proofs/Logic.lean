import StringTerms.Arithmetic
import StringTerms.Logic
import StringTerms.Proofs.Computation

/-!
# What the integer and Boolean operations compute

Each operation reads as its host function applied to what the operands read as, whether it is
folded, decided by one operand, or made a node.
-/

namespace StringTerms

variable {cut : Slicing} {ss : Session} {k : Kind}

namespace Arithmetic

variable {a b : Value .int}

theorem computes_add (wk : ss.WellKinded) (ha : ss.Holds a) (hb : ss.Holds b) :
  ss.Computes cut (add a b) fun R v => ∃ x y, a.ReadsAs R x ∧ b.ReadsAs R y ∧ v = x + y
  := wk.computes_two ha hb .int rfl rfl (fun _ _ => rfl) (fun _ _ => rfl)

theorem computes_subtract (wk : ss.WellKinded) (ha : ss.Holds a) (hb : ss.Holds b) :
  ss.Computes cut (subtract a b) fun R v => ∃ x y, a.ReadsAs R x ∧ b.ReadsAs R y ∧ v = x - y
  := wk.computes_two ha hb .int rfl rfl (fun _ _ => rfl) (fun _ _ => rfl)

theorem computes_atMost (wk : ss.WellKinded) (ha : ss.Holds a) (hb : ss.Holds b) :
  ss.Computes cut (atMost a b) fun R v =>
    ∃ x y, a.ReadsAs R x ∧ b.ReadsAs R y ∧ v = decide (x ≤ y)
  := wk.computes_two ha hb .int rfl rfl (fun _ _ => rfl) (fun _ _ => rfl)

theorem computes_lessThan (wk : ss.WellKinded) (ha : ss.Holds a) (hb : ss.Holds b) :
  ss.Computes cut (lessThan a b) fun R v =>
    ∃ x y, a.ReadsAs R x ∧ b.ReadsAs R y ∧ v = decide (x < y)
  := wk.computes_two ha hb .int rfl rfl (fun _ _ => rfl) (fun _ _ => rfl)

theorem computes_atLeast (wk : ss.WellKinded) (ha : ss.Holds a) (hb : ss.Holds b) :
  ss.Computes cut (atLeast a b) fun R v =>
    ∃ x y, a.ReadsAs R x ∧ b.ReadsAs R y ∧ v = decide (x ≥ y)
  := wk.computes_two ha hb .int rfl rfl (fun _ _ => rfl) (fun _ _ => rfl)

theorem computes_greaterThan (wk : ss.WellKinded) (ha : ss.Holds a) (hb : ss.Holds b) :
  ss.Computes cut (greaterThan a b) fun R v =>
    ∃ x y, a.ReadsAs R x ∧ b.ReadsAs R y ∧ v = decide (x > y)
  := wk.computes_two ha hb .int rfl rfl (fun _ _ => rfl) (fun _ _ => rfl)

end Arithmetic

namespace Logic

variable {a b c : Value .bool} {x y : Value k}

theorem valueWith_eq (u w : k.Carrier) :
  Operator.eq.valueWith cut [.of k u, .of k w] = .ok (.bool (decide (u = w)))
  := by
  have same : Literal.of k u = Literal.of k w ↔ u = w :=
    ⟨Literal.of_injective, congrArg (Literal.of k)⟩
  simp [Operator.valueWith, Operator.valueAt, same]

theorem valueWith_ite (p : Bool) (u w : k.Carrier) :
  Operator.ite.valueWith cut [.bool p, .of k u, .of k w] = .ok (.of k (if p then u else w))
  := by
  cases p <;> rfl

/-- Values that are one node read alike. -/
theorem reads_same_of_sameNode {R : Reading} {u v : k.Carrier} (h : sameNode x y = true)
    (hu : x.ReadsAs R u) (hv : y.ReadsAs R v) :
  u = v
  := by
  cases x with
  | known => cases h
  | node g =>
      cases y with
      | known => cases h
      | node g' =>
          obtain rfl : g = g' := by simpa [sameNode] using h
          apply hu.unique hv

theorem computes_equal (wk : ss.WellKinded) (hx : ss.Holds x) (hy : ss.Holds y) :
  ss.Computes cut (equal x y) fun R v =>
    ∃ u w, x.ReadsAs R u ∧ y.ReadsAs R w ∧ v = decide (u = w)
  := by
  unfold equal
  split
  case isTrue same =>
    apply Session.Computes.known wk
    rintro R v - ⟨u, w, hu, hw, rfl⟩
    symm
    apply decide_eq_true (reads_same_of_sameNode same hu hw)
  case isFalse =>
    apply wk.computes_two hx hy k rfl rfl (fun _ _ => rfl)
    apply valueWith_eq

theorem computes_negate (wk : ss.WellKinded) (ha : ss.Holds a) :
  ss.Computes cut (negate a) fun R v => ∃ p, a.ReadsAs R p ∧ v = !p
  := wk.computes_one ha .bool rfl rfl (fun _ => rfl) (fun _ => rfl)

theorem computes_distinct (wk : ss.WellKinded) (hx : ss.Holds x) (hy : ss.Holds y) :
  ss.Computes cut (distinct x y) fun R v =>
    ∃ u w, x.ReadsAs R u ∧ y.ReadsAs R w ∧ v = !decide (u = w)
  := by
  apply (computes_equal wk hx hy).bind
  intro e tt _ wk' he
  apply (computes_negate wk' he).weaken
  rintro R v - ⟨reads, u, w, hu, hw, rfl⟩
  use decide (u = w), reads ⟨u, w, hu, hw, rfl⟩

/-- The conjunction reads as that of the operands. -/
theorem computes_conjoin (wk : ss.WellKinded) (ha : ss.Holds a) (hb : ss.Holds b) :
  ss.Computes cut (conjoin a b) fun R v => ∃ p q, a.ReadsAs R p ∧ b.ReadsAs R q ∧ v = (p && q)
  := by
  apply Session.Computes.get
  split
  case h_1 left =>
    apply Session.Computes.known wk
    rintro R v hR ⟨p, q, hp, -, rfl⟩
    simp [hp.eq_known hR left]
  case h_2 right _ =>
    apply Session.Computes.known wk
    rintro R v hR ⟨p, q, -, hq, rfl⟩
    simp [hq.eq_known hR right]
  case h_3 left _ =>
    apply Session.Computes.value wk hb
    rintro R v hR ⟨p, q, hp, hq, rfl⟩
    simpa [hp.eq_known hR left] using hq
  case h_4 right _ _ =>
    apply Session.Computes.value wk ha
    rintro R v hR ⟨p, q, hp, hq, rfl⟩
    simpa [hq.eq_known hR right] using hp
  case h_5 =>
    apply wk.computes_two ha hb .bool rfl rfl (fun _ _ => rfl)
    rintro (_ | _) (_ | _) <;> rfl

/-- The disjunction reads as that of the operands. -/
theorem computes_disjoin (wk : ss.WellKinded) (ha : ss.Holds a) (hb : ss.Holds b) :
  ss.Computes cut (disjoin a b) fun R v => ∃ p q, a.ReadsAs R p ∧ b.ReadsAs R q ∧ v = (p || q)
  := by
  apply Session.Computes.get
  split
  case h_1 left =>
    apply Session.Computes.known wk
    rintro R v hR ⟨p, q, hp, -, rfl⟩
    simp [hp.eq_known hR left]
  case h_2 right _ =>
    apply Session.Computes.known wk
    rintro R v hR ⟨p, q, -, hq, rfl⟩
    simp [hq.eq_known hR right]
  case h_3 left _ =>
    apply Session.Computes.value wk hb
    rintro R v hR ⟨p, q, hp, hq, rfl⟩
    simpa [hp.eq_known hR left] using hq
  case h_4 right _ _ =>
    apply Session.Computes.value wk ha
    rintro R v hR ⟨p, q, hp, hq, rfl⟩
    simpa [hq.eq_known hR right] using hp
  case h_5 =>
    apply wk.computes_two ha hb .bool rfl rfl (fun _ _ => rfl)
    rintro (_ | _) (_ | _) <;> rfl

/-- The conditional reads as the selected branch. -/
theorem computes_choose (wk : ss.WellKinded) (hc : ss.Holds c) (hx : ss.Holds x)
    (hy : ss.Holds y) :
  ss.Computes cut (choose c x y) fun R v =>
    ∃ p u w, c.ReadsAs R p ∧ x.ReadsAs R u ∧ y.ReadsAs R w ∧ v = if p then u else w
  := by
  apply Session.Computes.get
  split
  case h_1 holds =>
    apply Session.Computes.value wk hx
    rintro R v hR ⟨p, u, w, hp, hu, -, rfl⟩
    simpa [hp.eq_known hR holds] using hu
  case h_2 fails =>
    apply Session.Computes.value wk hy
    rintro R v hR ⟨p, u, w, hp, -, hw, rfl⟩
    simpa [hp.eq_known hR fails] using hw
  case h_3 =>
    split
    case isTrue same =>
      subst same
      apply Session.Computes.value wk hx
      rintro R v - ⟨p, u, w, -, hu, hw, rfl⟩
      simpa [hu.unique hw] using hw
    case isFalse =>
      have held : ss.HoldsAll (.three c x y) := ⟨hc, hx, hy, trivial⟩
      apply (wk.computes_defer held k rfl rfl).weaken
      rintro R v - ⟨p, u, w, hp, hu, hw, rfl⟩
      use .three p u w, ⟨hp, hu, hw, trivial⟩
      apply valueWith_ite

end Logic

end StringTerms
