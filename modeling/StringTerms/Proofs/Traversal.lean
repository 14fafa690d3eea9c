import Mathlib.Data.List.Forall2

/-!
# Traversals

What computations give on all elements of a list, one after the other; what a relation gives for
each of them; and what a computation that may fail gives after another one.
-/

namespace List

variable {α β : Type}

/-- Computations that agree on the elements of a list are the same one after the other. -/
theorem mapM_congr {m : Type → Type} [Monad m] [LawfulMonad m] {f g : α → m β} {as : List α}
    (same : ∀ a ∈ as, f a = g a) :
  as.mapM f = as.mapM g
  := by
  induction as with
  | nil => rfl
  | cons a as ih =>
      have head := same a mem_cons_self
      have tail := ih fun b mem => same b (mem_cons_of_mem a mem)
      rw [mapM_cons, mapM_cons, head, tail]

/-- A partial function has values on all of a list exactly when it has one at each element. -/
theorem mapM_eq_some_iff {f : α → Option β} {as : List α} {bs : List β} :
  as.mapM f = some bs ↔ Forall₂ (fun a b => f a = some b) as bs
  := by
  induction as generalizing bs with
  | nil => simp [eq_comm]
  | cons a as ih =>
      rw [mapM_cons, forall₂_cons_left_iff]
      simp only [← ih]
      constructor
      · intro h
        obtain ⟨b, hb, h⟩ := Option.bind_eq_some_iff.mp h
        obtain ⟨bs, hbs, h⟩ := Option.bind_eq_some_iff.mp h
        cases h
        exact ⟨b, bs, hb, hbs, rfl⟩
      · rintro ⟨b, bs, hb, hbs, rfl⟩
        rw [hb, hbs]
        rfl

/-- Values that are all there are collected. -/
theorem mapM_id_map_some (as : List α) :
  (as.map some).mapM id = some as
  := by
  rw [mapM_eq_some_iff, forall₂_map_left_iff, forall₂_same]
  exact fun a _ => rfl

/-- Elements of a list that all have related ones have a list of related ones. -/
theorem exists_forall₂ {R : α → β → Prop} {as : List α} (related : ∀ a ∈ as, ∃ b, R a b) :
  ∃ bs, Forall₂ R as bs
  := by
  induction as with
  | nil => exact ⟨[], Forall₂.nil⟩
  | cons a as ih =>
      obtain ⟨b, hb⟩ := related a mem_cons_self
      obtain ⟨bs, hbs⟩ := ih fun a mem => related a (mem_cons_of_mem _ mem)
      exact ⟨b :: bs, Forall₂.cons hb hbs⟩

/-- A function that distinguishes the elements of two lists distinguishes the lists. -/
theorem eq_of_map_eq_map {f : α → β} {as bs : List α}
    (distinct : ∀ a ∈ as, ∀ b ∈ bs, f a = f b → a = b) (same : as.map f = bs.map f) :
  as = bs
  := by
  induction as generalizing bs with
  | nil => exact (map_eq_nil_iff.mp same.symm).symm
  | cons a as ih =>
      cases bs with
      | nil => cases same
      | cons b bs =>
          obtain ⟨head, tail⟩ := cons.inj same
          rw [distinct a mem_cons_self b mem_cons_self head]
          rw [ih (fun a mem b mem' => distinct a (mem_cons_of_mem _ mem) b
            (mem_cons_of_mem _ mem')) tail]

end List

/-- A computation that goes on with the result of another one succeeds where both do. -/
theorem Except.bind_eq_ok_iff {ε α β : Type} {x : Except ε α} {f : α → Except ε β} {b : β} :
  x >>= f = .ok b ↔ ∃ a, x = .ok a ∧ f a = .ok b
  := by
  cases x with
  | error e => simp [bind, Except.bind]
  | ok a => simp [bind, Except.bind]
