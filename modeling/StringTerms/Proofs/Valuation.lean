import StringTerms.Proofs.Interpretation

/-!
# The reading that a model gives

The values that the evaluator finds are a reading of the session, the one with the slices of the
evaluator.  So they belong to a term alone, an extension of the session keeps them, and a term has a
value, of its own kind, as soon as every variable below it has one.
-/

namespace StringTerms

variable {ss tt : Session} {M N : Model} {k : Kind}

/-- The values that the evaluator finds, as a reading. -/
def Session.reading (ss : Session) (M : Model) : Reading := fun h =>
  match ss.direct M h with
  | .ok found => found
  | .error _ => none

theorem Session.reading_eq_some_iff {h : Handle} {l : Literal} :
  ss.reading M h = some l ↔ ss.direct M h = .ok (some l)
  := by
  unfold reading
  split <;> simp_all

theorem Session.direct_eq_evaluateWith (ss : Session) (M : Model) (h : Handle) :
  ss.direct M h = ss.evaluateWith ByteString.slice M h
  := by
  rw [evaluateWith_slice, evaluate_eq_direct]

theorem Session.reading_eq_readingWith (ss : Session) (M : Model) :
  ss.reading M = ss.readingWith ByteString.slice M
  := by
  funext h
  rw [reading, direct_eq_evaluateWith]
  rfl

theorem Evaluation.gives_value_node (h : Handle) (k : Kind) :
  (value ss M (.node h)).Gives ss M (ss.direct M h >>= host h k)
  := by
  apply (Evaluator.gives_term ss M h).bind
  rintro (_ | l) -
  · apply Evaluator.gives_pure
  · simp only [host]
    cases l.as? k with
    | some v => apply Evaluator.gives_pure
    | none => apply Evaluator.gives_throw

/-- With the slices of the evaluator, a value has the host value that the evaluator finds. -/
theorem Evaluation.valueWith_slice (ss : Session) (M : Model) (x : Value k) :
  valueWith ByteString.slice ss M x = (value ss M x).answer
  := by
  cases x with
  | known v => rfl
  | node h => rw [valueWith, (gives_value_node h k).answer, Session.direct_eq_evaluateWith]

/-- A value reads as a host value exactly when the evaluator finds it. -/
theorem Evaluation.answer_value_iff {x : Value k} {v : k.Carrier} :
  (value ss M x).answer = .ok (some v) ↔ x.ReadsAs (ss.reading M) v
  := by
  rw [← valueWith_slice, valueWith_eq_some_iff, Session.reading_eq_readingWith]

/-- The values found are a reading of a well-kinded session. -/
theorem Session.WellKinded.interprets_reading (wk : ss.WellKinded) (M : Model) :
  (ss.reading M).Interprets ByteString.slice ss
  := by
  rw [reading_eq_readingWith]
  apply wk.interprets_readingWith

/-- A variable reads as its value in the model. -/
theorem Session.reading_var {h : Handle} {n : Nat} {k : Kind} {v : k.Carrier}
    (hn : ss.node? h = some (.var n k)) (hv : M.value? h = some (.of k v)) :
  ss.reading M h = some (.of k v)
  := by
  rw [reading_eq_readingWith]
  apply readingWith_var hn hv

/-- A term has a value of its kind where every variable below it has one. -/
theorem Session.WellKinded.reads_of_assigned (wk : ss.WellKinded) {k : Kind} {h : Handle}
    (hk : ss.kind? h = some k) (assigned : M.Assigns ss h) :
  ∃ v, ss.reading M h = some (.of k v)
  := by
  rw [reading_eq_readingWith]
  apply wk.readsWith_of_assigned _ hk assigned

/-- An extension keeps the values of the terms of a session. -/
theorem Session.Extends.direct (h : ss.Extends tt) (M : Model) {g : Handle}
    (hg : g.index < ss.nodes.size) :
  tt.direct M g = ss.direct M g
  := by
  rw [direct_eq_evaluateWith, direct_eq_evaluateWith, h.evaluateWith _ M hg]

theorem Session.Extends.reading (h : ss.Extends tt) (M : Model) {g : Handle}
    (hg : g.index < ss.nodes.size) :
  tt.reading M g = ss.reading M g
  := by
  rw [Session.reading, h.direct M hg, Session.reading]

/-- An extension keeps what the values of a session read as. -/
theorem Session.Extends.readsAs_iff (h : ss.Extends tt) (M : Model) {x : Value k}
    (hx : ss.Holds x) {v : k.Carrier} :
  x.ReadsAs (tt.reading M) v ↔ x.ReadsAs (ss.reading M) v
  := by
  rw [Session.reading_eq_readingWith, Session.reading_eq_readingWith]
  apply h.readsWith_iff _ M hx

end StringTerms
