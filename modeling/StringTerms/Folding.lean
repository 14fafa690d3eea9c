import StringTerms.Value

/-!
# Folding

An operation whose operands are all known can be computed on the host, where the host function is
defined and the settings of the session allow it; this is counted as a fold and needs no node.
Otherwise `compute` makes the node of an operator, and `fold?` leaves it to its caller to build the
operation from others.
-/

namespace StringTerms

/-- The session after an operation computed on the host. -/
def Session.countFold (ss : Session) : Session :=
  { ss with statistics.folds := ss.statistics.folds + 1 }

/-- The value of a host function at operands that are all known, where folding is on and the
function is defined. -/
def fold? {α : Type} {r : Kind} (operands : Option α) (host : α → Option r.Carrier) :
    Builder (Option (Value r)) := fun ss =>
  if ss.configuration.fold then
    match operands.bind host with
    | some v => (some (.known v), ss.countFold)
    | none => (none, ss)
  else
    (none, ss)

/-- Where folding is on and the host function is defined, its value is the result. -/
theorem fold?_of_host {α : Type} {r : Kind} {operands : Option α} {host : α → Option r.Carrier}
    {ss : Session} {v : r.Carrier} (on : ss.configuration.fold = true)
    (found : operands.bind host = some v) :
  fold? operands host ss = (some (.known v), ss.countFold)
  := by
  simp [fold?, on, found]

/-- Where folding is off or the host function has no value, nothing happens. -/
theorem fold?_of_no_host {α : Type} {r : Kind} {operands : Option α} {host : α → Option r.Carrier}
    {ss : Session} (missing : ss.configuration.fold = true → operands.bind host = none) :
  fold? operands host ss = (none, ss)
  := by
  cases on : ss.configuration.fold with
  | true => simp [fold?, on, missing on]
  | false => simp [fold?, on]

/-- Either the value of the host function at known operands is the result, or nothing happens. -/
theorem fold?_cases {α : Type} {r : Kind} (operands : Option α) (host : α → Option r.Carrier)
    (ss : Session) :
  (∃ a v, operands = some a ∧ host a = some v
      ∧ fold? operands host ss = (some (.known v), ss.countFold))
    ∨ fold? operands host ss = (none, ss)
  := by
  cases on : ss.configuration.fold with
  | false =>
    right
    apply fold?_of_no_host
    simp [on]
  | true =>
    cases found : operands.bind host with
    | none => exact Or.inr (fold?_of_no_host fun _ => found)
    | some v =>
      obtain ⟨a, known, host⟩ := Option.bind_eq_some_iff.mp found
      exact Or.inl ⟨a, v, known, host, fold?_of_host on found⟩

variable {ks : List Kind}

/-- The node of an operator at the given operands. -/
def defer (r : Kind) (op : Operator) (operands : Operands Value ks) : Builder (Value r) := do
  let hs ← operands.handles
  return .node (← Session.intern op hs r)

/-- The value of the host function at the operands, or else the node of the operator. -/
def compute {r : Kind} (op : Operator) (operands : Operands Value ks)
    (host : Operands Kind.Carrier ks → Option r.Carrier) : Builder (Value r) := do
  match ← fold? (operands.known? (← get)) host with
  | some v => return v
  | none => defer r op operands

/-- Where folding is on and the host function is defined at the operands, its value is the result
and no node is built. -/
theorem compute_of_host {r : Kind} {op : Operator} {operands : Operands Value ks}
    {host : Operands Kind.Carrier ks → Option r.Carrier} {ss : Session} {v : r.Carrier}
    (on : ss.configuration.fold = true) (h : (operands.known? ss).bind host = some v) :
  compute op operands host ss = (.known v, ss.countFold)
  := by
  rw [compute, Builder.get_bind, Builder.bind_apply, fold?_of_host on h]
  rfl

/-- Where folding is off or the host function has no value, the node of the operator is built. -/
theorem compute_of_no_host {r : Kind} {op : Operator} {operands : Operands Value ks}
    {host : Operands Kind.Carrier ks → Option r.Carrier} {ss : Session}
    (h : ss.configuration.fold = true → (operands.known? ss).bind host = none) :
  compute op operands host ss = defer r op operands ss
  := by
  rw [compute, Builder.get_bind, Builder.bind_apply, fold?_of_no_host h]

end StringTerms
