import StringTerms.Session.Basic
import StringTerms.Typing

/-!
# Building nodes

Literals and applications are shared: a request for a node that the table knows is answered by its
handle, and any other request adds the node to the arena and to the table.  `intern` trusts its
caller about the kinds, `apply` checks the operands first.
-/

namespace StringTerms

/-- A request that the session may refuse. -/
abbrev Request := ExceptT Error Builder

/-- A request that looks at the session continues with what it sees. -/
theorem Request.run_get_bind {α : Type} (f : Session → Request α) (ss : Session) :
  (get >>= f : Request α).run ss = (f ss).run ss
  := rfl

namespace Session

/-- The handle that the next node gets. -/
def next (ss : Session) : Handle := ⟨ss.nodes.size⟩

/-- The session after a request that the table answered. -/
def countHit (ss : Session) : Session :=
  { ss with statistics.hits := ss.statistics.hits + 1 }

/-- The session with one more node, which the table knows. -/
def addShared (ss : Session) (node : Node) : Session :=
  { ss with
    nodes := ss.nodes.push node
    table := ss.table.insert node ss.next
    statistics.nodes := ss.statistics.nodes + 1 }

/-- The handle of a literal or an application. -/
def share (node : Node) : Builder Handle := fun ss =>
  match ss.table.get? node with
  | some h => (h, ss.countHit)
  | none => (ss.next, ss.addShared node)

/-- A node of an extended arena is the new one or was there before. -/
theorem node?_addShared (ss : Session) (node : Node) (h : Handle) :
  (ss.addShared node).node? h = if h = ss.next then some node else ss.node? h
  := by
  obtain ⟨i⟩ := h
  simp [addShared, node?, next, Array.getElem?_push]

/-- A node that the table knows is not built again. -/
theorem share_of_known {ss : Session} {node : Node} {h : Handle}
    (known : ss.table.get? node = some h) :
  share node ss = (h, ss.countHit)
  := by
  simp [share, known]

/-- A node that the table does not know gets the next handle. -/
theorem share_of_new {ss : Session} {node : Node} (new : ss.table.get? node = none) :
  share node ss = (ss.next, ss.addShared node)
  := by
  simp [share, new]

/-- The node of a literal. -/
def literal (v : Literal) : Builder Handle := share (.literal v)

/-- The node of an application, whatever the kinds of the operands are. -/
def intern (op : Operator) (operands : List Handle) (k : Kind) : Builder Handle :=
  share (.application op operands k)

/-- The kinds of nodes; the first handle that names no node is an error. -/
def kinds (ss : Session) : List Handle → Except Error (List Kind)
  | [] => pure []
  | h :: hs => do
    match ss.kind? h with
    | some k => return k :: (← ss.kinds hs)
    | none => throw (.unknownHandle h)

/-- The node of an application whose operands are nodes of the right kinds. -/
def apply (op : Operator) (operands : List Handle) : Request Handle := do
  let ss ← get
  let found ← ss.kinds operands
  let k ← op.resultKind found
  intern op operands k

end Session

end StringTerms
