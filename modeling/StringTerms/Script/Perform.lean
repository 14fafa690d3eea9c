import StringTerms.Script.Runner
import StringTerms.Smtlib.Term

/-!
# Performing actions

What each action does to the session and the surroundings of a script, and what it answers.
-/

namespace StringTerms.Script

/-- A query whose operand has been found. -/
inductive Question where
  | term (h : Handle)
  | value {k : Kind} (x : Value k)
  | assertions

/-- Finds the operand of a query; the operand of a query for a term has to be a node. -/
def question : Query → Runner Question
  | .term x => return .term (← raw x)
  | .value k x => return .value (← typed k x)
  | .assertions => return .assertions

/-- Answers a question, going on with what earlier questions have left. -/
def reply (ss : Session) (M : Model) (q : Question) : StateM Evaluation.Memo Reply := do
  match q with
  | .term h =>
    match ← (Evaluation.term ss M h).run with
    | .ok v => return .literal v
    | .error e => return .error e
  | .value (k := k) x =>
    match ← (Evaluation.value ss M x).run with
    | .ok v => return .literal (v.map (Literal.of k))
    | .error e => return .error e
  | .assertions =>
    match ← (Evaluation.assertions ss M).run with
    | .ok b => return .verdict b
    | .error e => return .error e

/-- A result that is a node. -/
def nodeAnswer (h : Handle) : Except Error Answer := .ok (.item (.handle h))

/-- Performs an action. -/
def perform : Action → Runner (Except Error Answer)
  | .literal v => nodeAnswer <$> build (Session.literal v)
  | .declare name k => nodeAnswer <$> build (Session.declare name k)
  | .fresh k => nodeAnswer <$> build (Session.fresh k)
  | .freshInternal k => nodeAnswer <$> build (Session.freshInternal k)
  | .apply op xs => do
    let hs ← rawAll xs
    return (← request (Session.apply op hs)).bind nodeAnswer
  | .intern op xs k => do
    let hs ← rawAll xs
    nodeAnswer <$> build (Session.intern op hs k)
  | .assert x => do
    let h ← raw x
    return (← request (Session.assert h)).map fun _ => .nothing
  | .assertInternal x => do
    let h ← raw x
    return (← request (Session.assertInternal h)).map fun _ => .nothing
  | .checkpoint name => do
    let cp := (← get).checkpoint
    modifyThe Surroundings fun w => { w with checkpoints := w.checkpoints.insert name cp }
    return .ok .nothing
  | .rollback name => do
    match (← getThe Surroundings).checkpoints.get? name with
    | some cp => return (← request (Session.rollback cp)).map fun _ => .nothing
    | none => throw (.unknownCheckpoint name)
  | .emulated op xs => do
    let hs ← rawAll xs
    match (← get).emulated? op hs with
    | some h => return nodeAnswer h
    | none => return .ok .nothing
  | .describe x => do
    let h ← raw x
    return .ok (.description (describe (← get) h))
  | .variableRecord number => return .ok (.record ((← get).variableRecord? number))
  | .userVariables => return .ok (.records (← get).userVariables)
  | .userAssertions => return .ok (.handles (← get).userAssertions)
  | .statistics => return .ok (.statistics (← get).statistics)
  | .isEmpty => return .ok (.flag (← get).nodes.isEmpty)
  | .text x => do
    let h ← raw x
    return .ok (.text (Smtlib.term (← get) h))
  | .item x => return .ok (.item (← resolve x))
  | .handle x => return nodeAnswer (← raw x)
  | .view k x => do
    let v ← typed k x
    return .ok (.view ((v.known? (← get)).map (Literal.of k)) v.node?)
  | @Action.operate ks _ o xs => do
    let operands ← typedAll ks xs
    return .ok (.item (.ofValue (← build (o.build operands))))
  | .defer op k xs => do
    let operands ← typedAll (op.operandKinds k) xs
    return .ok (.item (.ofValue (← build (StringTerms.defer (op.kindAt k) op operands))))
  | .resetModel => do
    let _ ← changeModel fun _ => {}
    return .ok .nothing
  | .assign x v => do
    let h ← raw x
    return .ok (.count (← changeModel (·.assign h v)).size)
  | .set (k := k) x v => do
    let x ← typed k x
    return .ok (.count (← changeModel (·.set x v)).size)
  | .modelValue x => do
    let h ← raw x
    let M := (← getThe Surroundings).model
    return .ok (.modelValue (M.value? h) M.size M.isEmpty)
  | .evaluate x => do
    let h ← raw x
    return ((← get).evaluate (← getThe Surroundings).model h).map .foundLiteral
  | .satisfied => do
    return ((← get).satisfiedBy (← getThe Surroundings).model).map .verdict
  | .evaluator queries => do
    let questions ← queries.mapM question
    let ss ← get
    let M := (← getThe Surroundings).model
    return .ok (.replies ((questions.mapM (reply ss M)).run ∅).1)

end StringTerms.Script
