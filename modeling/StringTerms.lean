import StringTerms.Arithmetic
import StringTerms.ByteString.Numeral
import StringTerms.ByteString.Search
import StringTerms.ByteString.Slice
import StringTerms.Emulation
import StringTerms.Error
import StringTerms.Evaluation.Operator
import StringTerms.Evaluation.Term
import StringTerms.FiniteMap
import StringTerms.FixedPoint
import StringTerms.Folding
import StringTerms.Kind
import StringTerms.Literal
import StringTerms.Logic
import StringTerms.Model
import StringTerms.Node
import StringTerms.Operation
import StringTerms.Operator
import StringTerms.Proofs.Accounts
import StringTerms.Proofs.Closed
import StringTerms.Proofs.Closure
import StringTerms.Proofs.Computation
import StringTerms.Proofs.Conservativity
import StringTerms.Proofs.Correspondence
import StringTerms.Proofs.Course
import StringTerms.Proofs.Cutting
import StringTerms.Proofs.Discipline
import StringTerms.Proofs.Edit
import StringTerms.Proofs.Effects
import StringTerms.Proofs.Emulation
import StringTerms.Proofs.Evaluation
import StringTerms.Proofs.Execution
import StringTerms.Proofs.Expression
import StringTerms.Proofs.Extension
import StringTerms.Proofs.Extraction
import StringTerms.Proofs.GivingUp
import StringTerms.Proofs.Growth
import StringTerms.Proofs.HashConsing
import StringTerms.Proofs.InForce
import StringTerms.Proofs.Indices
import StringTerms.Proofs.Interpretation
import StringTerms.Proofs.KindSoundness
import StringTerms.Proofs.Lifting
import StringTerms.Proofs.Logic
import StringTerms.Proofs.Meaning
import StringTerms.Proofs.Monotonicity
import StringTerms.Proofs.NameSearch
import StringTerms.Proofs.Names
import StringTerms.Proofs.Numeral
import StringTerms.Proofs.Occurrences
import StringTerms.Proofs.Operation
import StringTerms.Proofs.Pinning
import StringTerms.Proofs.Printing
import StringTerms.Proofs.Progress
import StringTerms.Proofs.Questions
import StringTerms.Proofs.Quotation
import StringTerms.Proofs.Reading
import StringTerms.Proofs.Records
import StringTerms.Proofs.Reentrance
import StringTerms.Proofs.Renaming
import StringTerms.Proofs.Repetition
import StringTerms.Proofs.Replacement
import StringTerms.Proofs.RequestedKinds
import StringTerms.Proofs.Requests
import StringTerms.Proofs.Restorable
import StringTerms.Proofs.Rollback
import StringTerms.Proofs.Run
import StringTerms.Proofs.Selection
import StringTerms.Proofs.Slices
import StringTerms.Proofs.Strings
import StringTerms.Proofs.Transition
import StringTerms.Proofs.Traversal
import StringTerms.Proofs.Tree
import StringTerms.Proofs.Unspecified
import StringTerms.Proofs.Valuation
import StringTerms.Proofs.WellFormed
import StringTerms.Proofs.WellKinded
import StringTerms.Script.Answer
import StringTerms.Script.Command
import StringTerms.Script.Perform
import StringTerms.Script.Run
import StringTerms.Script.Runner
import StringTerms.Session.Assertions
import StringTerms.Session.Basic
import StringTerms.Session.Checkpoint
import StringTerms.Session.Nodes
import StringTerms.Session.Variables
import StringTerms.Smtlib.Literal
import StringTerms.Smtlib.Term
import StringTerms.Statistics
import StringTerms.Strings.Basic
import StringTerms.Strings.Character
import StringTerms.Strings.Numeral
import StringTerms.Strings.Search
import StringTerms.Strings.Slice
import StringTerms.Typing
import StringTerms.Value
