import Treewalk.Command
import Treewalk.Diagnostic
import Treewalk.Files
import Treewalk.Grammar.Cursor
import Treewalk.Grammar.Declaration
import Treewalk.Grammar.Expression
import Treewalk.Grammar.Fault
import Treewalk.Grammar.Parse
import Treewalk.Grammar.Phrase
import Treewalk.Grammar.Routine
import Treewalk.Grammar.Statement
import Treewalk.Heap.Basic
import Treewalk.Heap.Class
import Treewalk.Heap.Frame
import Treewalk.Library.Path
import Treewalk.Library.Primitive
import Treewalk.Library.Registry
import Treewalk.Machine.Basic
import Treewalk.Machine.Channel
import Treewalk.Machine.Evaluation
import Treewalk.Machine.Interpretation
import Treewalk.Machine.Operator
import Treewalk.Main
import Treewalk.Number.Binary
import Treewalk.Number.Decimal
import Treewalk.Number.Text
import Treewalk.Program
import Treewalk.Prompt
import Treewalk.Scope.Basic
import Treewalk.Scope.Resolver
import Treewalk.Session
import Treewalk.Sorting
import Treewalk.Table
import Treewalk.Text.Blank
import Treewalk.Text.Extender
import Treewalk.Text.Quoted
import Treewalk.Text.Range
import Treewalk.Text.Search
import Treewalk.Text.Unprinted
import Treewalk.Text.Utf8
import Treewalk.Token.Basic
import Treewalk.Token.Lexer
import Treewalk.Token.Printer
import Treewalk.Tree.Basic
import Treewalk.Tree.Printer
import Treewalk.Tree.Reference
import Treewalk.Value.Basic
import Treewalk.Value.Text
import Treewalk.Proofs.Grammar.Derivation
import Treewalk.Proofs.Grammar.Motion
import Treewalk.Proofs.Grammar.Nesting
import Treewalk.Proofs.Grammar.Soundness
import Treewalk.Proofs.Grammar.Completeness
import Treewalk.Proofs.Grammar.Acceptance
import Treewalk.Proofs.Grammar.Trees
import Treewalk.Proofs.Tree.Outline
import Treewalk.Proofs.Scope.Visits
import Treewalk.Proofs.Machine.Running
import Treewalk.Proofs.Machine.Course
import Treewalk.Proofs.Machine.Conduct
import Treewalk.Proofs.Machine.Durability
import Treewalk.Proofs.Machine.Signals
import Treewalk.Proofs.Machine.Activities
import Treewalk.Proofs.Machine.Notices
import Treewalk.Proofs.Heap.Growth
import Treewalk.Proofs.Scope.Agreement
import Treewalk.Proofs.Session.Checking
import Treewalk.Proofs.Session.Histories
import Treewalk.Proofs.Session.References
import Treewalk.Proofs.Grammar.Layout
import Treewalk.Proofs.Scope.Relabeling
import Treewalk.Proofs.Heap.Relabeling
import Treewalk.Proofs.Machine.Relabeling
import Treewalk.Proofs.Session.Refusal
import Treewalk.Proofs.Grammar.Juxtaposition
import Treewalk.Proofs.Machine.Sequence
import Treewalk.Proofs.Scope.Sequence
import Treewalk.Proofs.Session.Joining
import Treewalk.Proofs.Session.Context
import Treewalk.Proofs.Scope.Jumps
import Treewalk.Proofs.Scope.Confinement
import Treewalk.Proofs.Session.Control
import Treewalk.Proofs.Heap.Lookups
import Treewalk.Proofs.Heap.Chains
import Treewalk.Proofs.Heap.Copying
import Treewalk.Proofs.Machine.Persistence
import Treewalk.Proofs.Machine.Instantiation
import Treewalk.Proofs.Session.Instances
import Treewalk.Proofs.Token.Spelling
import Treewalk.Proofs.Grammar.Naming
import Treewalk.Proofs.Scope.Receivers
import Treewalk.Proofs.Heap.Binding
import Treewalk.Proofs.Machine.Enclosure
import Treewalk.Proofs.Session.Receivers
import Treewalk.Proofs.Machine.Custody
import Treewalk.Proofs.Session.ExitCodes
import Treewalk.Proofs.Session.Superclasses
import Treewalk.Proofs.Session.Privacy
import Treewalk.Proofs.Machine.Surroundings
import Treewalk.Proofs.Session.Identities
import Treewalk.Proofs.Machine.Gauges
import Treewalk.Proofs.Machine.Activations
import Treewalk.Proofs.Machine.Readings
import Treewalk.Proofs.Session.Conversation
import Treewalk.Proofs.Text.Encoding
import Treewalk.Proofs.Token.Items
import Treewalk.Proofs.Token.Spans
import Treewalk.Proofs.Token.Respelling
import Treewalk.Proofs.Grammar.Calls
import Treewalk.Proofs.Grammar.Recovery
import Treewalk.Proofs.Grammar.Reformatting
import Treewalk.Proofs.Grammar.Forms
import Treewalk.Proofs.Machine.Phrases
import Treewalk.Proofs.Session.Operators
import Treewalk.Proofs.Scope.Bookkeeping
import Treewalk.Proofs.Grammar.Order
import Treewalk.Proofs.Scope.Advice
import Treewalk.Proofs.Session.Warnings
import Treewalk.Proofs.Heap.Alignment
import Treewalk.Proofs.Heap.Parallel
import Treewalk.Proofs.Machine.Parallel
import Treewalk.Proofs.Scope.Layers
import Treewalk.Proofs.Scope.Passing
import Treewalk.Proofs.Machine.Loop
import Treewalk.Proofs.Scope.Parting
import Treewalk.Proofs.Tree.Copies
import Treewalk.Proofs.Scope.Loops
import Treewalk.Proofs.Session.Loops
import Treewalk.Proofs.Machine.Natives
import Treewalk.Proofs.Scope.Balance
import Treewalk.Proofs.Number.Doubles
import Treewalk.Proofs.Machine.Bounds
import Treewalk.Proofs.Token.Numerals
