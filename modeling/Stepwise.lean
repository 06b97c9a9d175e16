import Stepwise.Builtin.Arguments
import Stepwise.Builtin.Arithmetic
import Stepwise.Builtin.Call
import Stepwise.Builtin.Compiling
import Stepwise.Builtin.Conversions
import Stepwise.Builtin.Dates
import Stepwise.Builtin.Host
import Stepwise.Builtin.Install
import Stepwise.Builtin.Name
import Stepwise.Builtin.Numeral
import Stepwise.Builtin.Sequence
import Stepwise.Builtin.Texts
import Stepwise.Builtin.Wrapping
import Stepwise.Calendar.Day
import Stepwise.Calendar.Form
import Stepwise.Calendar.Reader
import Stepwise.Calendar.Time
import Stepwise.Config
import Stepwise.Evaluator
import Stepwise.Failure
import Stepwise.Json.Basic
import Stepwise.Json.Reader
import Stepwise.Json.Writer
import Stepwise.Machine.Action
import Stepwise.Machine.Begin
import Stepwise.Machine.Calling
import Stepwise.Machine.Enumeration
import Stepwise.Machine.Frame
import Stepwise.Machine.Invoke
import Stepwise.Machine.Literal
import Stepwise.Machine.Place
import Stepwise.Machine.Resume
import Stepwise.Machine.Stack
import Stepwise.Machine.Step
import Stepwise.Number.Decimal
import Stepwise.Number.Digits
import Stepwise.Number.Double
import Stepwise.Number.Dyadic
import Stepwise.Number.Elementary.Arc
import Stepwise.Number.Elementary.Circular
import Stepwise.Number.Elementary.Exponential
import Stepwise.Number.Elementary.Quarters
import Stepwise.Number.Elementary.Words
import Stepwise.Number.Layout
import Stepwise.Number.Radix
import Stepwise.Number.Reading
import Stepwise.Number.Shortest
import Stepwise.Number.Whole
import Stepwise.Proofs.Arena
import Stepwise.Proofs.Counts
import Stepwise.Proofs.Discipline
import Stepwise.Proofs.Evaluation
import Stepwise.Proofs.Execution
import Stepwise.Proofs.Expressions
import Stepwise.Proofs.Follows
import Stepwise.Proofs.Forwarding
import Stepwise.Proofs.Grammar
import Stepwise.Proofs.Instants
import Stepwise.Proofs.Jumps
import Stepwise.Proofs.Keeping
import Stepwise.Proofs.Lexical
import Stepwise.Proofs.Library
import Stepwise.Proofs.Limits
import Stepwise.Proofs.Moves
import Stepwise.Proofs.Referring
import Stepwise.Proofs.Roles
import Stepwise.Proofs.Runs
import Stepwise.Proofs.Start
import Stepwise.Proofs.Statements
import Stepwise.Proofs.Structured
import Stepwise.Proofs.Towers
import Stepwise.Store.Basic
import Stepwise.Store.Chain
import Stepwise.Store.Compare
import Stepwise.Store.Convert
import Stepwise.Store.Depict
import Stepwise.Store.Key
import Stepwise.Store.Object
import Stepwise.Store.Operate
import Stepwise.Store.Properties
import Stepwise.Store.Read
import Stepwise.Store.Scope
import Stepwise.Store.Snapshot
import Stepwise.Store.Write
import Stepwise.Text.Blank
import Stepwise.Text.Case
import Stepwise.Text.CaseTable
import Stepwise.Text.Escape
import Stepwise.Text.Search
import Stepwise.Text.Units
import Stepwise.Tree.Build
import Stepwise.Tree.Decode
import Stepwise.Tree.Node
import Stepwise.Tree.Operator
import Stepwise.Value
import Stepwise.Proofs.Hosting
import Stepwise.Proofs.Compound
import Stepwise.Proofs.Labels
import Stepwise.Proofs.History
import Stepwise.Proofs.Lengths
import Stepwise.Proofs.Permanence
import Stepwise.Proofs.Chains
import Stepwise.Proofs.Initializers
import Stepwise.Proofs.Enumerations
import Stepwise.Proofs.Names
import Stepwise.Proofs.Iterations
import Stepwise.Proofs.Variables
import Stepwise.Proofs.Constructions
import Stepwise.Proofs.Joining
import Stepwise.Proofs.Queues
import Stepwise.Proofs.Splices
import Stepwise.Proofs.Orders
import Stepwise.Proofs.Positions
import Stepwise.Proofs.Searches
import Stepwise.Proofs.Growing
import Stepwise.Proofs.Comparisons
import Stepwise.Proofs.Spellings
import Stepwise.Proofs.Receivers
import Stepwise.Proofs.Escapes
import Stepwise.Proofs.Compositions
import Stepwise.Proofs.Pieces
import Stepwise.Proofs.Unescaping
import Stepwise.Proofs.Validity
import Stepwise.Proofs.Literals
import Stepwise.Proofs.Layouts
import Stepwise.Proofs.Expansions
import Stepwise.Proofs.Stamps
import Stepwise.Proofs.Matches
import Stepwise.Proofs.Carries
