import Parvar.Bounds.Basic
import Parvar.Bounds.FloatInterval
import Parvar.Bounds.Floats
import Parvar.Bounds.Integers
import Parvar.Bounds.Interval
import Parvar.Bounds.Run
import Parvar.Bounds.Sets
import Parvar.Checked
import Parvar.Coercion
import Parvar.Decimal.Shortest
import Parvar.Eval.Array
import Parvar.Eval.Basic
import Parvar.Eval.Binding
import Parvar.Eval.Builtin
import Parvar.Eval.Call
import Parvar.Eval.Comprehension
import Parvar.Eval.Error
import Parvar.Eval.Operator
import Parvar.Eval.Residual
import Parvar.Eval.Run
import Parvar.Eval.Show
import Parvar.Eval.Value
import Parvar.Halt
import Parvar.IntSet.Basic
import Parvar.Library
import Parvar.Model.Basic
import Parvar.Model.Build
import Parvar.Model.Equal
import Parvar.Model.Items
import Parvar.Model.Node
import Parvar.Operator
import Parvar.Overload
import Parvar.Proofs.Model.Lookup
import Parvar.Resolve.Basic
import Parvar.Resolve.Walk
import Parvar.Span
import Parvar.Text.Escaped
import Parvar.Text.Quoted
import Parvar.Ty.Basic
import Parvar.Ty.Code
import Parvar.Ty.Subtype
import Parvar.Ty.Text
import Parvar.Typing.Basic
import Parvar.Typing.Check
import Parvar.Typing.Error
import Parvar.Typing.Item
import Parvar.Typing.Rules
import Parvar.Typing.Walk
import Parvar.Proofs.Eval.Frame
import Parvar.Proofs.Bounds.Fuel
import Parvar.Proofs.Bounds.Interval
import Parvar.Proofs.Bounds.Reached
import Parvar.Proofs.Bounds.Sets
import Parvar.Proofs.Bounds.Sound
import Parvar.Proofs.Bounds.Values
import Parvar.Proofs.Model.Extension
import Parvar.Proofs.Resolve.Items
import Parvar.Proofs.Typing.Regime
import Parvar.Proofs.Typing.Order
import Parvar.Proofs.Eval.Restored
import Parvar.Proofs.Eval.Refinement
import Parvar.Proofs.Eval.Memory
import Parvar.Proofs.Resolve.Scoping
import Parvar.Proofs.Typing.Acyclic
import Parvar.Proofs.Typing.Complete
import Parvar.Proofs.Typing.Completion
import Parvar.Proofs.Typing.Assigned
import Parvar.Proofs.Resolve.Rebinds
import Parvar.Proofs.Typing.Clean
import Parvar.Proofs.Model.Stocked
import Parvar.Proofs.Typing.Prepared
import Parvar.Proofs.Arithmetic.Tree
import Parvar.Proofs.Arithmetic.Elaboration
import Parvar.Proofs.Arithmetic.Typed
import Parvar.Proofs.Arithmetic.Exact
import Parvar.Proofs.Eval.Divergence
import Parvar.Proofs.IntSet.Membership
import Parvar.Proofs.Typing.Stable
import Parvar.Proofs.Typing.Sorted
import Parvar.Proofs.Resolve.Circular
import Parvar.Proofs.Typing.Finishing
import Parvar.Proofs.Ty.Code
import Parvar.Proofs.Typing.Declaring
import Parvar.Proofs.Typing.Specific
import Parvar.Proofs.Typing.Coercible
import Parvar.Proofs.Typing.Arguments
import Parvar.Proofs.Typing.Idempotent
import Parvar.Proofs.Ty.Subtype
import Parvar.Proofs.Eval.Domains
import Parvar.Proofs.Typing.Conditional
import Parvar.Proofs.Typing.Sealing
import Parvar.Proofs.Eval.Depth
import Parvar.Proofs.Typing.Confined
import Parvar.Proofs.Typing.LateAssignment
import Parvar.Proofs.Eval.Loops
import Parvar.Proofs.Eval.Canonical
import Parvar.Proofs.Resolve.Balance
import Parvar.Proofs.Model.Traversal
import Parvar.Proofs.Eval.SetQueries
import Parvar.Proofs.Model.Compaction
import Parvar.Proofs.Model.Links
import Parvar.Proofs.Model.Equality
import Parvar.Proofs.Eval.RowMajor
