import Splice.Program.Edit
import Splice.Program.Version
import Splice.Proofs.Chain.Adjust
import Splice.Proofs.Chain.Order
import Splice.Proofs.Chain.Splicing
import Splice.Proofs.Chain.References
import Splice.Proofs.Chain.Replacement
import Splice.Proofs.Chain.Bystanders
import Splice.Proofs.Redirects
import Splice.Proofs.Instruction.Displacement
import Splice.Proofs.Program.Session
import Splice.Proofs.Program.Check
import Splice.Proofs.Program.Shift
import Splice.Proofs.Program.Writing
import Splice.Proofs.Program.Update
import Splice.Proofs.Program.Settle
import Splice.Proofs.Program.Splicing
import Splice.Proofs.Program.Substitution
import Splice.Proofs.Program.Edits
import Splice.Proofs.Program.Excision
import Splice.Proofs.Program.Removal
import Splice.Proofs.Program.Layout
import Splice.Proofs.Program.Ownership
import Splice.Proofs.Program.Pending
import Splice.Proofs.Program.Arrangement
import Splice.Proofs.Program.InPlace
import Splice.Proofs.Program.Relayout
import Splice.Proofs.Instruction.Promotion
import Splice.Proofs.Program.Passes
import Splice.Proofs.Program.Widening
import Splice.Proofs.Program.Finalize
import Splice.Proofs.Program.Rewriting
import Splice.Proofs.Program.Following
import Splice.Proofs.Program.Agreement
import Splice.Proofs.Symbol.Ties
import Splice.Proofs.Program.Tracking
import Splice.Proofs.Symbol.Table
import Splice.Proofs.Symbol.Linking
import Splice.Proofs.Chain.Packing
import Splice.Proofs.Program.History
import Splice.Proofs.Chain.Answering
import Splice.Proofs.Symbol.Noting
import Splice.Proofs.Program.BackReferences
import Splice.Proofs.Block.Shape
import Splice.Proofs.Block.Tree
import Splice.Proofs.Block.Growth
import Splice.Proofs.Block.Graph
import Splice.Proofs.Block.Sequence
import Splice.Proofs.Block.Partition
import Splice.Proofs.Block.Division
import Splice.Proofs.Block.Halving
import Splice.Proofs.Program.Searching
import Splice.Proofs.Block.Upkeep
import Splice.Proofs.Program.Blocks
import Splice.Proofs.Block.Construction
import Splice.Proofs.Program.Building
import Splice.Proofs.Block.Entry
import Splice.Proofs.Program.BlockSplices
import Splice.Proofs.Program.BlockWork
import Splice.Proofs.Program.Lookup
import Splice.Proofs.Block.Ordered
import Splice.Proofs.Digraph.Walks
import Splice.Proofs.Digraph.BackEdges
import Splice.Proofs.Block.Flow
import Splice.Proofs.Block.Linking
import Splice.Proofs.Block.Tagging
import Splice.Proofs.Block.Loops
import Splice.Proofs.Block.Leaders
import Splice.Proofs.Block.ControlFlow
import Splice.Proofs.Block.Transfers
import Splice.Proofs.Program.Ascent
import Splice.Proofs.Program.Landing
import Splice.Proofs.Program.Rebuilding
import Splice.Proofs.Redirects.Calls
import Splice.Proofs.Redirects.Replacement
import Splice.Proofs.Chain.CrossReferences
import Splice.Proofs.Chain.Acceptance
import Splice.Proofs.Chain.Calls
import Splice.Proofs.Chain.Rebuilding
import Splice.Proofs.Program.Stamping
import Splice.Proofs.Symbol.Grouping
import Splice.Proofs.Symbol.Runs
import Splice.Proofs.Symbol.Annotation
import Splice.Proofs.Program.Loading
import Splice.Proofs.Program.Copying
import Splice.Proofs.Program.Forking
import Splice.Proofs.Symbol.Reading
import Splice.Proofs.Digraph.Accounts
import Splice.Proofs.Digraph.Tours
import Splice.Proofs.Digraph.Stopping
import Splice.Proofs.Digraph.Visits
import Splice.Proofs.Instruction.Coding
import Splice.Proofs.Program.Recoding
import Splice.Proofs.Program.Insertions
import Splice.Proofs.Program.Inserting
import Splice.Proofs.Program.Bounding
import Splice.Proofs.Program.Pointing
import Splice.Proofs.Program.Commuting
import Splice.Proofs.Program.Destinations
import Splice.Proofs.Block.LoopTags
import Splice.Proofs.Program.LoopTags
import Splice.Proofs.Program.LocalShift
import Splice.Proofs.Program.Unwidened
import Splice.Proofs.Program.GainAndLoss
import Splice.Proofs.Program.Undoing
import Splice.Proofs.Program.Withdrawal
import Splice.Proofs.Program.Atomicity
import Splice.Proofs.Program.Convergence
import Splice.Proofs.Block.Foreign
import Splice.Proofs.Symbol.Naming
import Splice.Proofs.Symbol.Wiring
import Splice.Proofs.Symbol.Unanimity
import Splice.Proofs.Program.Duplicates
import Splice.Proofs.Program.RoundTrip
import Splice.Proofs.Chain.Repacking
import Splice.Proofs.Chain.Detached
import Splice.Proofs.Program.InputStarts
import Splice.Proofs.Program.InputRanges
import Splice.Proofs.Program.LongForm
import Splice.Proofs.Program.ChainCheck
import Splice.Proofs.Digraph.Reversal
import Splice.Proofs.Block.TwoWay
import Splice.Proofs.Block.Transposition
import Splice.Proofs.Program.Transposition
import Splice.Proofs.Redirects.Log
import Splice.Proofs.Program.RedirectLog
import Splice.Redirect.Index
import Splice.Proofs.Redirects.Sources
import Splice.Proofs.Program.Affected
