import StackLift.Assembly
import StackLift.BitSet
import StackLift.Code.Basic
import StackLift.Code.Disassembly
import StackLift.CommandLine.Arguments
import StackLift.CommandLine.Commands
import StackLift.CommandLine.Directory
import StackLift.CommandLine.Script
import StackLift.Constant
import StackLift.DeadBlocks
import StackLift.Dominators
import StackLift.Dump
import StackLift.Fault
import StackLift.Graph.Basic
import StackLift.Graph.Edges
import StackLift.Graph.Stack
import StackLift.Handoff.Basic
import StackLift.Handoff.Decode
import StackLift.Handoff.Encode
import StackLift.Handoff.Flatten
import StackLift.Instruction
import StackLift.Item.Basic
import StackLift.Item.Datum
import StackLift.Item.Decode
import StackLift.Item.Head
import StackLift.Item.LogRecord
import StackLift.Item.Record
import StackLift.Lifting.Effect
import StackLift.Lifting.Error
import StackLift.Lifting.Run
import StackLift.Lifting.State
import StackLift.Lifting.Step
import StackLift.Listing.Basic
import StackLift.Listing.Document
import StackLift.Main
import StackLift.Number.Binary
import StackLift.Number.FloatLiteral
import StackLift.Number.Integer
import StackLift.Number.Shortest
import StackLift.Opcode
import StackLift.PhiCompletion
import StackLift.Proofs.BitSet
import StackLift.Proofs.Calls
import StackLift.Proofs.Catalog
import StackLift.Proofs.Checks
import StackLift.Proofs.Completion
import StackLift.Proofs.Consistency
import StackLift.Proofs.Construction
import StackLift.Proofs.Containment
import StackLift.Proofs.DeadBlocks
import StackLift.Proofs.Disassembly
import StackLift.Proofs.Discovery
import StackLift.Proofs.DominatorChain
import StackLift.Proofs.Dominators
import StackLift.Proofs.EndlessStack
import StackLift.Proofs.FiniteSets
import StackLift.Proofs.FlatStack
import StackLift.Proofs.Flaws
import StackLift.Proofs.Flow
import StackLift.Proofs.Forgetting
import StackLift.Proofs.Grammar
import StackLift.Proofs.Graph
import StackLift.Proofs.Handoff
import StackLift.Proofs.Independence
import StackLift.Proofs.Items
import StackLift.Proofs.Layout
import StackLift.Proofs.LeastDemand
import StackLift.Proofs.Linking
import StackLift.Proofs.Literals
import StackLift.Proofs.Locality
import StackLift.Proofs.OneStack
import StackLift.Proofs.Outcomes
import StackLift.Proofs.Passage
import StackLift.Proofs.Passes
import StackLift.Proofs.PhiCompletion
import StackLift.Proofs.Progress
import StackLift.Proofs.Provenance
import StackLift.Proofs.ReadBack
import StackLift.Proofs.Recompletion
import StackLift.Proofs.Refusal
import StackLift.Proofs.Rejection
import StackLift.Proofs.Restoration
import StackLift.Proofs.RoundTrip
import StackLift.Proofs.Rounding
import StackLift.Proofs.Sheets
import StackLift.Proofs.SingleChanges
import StackLift.Proofs.Spelling
import StackLift.Proofs.SsaForm
import StackLift.Proofs.Stability
import StackLift.Proofs.Stepping
import StackLift.Proofs.Stopping
import StackLift.Proofs.Termination
import StackLift.Proofs.Text
import StackLift.Proofs.Traversal
import StackLift.Proofs.Underflow
import StackLift.Proofs.WellFormed
import StackLift.Text.Basic
import StackLift.Text.Blank
import StackLift.Text.Printable
import StackLift.Text.Quoted
import StackLift.Timestamp
import StackLift.Toml.Basic
import StackLift.Toml.Document
import StackLift.Toml.Numeral
import StackLift.Toml.Quoted
import StackLift.Toml.Statement
import StackLift.Toml.Table
import StackLift.Toml.Time
import StackLift.Trace
