import CMinus.Machine.Run
import CMinus.Document.Write
import CMinus.CommandLine.FileTree
import CMinus.Main
import CMinus.Proofs.Compile
import CMinus.Proofs.Stream
import CMinus.Proofs.Backpatch
import CMinus.Proofs.Image
import CMinus.Proofs.Acceptance
import CMinus.Proofs.Layout
import CMinus.Proofs.Transfer
import CMinus.Proofs.Reference
import CMinus.Proofs.Execution
import CMinus.Proofs.Storage
import CMinus.Proofs.Related
import CMinus.Proofs.Expression
import CMinus.Proofs.Correctness
import CMinus.Proofs.Effect
import CMinus.Proofs.Pieces
import CMinus.Proofs.Climb
import CMinus.Proofs.StackHeight
import CMinus.Proofs.Cells
import CMinus.Proofs.Listing
import CMinus.Proofs.Untraced
import CMinus.Proofs.Overflow
import CMinus.Proofs.Extension
import CMinus.Proofs.Edits
import CMinus.Proofs.Boundary
import CMinus.Proofs.Literal
import CMinus.Proofs.Nesting
import CMinus.Proofs.ReadBack
import CMinus.Proofs.RoundTrip
import CMinus.Proofs.Registers
import CMinus.Proofs.Segment
import CMinus.Proofs.Evaluation
import CMinus.Proofs.Computation
import CMinus.Proofs.Comparison
import CMinus.Proofs.Coverage
import CMinus.Proofs.Filling
import CMinus.Proofs.Interleaving
import CMinus.Proofs.Recovery
import CMinus.Proofs.Displacement
import CMinus.Proofs.Freshness
import CMinus.Proofs.ArgumentGrammar
