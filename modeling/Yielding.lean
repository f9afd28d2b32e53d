import Yielding.Computation.Scripted
import Yielding.Main
import Yielding.Proofs.Typing.Common
import Yielding.Proofs.Flow.Divergence
import Yielding.Proofs.Scanning.Recovery
import Yielding.Proofs.Computation.Tasks
import Yielding.Proofs.Suspending.Observed
import Yielding.Proofs.Lowering.Swaps
import Yielding.Proofs.Rendering.Keywords
import Yielding.Proofs.Rendering.Targets
import Yielding.Proofs.Rendering.Work
import Yielding.Proofs.Lowering.Settled
import Yielding.Proofs.Lowering.Scopes
import Yielding.Proofs.Typing.Algebra
import Yielding.Proofs.Borrow.Insertion
import Yielding.Proofs.Borrow.Chains
import Yielding.Proofs.Filling.Braces
import Yielding.Proofs.Typing.Spelling
import Yielding.Proofs.CommandLine.Outputs
import Yielding.Proofs.Regions.Nesting
import Yielding.Proofs.Rendering.Literals
import Yielding.Proofs.Rendering.Capture
import Yielding.Proofs.Matching.Agreement
import Yielding.Proofs.Dividing.Truncation
