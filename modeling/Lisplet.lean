import Lisplet.Main
import Lisplet.Proofs.RoundTrip
import Lisplet.Proofs.Isolation
import Lisplet.Proofs.CheckedRuns
import Lisplet.Proofs.DepthLimit
import Lisplet.Proofs.Expansion
import Lisplet.Proofs.Termination
import Lisplet.Proofs.Tiling
import Lisplet.Proofs.Joining
import Lisplet.Proofs.Prompt
import Lisplet.Proofs.Inlining
import Lisplet.Proofs.MacroFree
import Lisplet.Proofs.Reprinting
import Lisplet.Proofs.Representation
import Lisplet.Proofs.Qualification
import Lisplet.Proofs.FreshSymbols
import Lisplet.Proofs.Quasiquote
import Lisplet.Proofs.Numerals
import Lisplet.Proofs.Pulling
import Lisplet.Proofs.Aliases
import Lisplet.Proofs.Applying
import Lisplet.Proofs.Comparisons
import Lisplet.Proofs.NormalForm
