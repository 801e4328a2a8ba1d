import Clausal.Main
import Clausal.Proofs.Abstraction
import Clausal.Proofs.AlphaEquivalence
import Clausal.Proofs.Composition
import Clausal.Proofs.Impossible
import Clausal.Proofs.Inference
import Clausal.Proofs.Levels
import Clausal.Proofs.LexicalScope
import Clausal.Proofs.Missing
import Clausal.Proofs.MostGeneral
import Clausal.Proofs.Motive
import Clausal.Proofs.Opacity
import Clausal.Proofs.ReadBack
import Clausal.Proofs.Recovery
import Clausal.Proofs.RoundTrip
import Clausal.Proofs.Simplification
import Clausal.Proofs.Tiling
import Clausal.Proofs.WeakHead
