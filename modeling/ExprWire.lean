import ExprWire.Container.Json
import ExprWire.Log.Traced
import ExprWire.Proofs.Detour
import ExprWire.Proofs.Effect
import ExprWire.Proofs.History
import ExprWire.Proofs.Failure
import ExprWire.Proofs.Streaming
import ExprWire.Proofs.Compaction
import ExprWire.Proofs.Identity
import ExprWire.Proofs.Probing
import ExprWire.Proofs.Reserialization
import ExprWire.Proofs.Safety
import ExprWire.Proofs.Twins
import ExprWire.Proofs.Damage
import ExprWire.Proofs.Grammar
import ExprWire.Proofs.Rendition
import ExprWire.Proofs.Losses
import ExprWire.Proofs.Support
import ExprWire.Proofs.Blame
import ExprWire.Proofs.Traversal
import ExprWire.Proofs.Rendering
import ExprWire.Proofs.Folding
import ExprWire.Proofs.Reinference
import ExprWire.Proofs.SignatureGrammar
import ExprWire.Proofs.SignedChecksum
import ExprWire.Proofs.TypeTable
import ExprWire.Proofs.References
import ExprWire.Proofs.Storage
import ExprWire.Proofs.Reading
import ExprWire.Proofs.Numerals
import ExprWire.Proofs.Window
