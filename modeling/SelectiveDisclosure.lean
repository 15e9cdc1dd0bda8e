import SelectiveDisclosure.Verification.Verifier
import SelectiveDisclosure.Proofs.Claims.Trace
import SelectiveDisclosure.Proofs.Claims.Revealed
import SelectiveDisclosure.Proofs.Claims.Withholding
import SelectiveDisclosure.Proofs.Claims.Layout
import SelectiveDisclosure.Proofs.Claims.Hiding
import SelectiveDisclosure.Proofs.ReadingBack
import SelectiveDisclosure.Proofs.Claims.Concealment
import SelectiveDisclosure.Proofs.Claims.Integrity
import SelectiveDisclosure.Proofs.Verification.Soundness
import SelectiveDisclosure.Proofs.Verification.Completeness
import SelectiveDisclosure.Proofs.Verification.Binding
import SelectiveDisclosure.Proofs.Verification.Authentication
import SelectiveDisclosure.Proofs.Verification.Bookkeeping
import SelectiveDisclosure.Proofs.Token.Revealed
import SelectiveDisclosure.Proofs.Claims.Limits
import SelectiveDisclosure.Proofs.Verification.Nonces
import SelectiveDisclosure.Proofs.Verification.HolderKey
import SelectiveDisclosure.Proofs.Verification.Lifetime
import SelectiveDisclosure.Proofs.Compact
import SelectiveDisclosure.Proofs.Token.Grammar
import SelectiveDisclosure.Proofs.Claims.Order
import SelectiveDisclosure.Proofs.Claims.Placement
import SelectiveDisclosure.Proofs.Claims.Course
import SelectiveDisclosure.Proofs.Claims.Cycles
import SelectiveDisclosure.Proofs.Claims.Refusals
import SelectiveDisclosure.Proofs.Disclosure
import SelectiveDisclosure.Proofs.Token.Reencoding
import SelectiveDisclosure.Proofs.Time.Instant
import SelectiveDisclosure.Proofs.Time.Exactness
import SelectiveDisclosure.Proofs.Pointer.Spelling
import SelectiveDisclosure.Proofs.Pointer.Visiting
import SelectiveDisclosure.Proofs.Claims.Routes
import SelectiveDisclosure.Proofs.Verification.Tolerance
import SelectiveDisclosure.Proofs.Jws.Grammar
import SelectiveDisclosure.Proofs.Jws.Rereading
import SelectiveDisclosure.Proofs.Key.Rereading
import SelectiveDisclosure.Proofs.Key.Thumbprint
