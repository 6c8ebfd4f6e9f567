import Clearance.Gate
import Clearance.Text.Utf8.Lemmas
import Clearance.Proofs.Escaping
import Clearance.Proofs.Grammar
import Clearance.Proofs.Scanning
import Clearance.Proofs.Replay
import Clearance.Proofs.Descent
import Clearance.Proofs.Reading
import Clearance.Proofs.Acceptance
import Clearance.Proofs.Trees
import Clearance.Proofs.Meaning
import Clearance.Proofs.Inquiries
import Clearance.Proofs.Kept
import Clearance.Proofs.Canonical
import Clearance.Proofs.Binary
import Clearance.Proofs.Writing
import Clearance.Proofs.Normalizing
import Clearance.Proofs.Completion
import Clearance.Proofs.Rendering
import Clearance.Proofs.Renormalizing
import Clearance.Proofs.Frontier
import Clearance.Proofs.Textual
import Clearance.Proofs.Delivery
import Clearance.Proofs.Verdict
import Clearance.Proofs.Decisions
import Clearance.Proofs.Preserving
import Clearance.Proofs.Labels
import Clearance.Proofs.Mentions
import Clearance.Proofs.Family
import Clearance.Proofs.Course
import Clearance.Proofs.Tracing
import Clearance.Proofs.Calls
import Clearance.Proofs.Limits
import Clearance.Proofs.Sites
import Clearance.Proofs.Lookups
import Clearance.Proofs.Parts
import Clearance.Proofs.Sources
import Clearance.Proofs.Subtrees
import Clearance.Proofs.Quoting
import Clearance.Proofs.Tokens
import Clearance.Proofs.Bodies
import Clearance.Proofs.Widening
import Clearance.Proofs.Visits
import Clearance.Proofs.Dependence
import Clearance.Proofs.Conjunction
import Clearance.Proofs.Cuts
import Clearance.Proofs.Sorting
import Clearance.Proofs.Lengths
import Clearance.Proofs.Lossy
import Clearance.Proofs.Places
import Clearance.Proofs.Requoting
import Clearance.Proofs.Blindness
import Clearance.Proofs.Messages
import Clearance.Proofs.Representatives
import Clearance.Proofs.Sessions
import Clearance.Proofs.Nesting
import Clearance.Proofs.Nonempty
