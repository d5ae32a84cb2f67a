import Synopsis.Registry.Standard
import Synopsis.Invocation
import Synopsis.Proofs.Reading
import Synopsis.Proofs.Groups
import Synopsis.Proofs.Arrangements
import Synopsis.Proofs.Answers
import Synopsis.Proofs.Switches
import Synopsis.Proofs.Lookahead
import Synopsis.Proofs.Tails
import Synopsis.Proofs.Evaluations
import Synopsis.Proofs.Blocks
import Synopsis.Proofs.Descriptions
import Synopsis.Proofs.Typing
import Synopsis.Proofs.Additions
import Synopsis.Proofs.TopicClaims
import Synopsis.Proofs.Histories
import Synopsis.Proofs.Absences
import Synopsis.Proofs.Sides
import Synopsis.Proofs.RoundTrips
import Synopsis.Proofs.Grammatical
import Synopsis.Proofs.Reserved
import Synopsis.Proofs.Calls
import Synopsis.Proofs.Polarities
import Synopsis.Proofs.PlainSwitches
import Synopsis.Proofs.Counts
import Synopsis.Proofs.Aliases
import Synopsis.Proofs.Merging
import Synopsis.Proofs.Deferred
import Synopsis.Proofs.Reorderings
import Synopsis.Proofs.Canonical
import Synopsis.Proofs.Endings
import Synopsis.Proofs.Defaults
import Synopsis.Proofs.Carets
import Synopsis.Proofs.Labels
import Synopsis.Proofs.Keys
import Synopsis.Proofs.Copies
import Synopsis.Proofs.Rejections
