import ActionStrings.Text
import ActionStrings.Trie
import ActionStrings.Vocabulary
import ActionStrings.ActionSet
import ActionStrings.Mask
import ActionStrings.Reading
import ActionStrings.Encoding
import ActionStrings.Details
import ActionStrings.RoundTrip
import ActionStrings.Session
import ActionStrings.Kind
import ActionStrings.Report.Styled
import ActionStrings.Report.Findings
import ActionStrings.CommandLine
import ActionStrings.Main
import ActionStrings.Proofs.TrieMap
import ActionStrings.Proofs.LastEntered
import ActionStrings.Proofs.TrieShape
import ActionStrings.Proofs.NodeCount
import ActionStrings.Proofs.Branches
import ActionStrings.Proofs.Scanning
import ActionStrings.Proofs.Segments
import ActionStrings.Proofs.Encodings
import ActionStrings.Proofs.EventHistories
import ActionStrings.Proofs.MaskWriting
import ActionStrings.Proofs.BitWalk
import ActionStrings.Proofs.Rereading
import ActionStrings.Proofs.Transitions
import ActionStrings.Proofs.FirstViolation
import ActionStrings.Proofs.Displacement
import ActionStrings.Proofs.Insertion
import ActionStrings.Proofs.Tracing
import ActionStrings.Proofs.Expressible
import ActionStrings.Proofs.Joining
import ActionStrings.Proofs.Accepted
import ActionStrings.Proofs.Rearranging
import ActionStrings.Proofs.Describing
import ActionStrings.Proofs.RoundTrips
import ActionStrings.Proofs.Widths
import ActionStrings.Proofs.Arguments
import ActionStrings.Proofs.CheckedEncoding
import ActionStrings.Proofs.PrintedReport
import ActionStrings.Proofs.Verdicts
import ActionStrings.Proofs.Underlining
import ActionStrings.Proofs.Delivery
import ActionStrings.Proofs.KindSpelling
import ActionStrings.Proofs.EscapeCodes
import ActionStrings.Proofs.Colouring
