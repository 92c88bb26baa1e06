import Findings.Main
import Findings.Report.Edit
import Findings.Proofs.Runs
import Findings.Proofs.Grammar
import Findings.Proofs.Tokens
import Findings.Proofs.Texts
import Findings.Proofs.Numerals
import Findings.Proofs.Integers
import Findings.Proofs.Reads
import Findings.Proofs.Containers
import Findings.Proofs.Skipped
import Findings.Proofs.AnyValue
import Findings.Proofs.Records
import Findings.Proofs.Reports
import Findings.Proofs.RoundTrip
import Findings.Proofs.Sources
import Findings.Proofs.Failing
import Findings.Proofs.FirstFault
import Findings.Proofs.Arguments
import Findings.Proofs.CommandLines
import Findings.Proofs.Lookahead
import Findings.Proofs.Truncated
import Findings.Proofs.Rendering
import Findings.Proofs.Lines
import Findings.Proofs.Breaking
import Findings.Proofs.Unambiguous
import Findings.Proofs.Recounts
import Findings.Proofs.Counts
import Findings.Proofs.Decisive
import Findings.Proofs.Verbosity
import Findings.Proofs.Gaps
import Findings.Proofs.ExactIntegers
import Findings.Proofs.ExactTexts
import Findings.Proofs.ExtraEntries
