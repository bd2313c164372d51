import ScopeTags.Machine.Trigger
import ScopeTags.Session
import ScopeTags.Workbench
import ScopeTags.Proofs.Reaction
import ScopeTags.Proofs.ScanStep
import ScopeTags.Proofs.ScanInvariant
import ScopeTags.Proofs.ScanHistory
import ScopeTags.Proofs.PolicyAgreement
import ScopeTags.Proofs.TagFiltering
import ScopeTags.Proofs.Outline
import ScopeTags.Proofs.Program
import ScopeTags.Proofs.LineReading
import ScopeTags.Proofs.ProgramReading
import ScopeTags.Proofs.ScopeNesting
import ScopeTags.Proofs.ReadingElsewhere
import ScopeTags.Proofs.LookingAhead
import ScopeTags.Proofs.ReadingUpTo
import ScopeTags.Proofs.StringOpacity
import ScopeTags.Proofs.PassingOver
import ScopeTags.Proofs.Renumbering
import ScopeTags.Proofs.DanglingTags
import ScopeTags.Proofs.LineCounting
import ScopeTags.Proofs.Positions
import ScopeTags.Proofs.TokenOrder
import ScopeTags.Proofs.CarriageReturns
import ScopeTags.Proofs.ReturnedReading
import ScopeTags.Proofs.LineEndings
import ScopeTags.Proofs.Concatenation
import ScopeTags.Proofs.InPlace
import ScopeTags.Proofs.ScanInPlace
import ScopeTags.Proofs.DirectUse
import ScopeTags.Proofs.MachineUse
import ScopeTags.Proofs.ScopeAccounting
import ScopeTags.Proofs.HeredocBodies
import ScopeTags.Proofs.SelfContained
import ScopeTags.Proofs.TagSpelling
import ScopeTags.Proofs.LiteralGrammar
import ScopeTags.Proofs.SessionInPlace
import ScopeTags.Proofs.WorkerPool
import ScopeTags.Proofs.Cancellation
import ScopeTags.Proofs.CommentOrder
import ScopeTags.Proofs.TokenForm
import ScopeTags.Proofs.LeadingLines
import ScopeTags.Proofs.NamesAfterDots
import ScopeTags.Proofs.HeredocLines
import ScopeTags.Proofs.JsonReading
import ScopeTags.Proofs.ReportReading
import ScopeTags.Proofs.Scanner
import ScopeTags.Proofs.ScannerOutcome
import ScopeTags.Proofs.ScannerLiterals
import ScopeTags.Proofs.ScannerWords
import ScopeTags.Proofs.ScannerPunctuation
import ScopeTags.Proofs.ScannerProgress
import ScopeTags.Keyed
import ScopeTags.Tags
import ScopeTags.Proofs.SortedReport
import ScopeTags.Proofs.TagOrder
