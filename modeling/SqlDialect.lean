import SqlDialect.Document.Transcript
import SqlDialect.FileTree.Basic
import SqlDialect.Main
import SqlDialect.Proofs.Line.Nesting
import SqlDialect.Proofs.Rule.CallRewriter
import SqlDialect.Pattern.Lemmas
import SqlDialect.Proofs.Pattern.Stretch
import SqlDialect.Proofs.Line.Scan
import SqlDialect.Proofs.Document.Completeness
import SqlDialect.Proofs.Document.Stable
import SqlDialect.Proofs.Document.StatementEnd
import SqlDialect.Proofs.Document.Tally
import SqlDialect.Proofs.Document.Remark
import SqlDialect.Proofs.Document.Outlook
import SqlDialect.Proofs.Pattern.Place
import SqlDialect.Proofs.Rule.Discard
import SqlDialect.Proofs.Document.Discard
import SqlDialect.Proofs.Document.Comment
import SqlDialect.Proofs.Document.StatementStart
import SqlDialect.Proofs.Rule.Apostrophe
import SqlDialect.Proofs.Line.Code
import SqlDialect.Proofs.Pattern.Clash
import SqlDialect.Proofs.Pattern.Group
import SqlDialect.Proofs.Pattern.Inert
import SqlDialect.Proofs.Pattern.Preference
import SqlDialect.Proofs.Rule.Settled
import SqlDialect.Proofs.Rule.Settled.Deletion
import SqlDialect.Proofs.Rule.Settled.FixedPoint
import SqlDialect.Proofs.Rule.Settled.Replacement
import SqlDialect.Proofs.Rule.Settled.Statement
import SqlDialect.Proofs.Rule.Settled.Truncation
import SqlDialect.Proofs.Line.Paren
import SqlDialect.Proofs.Pattern.Raised
import SqlDialect.Proofs.Rule.Settled.Average
import SqlDialect.Proofs.Rule.Settled.Catalogue
import SqlDialect.Proofs.Document.RepeatLimit
import SqlDialect.Proofs.Line.SameCode
import SqlDialect.Proofs.Rule.CodeOnly
import SqlDialect.Proofs.Rule.FirstChange
import SqlDialect.Proofs.Rule.Sysdate
import SqlDialect.Proofs.Rule.Ceiling
import SqlDialect.Proofs.Rule.PriorPeriod
import SqlDialect.Proofs.Document.Stream
import SqlDialect.Proofs.Batch.Plan
import SqlDialect.Proofs.FileTree.Creation
import SqlDialect.Proofs.FileTree.Delivery
import SqlDialect.Proofs.FileTree.Search
import SqlDialect.Proofs.Batch.Single
import SqlDialect.Proofs.FileTree.WellFormed
import SqlDialect.Proofs.CommandLine.Program
import SqlDialect.Proofs.Line.Bracket
import SqlDialect.Proofs.Rule.PlusSign
import SqlDialect.Proofs.Rule.LiteralText
import SqlDialect.Proofs.Rule.QualifiedName
import SqlDialect.Proofs.Rule.NvlGuard
import SqlDialect.Proofs.Rule.LeftOperand
import SqlDialect.Proofs.Rule.DroppedDefault
import SqlDialect.Proofs.Text.Regex
import SqlDialect.Proofs.Rule.SimilarPattern
import SqlDialect.Proofs.Pattern.Word
import SqlDialect.Proofs.Line.Insertion
import SqlDialect.Proofs.Pattern.Renaming
import SqlDialect.Proofs.Rule.DisplayWidth
import SqlDialect.Proofs.Rule.SingleArgument
import SqlDialect.Proofs.Rule.PeriodOffset
import SqlDialect.Proofs.Rule.ZeroDefault
import SqlDialect.Proofs.Line.Segment
import SqlDialect.Proofs.Line.Bare
import SqlDialect.Proofs.Rule.WordMap
import SqlDialect.Proofs.Rule.Reworded
import SqlDialect.Proofs.Rule.Firing
import SqlDialect.Proofs.Document.ChangedLines
import SqlDialect.Proofs.Document.Renaming
