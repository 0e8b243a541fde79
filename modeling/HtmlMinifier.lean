import HtmlMinifier.Main
import HtmlMinifier.World
import HtmlMinifier.Proofs.StageEncoding
import HtmlMinifier.Proofs.Expansion
import HtmlMinifier.Proofs.Symbol
import HtmlMinifier.Proofs.StageThinning
import HtmlMinifier.Proofs.Transparency
import HtmlMinifier.Proofs.Content
import HtmlMinifier.Proofs.Size
import HtmlMinifier.Proofs.Contract
import HtmlMinifier.Proofs.LeadingComment
import HtmlMinifier.Proofs.FreshSigil
import HtmlMinifier.Proofs.SigilChoice
import HtmlMinifier.Proofs.Sheet
import HtmlMinifier.Proofs.SheetReading
import HtmlMinifier.Proofs.SheetWhitespace
import HtmlMinifier.Proofs.CleanDocument
import HtmlMinifier.Proofs.CleanContract
import HtmlMinifier.Proofs.Polish
import HtmlMinifier.Proofs.Idempotence
import HtmlMinifier.Proofs.Hole
import HtmlMinifier.Proofs.ScriptBody
import HtmlMinifier.Proofs.Literal
import HtmlMinifier.Proofs.OpenTag
import HtmlMinifier.Proofs.PutBack
import HtmlMinifier.Proofs.SingleSink
import HtmlMinifier.Proofs.CaseBlind
import HtmlMinifier.Proofs.Settling
import HtmlMinifier.Proofs.TagNames
import HtmlMinifier.Proofs.Stretch
import HtmlMinifier.Proofs.Padding
import HtmlMinifier.Proofs.CleanLines
import HtmlMinifier.Proofs.BlockScan
import HtmlMinifier.Proofs.Reservation
import HtmlMinifier.Proofs.FirstAttribute
import HtmlMinifier.Proofs.JoinedComment
import HtmlMinifier.Proofs.Unwrapping
import HtmlMinifier.Proofs.RegionScan
import HtmlMinifier.Proofs.NormalForm
import HtmlMinifier.Proofs.RootDirectory
import HtmlMinifier.Proofs.PlainScan
import HtmlMinifier.Proofs.SecondPass
import HtmlMinifier.Proofs.JoinedMarker
