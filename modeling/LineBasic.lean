import LineBasic.Text.Blank
import LineBasic.Text.Digits
import LineBasic.Text.Hex
import LineBasic.Error
import LineBasic.Binary64
import LineBasic.Value.Operation
import LineBasic.Builtin
import LineBasic.Token.Lexer
import LineBasic.Line
import LineBasic.Program.Parsing
import LineBasic.Program.Checking
import LineBasic.Program.Folding
import LineBasic.Program.Tidying
import LineBasic.Program.Flow
import LineBasic.Compilation
import LineBasic.Native
import LineBasic.Listing
import LineBasic.Input
import LineBasic.AutoCursor
import LineBasic.Command
import LineBasic.Controller
import LineBasic.Text.Utf8
import LineBasic.Json.Reader
import LineBasic.Path
import LineBasic.Checksum
import LineBasic.FileTree
import LineBasic.Cart
import LineBasic.Config
import LineBasic.Shell
import LineBasic.Main
import LineBasic.Proofs.Meaning
import LineBasic.Proofs.Linking
import LineBasic.Proofs.Layout
import LineBasic.Proofs.Reachable
import LineBasic.Proofs.Pairing
import LineBasic.Proofs.Coherence
import LineBasic.Proofs.Labels
import LineBasic.Proofs.Acceptance
import LineBasic.Proofs.Names
import LineBasic.Proofs.Running
import LineBasic.Proofs.Ahead
import LineBasic.Proofs.Following
import LineBasic.Proofs.Typing
import LineBasic.Proofs.Correctness
import LineBasic.Proofs.ScriptText
import LineBasic.Proofs.Loading
import LineBasic.Proofs.StackTypes
import LineBasic.Proofs.Places
import LineBasic.Proofs.Safety
import LineBasic.Proofs.StandardNatives
import LineBasic.Proofs.Soundness
import LineBasic.Proofs.Alike
import LineBasic.Proofs.Renumbering
import LineBasic.Proofs.Pruning
import LineBasic.Proofs.Rereading
import LineBasic.Proofs.Tidying
import LineBasic.Proofs.Peephole
import LineBasic.Proofs.Folding
import LineBasic.Proofs.FailingLines
import LineBasic.Proofs.LineMarks
import LineBasic.Proofs.Saving
import LineBasic.Proofs.NewNumbers
import LineBasic.Proofs.PrunedCode
import LineBasic.Proofs.ScriptRoundTrip
import LineBasic.Proofs.FailedLines
import LineBasic.Proofs.StoreInvariant
import LineBasic.Proofs.BackwardPolls
import LineBasic.Proofs.SingleThread
import LineBasic.Proofs.Replacement
import LineBasic.Proofs.ErrorPlaces
import LineBasic.Proofs.AutoNumbers
import LineBasic.Proofs.WorldSteps
import LineBasic.Proofs.SoleClient
import LineBasic.Proofs.StopRequests
import LineBasic.Proofs.Reports
import LineBasic.Proofs.References
import LineBasic.Proofs.MovedLines
import LineBasic.Proofs.CartAgreement
import LineBasic.Proofs.SameCode
import LineBasic.Proofs.NativeCalls
import LineBasic.Proofs.Colons
import LineBasic.Proofs.Lossless
import LineBasic.Proofs.LabelPlaces
import LineBasic.Proofs.InstructionText
import LineBasic.Proofs.ListingHistory
import LineBasic.Proofs.NumberedLines
import LineBasic.Proofs.WholeFiles
import LineBasic.Proofs.VariableTable
import LineBasic.Proofs.Overflow
import LineBasic.Proofs.ManifestContents
import LineBasic.Proofs.StackHistory
import LineBasic.Proofs.TypedCommands
import LineBasic.Proofs.Fuel
