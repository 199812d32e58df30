import Scriptlet.Main
import Scriptlet.Value.Display
import Scriptlet.Value.Registers
import Scriptlet.Proofs.Token.Lexed
import Scriptlet.Proofs.Grammar.Derives
import Scriptlet.Proofs.Parse.Step
import Scriptlet.Proofs.Parse.Soundness
import Scriptlet.Proofs.Parse.Depth
import Scriptlet.Proofs.Parse.Completeness
import Scriptlet.Proofs.Parse.Acceptance
import Scriptlet.Proofs.Token.Spelling
import Scriptlet.Proofs.Syntax.Printable
import Scriptlet.Proofs.Parse.RoundTrip
import Scriptlet.Proofs.Eval.Exceptions
import Scriptlet.Proofs.Eval.Discipline
import Scriptlet.Proofs.Value.WellFormed
import Scriptlet.Proofs.Host.Imported
import Scriptlet.Proofs.Eval.Storage
import Scriptlet.Proofs.Eval.Growth
import Scriptlet.Proofs.Eval.Isolation
import Scriptlet.Proofs.Eval.Course
import Scriptlet.Proofs.Eval.Range
import Scriptlet.Proofs.Host.Native
import Scriptlet.Proofs.Grammar.Spelt
import Scriptlet.Proofs.Eval.Words
import Scriptlet.Proofs.Parse.Fuel
import Scriptlet.Proofs.Grammar.Face
import Scriptlet.Proofs.Parse.Online
import Scriptlet.Proofs.Grammar.Viable
import Scriptlet.Proofs.Parse.FirstError
import Scriptlet.Proofs.Token.Positions
import Scriptlet.Proofs.Token.Respelling
import Scriptlet.Proofs.Parse.ViablePrefix
import Scriptlet.Proofs.Token.Tiling
import Scriptlet.Proofs.Token.Appending
import Scriptlet.Proofs.Host.Raised
import Scriptlet.Proofs.Parse.Moved
import Scriptlet.Proofs.Parse.Appending
import Scriptlet.Proofs.Eval.Appending
import Scriptlet.Proofs.Value.Twins
import Scriptlet.Proofs.Eval.Lockstep
import Scriptlet.Proofs.Host.Places
import Scriptlet.Proofs.Eval.Unmentioned
import Scriptlet.Proofs.Value.Lookup
import Scriptlet.Proofs.Token.Coordinates
import Scriptlet.Proofs.Value.Parts
import Scriptlet.Proofs.Value.Unfolding
import Scriptlet.Proofs.Host.RoundTrip
import Scriptlet.Proofs.Parse.Fence
import Scriptlet.Proofs.Parse.Recovery
import Scriptlet.Proofs.Parse.ErrorOrder
import Scriptlet.Proofs.Eval.Arithmetic
import Scriptlet.Proofs.Walk
import Scriptlet.Proofs.Host.Exporting
import Scriptlet.Proofs.Host.Memory
import Scriptlet.Proofs.Value.Separate
import Scriptlet.Proofs.Host.Importing
import Scriptlet.Proofs.Token.LineEnds
import Scriptlet.Proofs.Parse.Moves
import Scriptlet.Proofs.Token.Respacing
import Scriptlet.Proofs.Parse.Rounds
import Scriptlet.Proofs.Value.Unrolling
import Scriptlet.Proofs.Token.Lines
import Scriptlet.Proofs.Number.Numeral
import Scriptlet.Proofs.Parse.Excerpt
import Scriptlet.Proofs.Token.Inserting
import Scriptlet.Proofs.Parse.Deeper
import Scriptlet.Proofs.Parse.HashmapStatement
import Scriptlet.Proofs.Token.Breaking
import Scriptlet.Proofs.Parse.LineBreaks
import Scriptlet.Proofs.Parse.SpanningLines
import Scriptlet.Proofs.Grammar.Nesting
import Scriptlet.Proofs.Parse.Paths
import Scriptlet.Proofs.Parse.Descent
import Scriptlet.Proofs.Parse.AlongPaths
import Scriptlet.Proofs.Parse.BrokenStatement
import Scriptlet.Proofs.Parse.Literals
import Scriptlet.Proofs.Parse.BrokenHashmap
import Scriptlet.Proofs.Value.Founded
import Scriptlet.Proofs.Host.Gains
import Scriptlet.Proofs.Eval.Unpushed
import Scriptlet.Proofs.Token.Enders
import Scriptlet.Proofs.Grammar.Tally
import Scriptlet.Proofs.Parse.ProgramText
