import AllParses.Grammar.Reading
import AllParses.Json.Forms
import AllParses.Parser.Chain
import AllParses.Proofs.Grammar.Completeness
import AllParses.Proofs.Notation.Compiled
import AllParses.Proofs.Notation.Display
import AllParses.Recognizer
import AllParses.Proofs.Repetition
import AllParses.Proofs.Grammar.Tokens
import AllParses.Proofs.Parser.FirstRun
import AllParses.Proofs.Notation.Judgement
import AllParses.Proofs.Parser.Laws
import AllParses.Proofs.Parser.Laziness
import AllParses.Proofs.Grammar.Reachable
import AllParses.Proofs.Grammar.Extension
import AllParses.Proofs.Grammar.Reordering
import AllParses.Proofs.Json.Number
import AllParses.Proofs.Json.Text
import AllParses.Proofs.Json.Container
import AllParses.Proofs.Json.RoundTrip
import AllParses.Proofs.Parser.Chain
import AllParses.Proofs.Notation.Longest
import AllParses.Proofs.Grammar.Whole
import AllParses.Proofs.Notation.Blocks
import AllParses.Proofs.Pattern.Groups
import AllParses.Proofs.Pattern.Search
import AllParses.Proofs.Pattern.Anchored
import AllParses.Proofs.Parser.LongestFirst
import AllParses.Proofs.Grammar.Dangling
import AllParses.Proofs.Parser.Lists
import AllParses.Proofs.Grammar.Rebuilding
import AllParses.Proofs.ParseTree
import AllParses.Proofs.Parser.FixedText
