import StreamGrammar.Header.Read
import StreamGrammar.Rule.Judges
import StreamGrammar.Stream.Feed
import StreamGrammar.Stream.Lines
import StreamGrammar.Proofs.Input.Buffer
import StreamGrammar.Proofs.Input.Cursor
import StreamGrammar.Proofs.Input.History
import StreamGrammar.Proofs.Parser.Compositional
import StreamGrammar.Proofs.Parser.Contract
import StreamGrammar.Proofs.Rule.Kit
import StreamGrammar.Proofs.Rule.Contract
import StreamGrammar.Proofs.Parser.Finality
import StreamGrammar.Proofs.Rule.Finality
import StreamGrammar.Proofs.Parser.Ended
import StreamGrammar.Proofs.Parser.Fuel
import StreamGrammar.Proofs.Stream.Batch
import StreamGrammar.Proofs.Stream.Drain
import StreamGrammar.Proofs.Stream.Session
import StreamGrammar.Proofs.Stream.Rule
import StreamGrammar.Proofs.Stream.Calls
import StreamGrammar.Proofs.Stream.Failure
import StreamGrammar.Proofs.Header.Rules
import StreamGrammar.Proofs.Rule.Ended
import StreamGrammar.Proofs.Input.Unread
import StreamGrammar.Proofs.Input.Search
import StreamGrammar.Proofs.Parser.Shift
import StreamGrammar.Proofs.Rule.Shift
import StreamGrammar.Proofs.Parser.Recognizer
import StreamGrammar.Proofs.Parser.Reads
import StreamGrammar.Proofs.Text.Ascii
import StreamGrammar.Proofs.Header.Grammar
import StreamGrammar.Proofs.Header.Read
import StreamGrammar.Proofs.Input.Access
import StreamGrammar.Proofs.Input.Marks
import StreamGrammar.Proofs.Log.Session
import StreamGrammar.Proofs.Stream.Bounded
import StreamGrammar.Proofs.Stream.Tiling
import StreamGrammar.Proofs.Stream.Spans
import StreamGrammar.Proofs.Header.Longest
import StreamGrammar.Proofs.Parser.Longest
import StreamGrammar.Proofs.Parser.Laws
import StreamGrammar.Proofs.Parser.Recorded
import StreamGrammar.Proofs.Parser.Feeding
import StreamGrammar.Proofs.Parser.Greedy
import StreamGrammar.Proofs.Rule.Bounded
import StreamGrammar.Proofs.Parser.Agreement
import StreamGrammar.Proofs.Parser.Repetition
import StreamGrammar.Proofs.Rule.Repetition
import StreamGrammar.Proofs.Parser.Separated
import StreamGrammar.Proofs.Rule.Separated
import StreamGrammar.Proofs.Parser.Captured
import StreamGrammar.Proofs.Rule.Captured
import StreamGrammar.Proofs.Parser.Grouping
import StreamGrammar.Proofs.Rule.Oblivious
import StreamGrammar.Proofs.Rule.Grouping
import StreamGrammar.Proofs.Rule.Literal
import StreamGrammar.Proofs.Rule.Reads
import StreamGrammar.Proofs.Parser.Munches
import StreamGrammar.Proofs.Rule.LinearSpace
import StreamGrammar.Proofs.Stream.Feed
import StreamGrammar.Proofs.Stream.Progress
import StreamGrammar.Proofs.Parser.Productive
import StreamGrammar.Proofs.Rule.Productive
import StreamGrammar.Proofs.Parser.Blame
import StreamGrammar.Proofs.Rule.Blame
