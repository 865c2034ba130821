import LibYaml.Types
import LibYaml.Fallible
import LibYaml.Parser.Machine
import LibYaml.Parser.EventGrammar
import LibYaml.Parser.EventOrder
import LibYaml.Parser.TokenGrammar
import LibYaml.Parser.Lookahead
import LibYaml.Parser.Automaton
import LibYaml.Parser.Refinement
import LibYaml.Parser.Acceptance
import LibYaml.Parser.Agreement
import LibYaml.Parser.Sources
import LibYaml.Parser.Progress
import LibYaml.Graph.DepthFirst
import LibYaml.Dumper
import LibYaml.Loader
import LibYaml.RoundTrip.Graph
import LibYaml.RoundTrip.Dumping
import LibYaml.Emitter.Machine
import LibYaml.Emitter.Frames
import LibYaml.Emitter.Stacks
import LibYaml.Emitter.Underflow
import LibYaml.Emitter.Coupling
import LibYaml.Emitter.Alongside
import LibYaml.Emitter.Starting
import LibYaml.Emitter.Recoding
import LibYaml.Emitter.Page
import LibYaml.Scanner.Text
import LibYaml.Scalars.Breaks
import LibYaml.Scalars.Folding
import LibYaml.Scalars.Quoted
import LibYaml.Scalars.DoubleQuoted
import LibYaml.Scalars.Findings
import LibYaml.Scalars.SingleQuoted
import LibYaml.Scalars.Block
import LibYaml.Scalars.Literal
import LibYaml.Scalars.Folded
import LibYaml.Scalars.BlockRules
import LibYaml.Scalars.Words
import LibYaml.Emitter.Buffering
import LibYaml.Building
import LibYaml.Indices.Building
import LibYaml.Indices.Loading
import LibYaml.Indices.Dumping
import LibYaml.Loading.Sources
import LibYaml.Loading.Abreast
import LibYaml.Scanner.Input
import LibYaml.Scanner.Machine
import LibYaml.Scanner.Narrowing
import LibYaml.Scanner.Simulation
import LibYaml.Scanner.Scanning
import LibYaml.Brackets
import LibYaml.Emitter.Utf16
import LibYaml.Scanner.Walking
import LibYaml.Scanner.Bookkeeping
import LibYaml.Scanner.Fetching
import LibYaml.Scanner.Runs
import LibYaml.Scanner.Beside
import LibYaml.Scanner.Together
import LibYaml.Scanner.Columns
import LibYaml.Scanner.Calls
import LibYaml.Scanner.Ending
import LibYaml.Scanner.Course
import LibYaml.Scanner.Listing
import LibYaml.Reader.Machine
import LibYaml.Reader.Encodings
import LibYaml.Reader.Filling
import LibYaml.Reader.Updating
import LibYaml.Reader.Standing
import LibYaml.Reader.Texts
import LibYaml.Reader.Watching
import LibYaml.Reader.Delivering
import LibYaml.Reader.Transcoding
import LibYaml.Reader.Refining
import LibYaml.Scanner.Results
import LibYaml.Parsing
import LibYaml.Loading
import LibYaml.Memory.Cells
import LibYaml.Memory.Queue
import LibYaml.Memory.Strings
