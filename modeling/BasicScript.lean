import BasicScript.Main
import BasicScript.Program.Outline
import BasicScript.Proofs.Program.Alike
import BasicScript.Proofs.Grammar.Progress
import BasicScript.Proofs.Grammar.Fuel
import BasicScript.Proofs.Grammar.Following
import BasicScript.Proofs.Program.Printing
import BasicScript.Proofs.Grammar.Precedence
import BasicScript.Proofs.Grammar.Spelling
import BasicScript.Proofs.Grammar.Constructs
import BasicScript.Proofs.Grammar.Blocks
import BasicScript.Proofs.Grammar.RoundTrip
import BasicScript.Proofs.Grammar.Phrases
import BasicScript.Proofs.Grammar.FirstError
import BasicScript.Proofs.Evaluation.Footprint
import BasicScript.Proofs.Evaluation.Scopes
import BasicScript.Proofs.Data.Alike
import BasicScript.Proofs.Data.Rendering
import BasicScript.Proofs.Evaluation.Alike
import BasicScript.Proofs.Evaluation.Fuel
import BasicScript.Proofs.Evaluation.Places
import BasicScript.Proofs.Evaluation.Joined
import BasicScript.Proofs.Token.Tiling
import BasicScript.Proofs.Token.Writing
import BasicScript.Proofs.Evaluation.Lists
import BasicScript.Proofs.Evaluation.Termination
import BasicScript.Proofs.Evaluation.Tracebacks
import BasicScript.Proofs.Evaluation.Depth
import BasicScript.Proofs.Evaluation.Signals
import BasicScript.Proofs.Evaluation.Including
import BasicScript.Proofs.Grammar.Stepping
import BasicScript.Proofs.Grammar.Extents
import BasicScript.Proofs.Shell.Lines
import BasicScript.Proofs.Evaluation.Whereabouts
import BasicScript.Proofs.Number.Integers
import BasicScript.Proofs.Number.Values
import BasicScript.Proofs.Data.Indexing
import BasicScript.Proofs.Data.Unfolding
import BasicScript.Proofs.Number.Rounding
import BasicScript.Proofs.Number.Doubles
import BasicScript.Proofs.Evaluation.Progression
import BasicScript.Proofs.Data.Tables
import BasicScript.Proofs.Evaluation.Effects
import BasicScript.Proofs.Grammar.Nesting
import BasicScript.Proofs.Grammar.Literals
import BasicScript.Proofs.Evaluation.Quoting
import BasicScript.Proofs.Number.Entering
import BasicScript.Proofs.Console.Asking
import BasicScript.Proofs.Token.Faults
import BasicScript.Proofs.Source.Carets
import BasicScript.Proofs.Grammar.Marks
import BasicScript.Proofs.Data.Repetition
import BasicScript.Proofs.Evaluation.Rooted
