import TreeScript.Benchmark
import TreeScript.Main
import TreeScript.Proofs.TokenStream
import TreeScript.Proofs.Grammar.Ending
import TreeScript.Proofs.Grammar.Precedence
import TreeScript.Proofs.Language.Derivation
import TreeScript.Proofs.Language.Opening
import TreeScript.Proofs.Language.Meaning
import TreeScript.Proofs.Language.Sound
import TreeScript.Proofs.Language.Complete
import TreeScript.Proofs.Language.Statement
import TreeScript.Proofs.Eval.Safe
import TreeScript.Proofs.Program.Session
import TreeScript.Proofs.Grammar.Steady
import TreeScript.Proofs.Grammar.Inline
import TreeScript.Proofs.Language.Open
import TreeScript.Proofs.Program.Statements
import TreeScript.Proofs.Program.Incomplete
import TreeScript.Proofs.Eval.Names
import TreeScript.Proofs.Eval.Alike
import TreeScript.Proofs.Eval.Confined
import TreeScript.Proofs.Grammar.Relined
import TreeScript.Proofs.Language.Ended
import TreeScript.Proofs.Program.Delivers
import TreeScript.Proofs.Program.Alike
import TreeScript.Proofs.Program.Append
import TreeScript.Proofs.Dialogue
import TreeScript.Proofs.TokenStream.Requests
import TreeScript.Proofs.Language.Extension
import TreeScript.Proofs.Program.Extension
import TreeScript.Proofs.Text
import TreeScript.Proofs.Language.Printed
import TreeScript.Proofs.Grammar.Tracks
import TreeScript.Proofs.Grammar.Local
import TreeScript.Proofs.Program.Staged
import TreeScript.Proofs.Program.Progress
import TreeScript.Proofs.Grammar.Parses
import TreeScript.Proofs.Grammar.InsertChoice
import TreeScript.Proofs.Grammar.Aligned
import TreeScript.Proofs.Grammar.Spaced
import TreeScript.Proofs.Language.Spaced
import TreeScript.Proofs.Program.Relocated
import TreeScript.Proofs.Program.BlankLines
import TreeScript.Proofs.Token.Slices
import TreeScript.Proofs.Token.Munch
import TreeScript.Proofs.Token.Spelling
import TreeScript.Proofs.Language.ReadBack
import TreeScript.Proofs.Grammar.Leaves
import TreeScript.Proofs.Grammar.FirstUnfit
import TreeScript.Proofs.Language.Viable
import TreeScript.Proofs.Language.Earliest
import TreeScript.Proofs.Heap.Nearest
import TreeScript.Proofs.Eval.Call
import TreeScript.Proofs.Grammar.FirstLeaf
import TreeScript.Proofs.TokenStream.Place
import TreeScript.Proofs.Program.Location
import TreeScript.Proofs.Grammar.Glances
import TreeScript.Proofs.Grammar.Heeds
import TreeScript.Proofs.Grammar.LastLine
import TreeScript.Proofs.Grammar.Likewise
import TreeScript.Proofs.Program.NeededLines
import TreeScript.Proofs.Language.Separators
import TreeScript.Proofs.Eval.Integers
import TreeScript.Proofs.Eval.Pure
import TreeScript.Proofs.Eval.Loops
import TreeScript.Proofs.Eval.Postfixes
import TreeScript.Proofs.Grammar.Committed
