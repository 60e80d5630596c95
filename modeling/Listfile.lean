import Listfile.Main
import Listfile.SymbolTable.Json
import Listfile.Diagnostic.Json
import Listfile.Proofs.Resolve.Reports
import Listfile.Proofs.Tree.RoundTrip
import Listfile.Proofs.Walk.Threading
import Listfile.Proofs.Resolve.Opacity
import Listfile.Proofs.Grammar.Spans
import Listfile.Proofs.Grammar.Slices
import Listfile.Proofs.Resolve.Repetition
import Listfile.Proofs.Tree.Fields
import Listfile.Proofs.Grammar.Canonical
import Listfile.Proofs.Walk.Collect
import Listfile.Proofs.Resolve.Layout
import Listfile.Proofs.CommandLine.Interchange
import Listfile.Proofs.Double.Rounding
import Listfile.Proofs.Double.Bounds
import Listfile.Proofs.Double.Scale
import Listfile.Proofs.Decimal.Shortest
import Listfile.Proofs.Double.Range
import Listfile.Proofs.CommandLine.Agreement
import Listfile.Proofs.Walk.Discipline
import Listfile.Proofs.Token.LongestMatch
import Listfile.Proofs.Token.Cover
import Listfile.Proofs.Json.Injective
import Listfile.Proofs.Tree.Unchanged
import Listfile.Proofs.Grammar.Decided
import Listfile.Proofs.Grammar.Unclosed
import Listfile.Proofs.Grammar.Descent
import Listfile.Proofs.Grammar.Descent.Words
import Listfile.Proofs.Grammar.Descent.Faultless
import Listfile.Proofs.Tree.Tolerance
import Listfile.Proofs.Reference.Expansion
import Listfile.Proofs.Reference.Words
import Listfile.Proofs.Resolve.Seeds
import Listfile.Proofs.Walk.Effort
import Listfile.Proofs.Reference.Dollars
import Listfile.Proofs.CommandLine.Listing
import Listfile.Proofs.Resolve.Settling
import Listfile.Proofs.Source.Positions
import Listfile.Proofs.Json.Levels
import Listfile.Proofs.SymbolTable.ReadBack
