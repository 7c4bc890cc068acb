import Reckon.Grammar.NumberText
import Reckon.Main
import Reckon.Proofs.Grammar.Completeness
import Reckon.Proofs.Grammar.Soundness
import Reckon.Proofs.Grammar.Layout
import Reckon.Proofs.Grammar.Positions
import Reckon.Proofs.Number.Faithful
import Reckon.Proofs.Number.Notation
import Reckon.Proofs.Number.Range
import Reckon.Proofs.Session.Execution
import Reckon.Proofs.Session.Kinds
import Reckon.Proofs.Session.Journal
import Reckon.Proofs.Session.Sequel
import Reckon.Proofs.Session.Faults
import Reckon.Proofs.Session.Hashing
import Reckon.Proofs.Session.Numerals
import Reckon.Proofs.Session.Results
import Reckon.Proofs.Source.Quoting
import Reckon.Proofs.Number.Agreement
import Reckon.Proofs.Number.Literal
import Reckon.Proofs.Session.Precision
import Reckon.Proofs.Session.Exact
import Reckon.Proofs.Number.Magnitude
import Reckon.Proofs.Session.Numbers
import Reckon.Proofs.Source.Length
import Reckon.Proofs.Service.Bookkeeping
import Reckon.Proofs.Service.Aggregates
import Reckon.Proofs.Service.Rearrangement
import Reckon.Proofs.Service.Standings
import Reckon.Proofs.Number.Remainder
import Reckon.Proofs.Grammar.Completion
import Reckon.Proofs.Grammar.Viability
import Reckon.Proofs.Session.Actions
import Reckon.Proofs.Session.Overlong
import Reckon.Proofs.Session.Bindings
import Reckon.Proofs.Grammar.Sites
import Reckon.Proofs.Source.Boundary
import Reckon.Proofs.Source.Written
import Reckon.Proofs.Grammar.Tiling
import Reckon.Proofs.Session.Substitution
import Reckon.Proofs.Session.Doubles
import Reckon.Proofs.Grammar.Nesting
import Reckon.Proofs.Session.Bounds
import Reckon.Proofs.Grammar.Escapes
import Reckon.Proofs.Source.Pieces
import Reckon.Proofs.Number.Shortest
import Reckon.Proofs.Number.Places
import Reckon.Proofs.Number.Lossless
import Reckon.Proofs.Number.Root
import Reckon.Proofs.Number.Integers
import Reckon.Proofs.Number.Powers
import Reckon.Proofs.Session.Modulo
import Reckon.Proofs.Service.Trimming
import Reckon.Proofs.Text.Hash
import Reckon.Proofs.Grammar.Misspelling
import Reckon.Proofs.Grammar.Malformed
import Reckon.Proofs.Session.Caret
