import RegularLanguages.Bounded
import RegularLanguages.Dfa.Check
import RegularLanguages.Dfa.Describe
import RegularLanguages.Dfa.Indexed
import RegularLanguages.Dfa.Spec
import RegularLanguages.Document.Path
import RegularLanguages.Language.Compare
import RegularLanguages.Main
import RegularLanguages.Nfa.Loading
import RegularLanguages.Nfa.Reference
import RegularLanguages.Nfa.Spec
import RegularLanguages.Nfa.Worklist
import RegularLanguages.Regex.Derivation
import RegularLanguages.Regex.Descent
import RegularLanguages.Regex.Language
import RegularLanguages.Regex.NormalForm
import RegularLanguages.Regex.Occurrence
import RegularLanguages.Regex.Scan
import RegularLanguages.Proofs.CommandLine.Drawing
import RegularLanguages.Proofs.Dfa.Building
import RegularLanguages.Proofs.Dfa.Built
import RegularLanguages.Proofs.Dfa.CellTable
import RegularLanguages.Proofs.Dfa.Comparison
import RegularLanguages.Proofs.Dfa.Document
import RegularLanguages.Proofs.Dfa.Elimination
import RegularLanguages.Proofs.Dfa.Graphviz
import RegularLanguages.Proofs.Dfa.Idempotence
import RegularLanguages.Proofs.Dfa.Indexed
import RegularLanguages.Proofs.Dfa.LeastWord
import RegularLanguages.Proofs.Dfa.Marking
import RegularLanguages.Proofs.Dfa.MergedNames
import RegularLanguages.Proofs.Dfa.Operation
import RegularLanguages.Proofs.Dfa.Pruning
import RegularLanguages.Proofs.Dfa.Validation
import RegularLanguages.Proofs.Language.Enumeration
import RegularLanguages.Proofs.Nfa.Acceptance
import RegularLanguages.Proofs.Nfa.Built
import RegularLanguages.Proofs.Nfa.DeadState
import RegularLanguages.Proofs.Nfa.DepthFirst
import RegularLanguages.Proofs.Nfa.Determinize
import RegularLanguages.Proofs.Nfa.Document
import RegularLanguages.Proofs.Nfa.Growth
import RegularLanguages.Proofs.Nfa.Limit
import RegularLanguages.Proofs.Nfa.Minimal
import RegularLanguages.Proofs.Nfa.Numbering
import RegularLanguages.Proofs.Nfa.PositionShape
import RegularLanguages.Proofs.Nfa.Recognition
import RegularLanguages.Proofs.Nfa.Run
import RegularLanguages.Proofs.Nfa.Validation
import RegularLanguages.Proofs.Nfa.Worklist
import RegularLanguages.Proofs.Regex.EmptyWord
import RegularLanguages.Proofs.Regex.Grammar
import RegularLanguages.Proofs.Regex.Rendering
import RegularLanguages.Proofs.Regex.Scan
import RegularLanguages.Proofs.Regex.Shortening
import RegularLanguages.Proofs.Service.Limit
import RegularLanguages.Proofs.Service.Pattern
import RegularLanguages.Proofs.Service.Routes
import RegularLanguages.Proofs.Service.Table
