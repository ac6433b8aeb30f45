import PropSat.Main
import PropSat.Proofs.Satisfaction
import PropSat.Proofs.Search.Agreement
import PropSat.Proofs.Search.Justification
import PropSat.Proofs.Search.Verdict
import PropSat.Proofs.Formula.Canonical
import PropSat.Proofs.Formula.Value
import PropSat.Proofs.Encoding.Gates
import PropSat.Proofs.Encoding.Transformation
import PropSat.Proofs.Encoding.Exactness
import PropSat.Proofs.Grammar.Derivation
import PropSat.Proofs.Grammar.Reading
import PropSat.Grammar.Arena
import PropSat.Proofs.Grammar.Arena
import PropSat.Proofs.Grammar.Recognition
import PropSat.Proofs.Encoding.Demand
import PropSat.Proofs.Encoding.Models
import PropSat.Proofs.Encoding.Faithfulness
import PropSat.Proofs.EndToEnd
import PropSat.Proofs.Search.Passes
import PropSat.Proofs.Search.Replay
import PropSat.Proofs.Search.Calls
import PropSat.Proofs.Formula.Renaming
import PropSat.Proofs.Grammar.Printing
import PropSat.Proofs.Formula.Chained
import PropSat.Proofs.Encoding.Chaining
import PropSat.Proofs.Search.Record
import PropSat.Proofs.Encoding.Sharing
import PropSat.Proofs.Search.Determinacy
import PropSat.Proofs.Search.Limits
import PropSat.Proofs.Search.Balance
import PropSat.Proofs.SignedRenaming
import PropSat.Proofs.Search.Symmetry
import PropSat.Proofs.Grammar.Chains
import PropSat.Proofs.Encoding.Rereading
import PropSat.Proofs.Grammar.Prefixes
import PropSat.Proofs.Grammar.Faults
import PropSat.Proofs.Random.Drawing
import PropSat.Proofs.Random.Texts
import PropSat.Proofs.CommandLine.Outcome
import PropSat.Proofs.Search.Course
import PropSat.Proofs.CommandLine.Indentation
import PropSat.Proofs.Search.Propagation
import PropSat.Proofs.Search.Confluence
import PropSat.Proofs.Search.Backtracking
import PropSat.Proofs.Statuses
import PropSat.Proofs.Encoding.Repetition
import PropSat.Proofs.Encoding.Roundtrip
import PropSat.Proofs.Search.DecisionLimit
import PropSat.Proofs.Decimal
import PropSat.Proofs.CommandLine.Reading
import PropSat.Proofs.CommandLine.Options
import PropSat.Proofs.Dimacs
import PropSat.Proofs.Formula.Tree
import PropSat.AtomRegistry
import PropSat.Proofs.Registry
import PropSat.Proofs.Search.Explanation
import PropSat.Proofs.Grammar.Records
