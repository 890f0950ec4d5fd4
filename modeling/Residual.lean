import Residual.Automaton.Builder
import Residual.Automaton.Printer
import Residual.Automaton.View
import Residual.Query
import Residual.Derivation
import Residual.Queue
import Residual.Term.Language
import Residual.Words.Listing
import Residual.Words.Source
import Residual.Proofs.Language
import Residual.Proofs.Tree.Basic
import Residual.Proofs.Tree.Build
import Residual.Proofs.Tree.Derivative
import Residual.Proofs.Tree.Refinement
import Residual.Proofs.Derivatives
import Residual.Proofs.Builder
import Residual.Proofs.Construction
import Residual.Proofs.Operation
import Residual.Proofs.Compilation
import Residual.Proofs.Session
import Residual.Proofs.Meaning
import Residual.Proofs.Search
import Residual.Proofs.Subterms
import Residual.Proofs.Termination
import Residual.Proofs.Automaton.Language
import Residual.Proofs.Automaton.Reachability
import Residual.Proofs.Automaton.Words
import Residual.Proofs.Automaton.Postorder
import Residual.Proofs.Automaton.LengthBound
import Residual.Proofs.Automaton.Product
import Residual.Proofs.Query
import Residual.Proofs.Renaming
import Residual.Proofs.Limit
import Residual.Proofs.Matching
import Residual.Proofs.Simulation
import Residual.Proofs.Recipe
import Residual.Proofs.Words.Counts
import Residual.Proofs.Words.Listing
import Residual.Proofs.Words.Sampling
import Residual.Proofs.NormalForm.Basic
import Residual.Proofs.NormalForm.Build
import Residual.Proofs.Invariant
import Residual.Proofs.NormalForm.Session
import Residual.Proofs.Sharing
import Residual.Proofs.Replay
import Residual.Proofs.Lockstep
import Residual.Proofs.Transparency
import Residual.Proofs.Failure
import Residual.Proofs.Dependencies
import Residual.Proofs.Derivation
import Residual.Proofs.NormalForm.Rebuild
import Residual.Proofs.Tree.Grouping
import Residual.Proofs.Grouping
import Residual.Proofs.NormalForm.Laws
import Residual.Proofs.NormalForm.Complements
import Residual.Proofs.Tree.Mentions
import Residual.Proofs.Unmentioned
import Residual.Proofs.Automaton.BreadthFirst
import Residual.Proofs.Automaton.Isomorphism
import Residual.Proofs.Automaton.View
import Residual.Proofs.Symbol.Range
import Residual.Proofs.Discovery
import Residual.Proofs.Recording
import Residual.Proofs.Words.Extent
import Residual.Proofs.Text.Escape
import Residual.Proofs.Symbol.Text
import Residual.Proofs.Text.Term
import Residual.Proofs.Report
import Residual.Proofs.Distance
import Residual.Proofs.Traversal
import Residual.Proofs.Automaton.Encoding
import Residual.Proofs.Symbol.Compaction
import Residual.Proofs.Symbol.Set
import Residual.Proofs.Queue
