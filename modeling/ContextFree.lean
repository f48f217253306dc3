import ContextFree.Journal
import ContextFree.Language.Derivation
import ContextFree.Main
import ContextFree.Session
import ContextFree.Proofs.Definition
import ContextFree.Proofs.Derivation
import ContextFree.Proofs.Saturation
import ContextFree.Proofs.Pruning
import ContextFree.Proofs.EpsilonFree
import ContextFree.Proofs.Variants
import ContextFree.Proofs.Graph.Visit
import ContextFree.Proofs.Graph.Closure
import ContextFree.Proofs.Graph.Checked
import ContextFree.Proofs.UnitFree
import ContextFree.Proofs.UnitPairs
import ContextFree.Proofs.NormalForm.Isolation
import ContextFree.Proofs.NormalForm.Chain
import ContextFree.Proofs.NormalForm.Added
import ContextFree.Proofs.Recognition.Chart
import ContextFree.Proofs.Recognition.Checked
import ContextFree.Proofs.Normalization
import ContextFree.Proofs.Obtained
import ContextFree.Proofs.Outcome
import ContextFree.Proofs.History
import ContextFree.Proofs.Preservation
import ContextFree.Proofs.Language.Equivalence
import ContextFree.Proofs.Source.Reading
import ContextFree.Proofs.Loading
import ContextFree.Proofs.NormalForm.Useful
import ContextFree.Proofs.NormalForm.Accounting
import ContextFree.Proofs.NormalForm.Decoding
import ContextFree.Proofs.Idempotence
import ContextFree.Proofs.Renormalization
import ContextFree.Proofs.UselessSymbols
import ContextFree.Proofs.DisplayNames
import ContextFree.Proofs.Declarations
import ContextFree.Proofs.DisplayedProductions
import ContextFree.Proofs.Script
import ContextFree.Proofs.Source.Tokens
import ContextFree.Proofs.Worklist
