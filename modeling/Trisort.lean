import Trisort.Relay
import Trisort.Label
import Trisort.Variable
import Trisort.Universe
import Trisort.Decimal.Shortest
import Trisort.Double
import Trisort.Term.Basic
import Trisort.Term.Traversal
import Trisort.Term.Substitution
import Trisort.Term.Anonymous
import Trisort.Term.Display
import Trisort.Term.Inspection
import Trisort.Text.Characters
import Trisort.Text.Lexemes
import Trisort.Context
import Trisort.Settings
import Trisort.Log.Level
import Trisort.Log.Event
import Trisort.Log.Journal
import Trisort.Log.Approximation
import Trisort.Log.Session
import Trisort.Normalization
import Trisort.Normalization.Fuel
import Trisort.Typing.Error
import Trisort.Typing.Inference
import Trisort.Typing.Fuel
import Trisort.Proofs.Nameless
import Trisort.Proofs.Reduction
import Trisort.Proofs.Resolution
import Trisort.Proofs.Correspondence
import Trisort.Proofs.AlphaEquivalence
import Trisort.Proofs.Conversion
import Trisort.Proofs.Typing.Judgement
import Trisort.Proofs.Typing.Preservation
import Trisort.Proofs.Typing.Rules
import Trisort.Proofs.Typing.Checking
import Trisort.Proofs.Typing.SubjectReduction
import Trisort.Proofs.Leaves
import Trisort.Proofs.NormalForm
import Trisort.Proofs.Instantiation
import Trisort.Proofs.Faults
import Trisort.Proofs.Agreement
import Trisort.Proofs.Lockstep
import Trisort.Proofs.Typing.Lockstep
import Trisort.Proofs.Typing.Relabelling
import Trisort.Proofs.Typing.Regularity
import Trisort.Proofs.Typing.Canonicity
import Trisort.Proofs.Typing.Stratification
import Trisort.Proofs.Typing.Weakening
import Trisort.Proofs.Typing.DepthLimit
import Trisort.Proofs.Typing.Scoping
import Trisort.Proofs.Words
import Trisort.Proofs.Legibility
import Trisort.Proofs.Termination.Candidates
import Trisort.Proofs.Termination.Sets
import Trisort.Proofs.Termination.RealizedTypes
import Trisort.Proofs.Termination.Interpretation
import Trisort.Proofs.Termination.Soundness
import Trisort.Proofs.Termination.Evaluation
import Trisort.Proofs.Capture
import Trisort.Proofs.Commutation
import Trisort.Proofs.Shifting
import Trisort.Proofs.Lookup
import Trisort.Proofs.Equivariance
import Trisort.Proofs.Arithmetic
import Trisort.Proofs.Typing.ElementOrder
import Trisort.Proofs.Typing.Rejection
import Trisort.Proofs.SettingsGrammar
