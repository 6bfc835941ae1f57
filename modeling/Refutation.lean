import Refutation.Sentence
import Refutation.Clause.Position
import Refutation.Fresh.Apart
import Refutation.Signature
import Refutation.NormalForm.Binders
import Refutation.NormalForm.Clausal
import Refutation.Matching
import Refutation.Subsumption
import Refutation.Unification
import Refutation.Json.Basic
import Refutation.Json.Decode
import Refutation.Json.Syntax
import Refutation.Proof.Basic
import Refutation.Calculus.Factoring
import Refutation.Calculus.Paramodulation
import Refutation.Calculus.Resolution
import Refutation.KnowledgeBase
import Refutation.Transcript.Basic
import Refutation.Proofs.Except
import Refutation.Proofs.Interpretation
import Refutation.Proofs.Check
import Refutation.Proofs.Numbering
import Refutation.Proofs.Substitution
import Refutation.Proofs.Unification
import Refutation.Proofs.Fresh
import Refutation.Proofs.Inference
import Refutation.Proofs.Selection
import Refutation.Proofs.Loop
import Refutation.Proofs.Reported
import Refutation.Proofs.Binders
import Refutation.Proofs.Alpha
import Refutation.Proofs.Skolem
import Refutation.Proofs.Conversion
import Refutation.Proofs.Shape
import Refutation.Proofs.NormalForm
import Refutation.Proofs.ClausalForm
import Refutation.Proofs.ClauseSentences
import Refutation.Proofs.Arities
import Refutation.Proofs.History
import Refutation.Proofs.Entailment
import Refutation.Proofs.Freshness
import Refutation.Proofs.Answers
import Refutation.Proofs.Matching
import Refutation.Proofs.Subsumption
import Refutation.Proofs.Redundancy
import Refutation.Proofs.Saturation
import Refutation.Proofs.Tautologies
import Refutation.Proofs.Lifting
import Refutation.Proofs.Start
import Refutation.Proofs.Live
import Refutation.Proofs.Disproved
import Refutation.Proofs.Fixpoint
import Refutation.Proofs.Course
import Refutation.Proofs.Factoring
import Refutation.Proofs.Turns
import Refutation.Proofs.Delivery
import Refutation.Proofs.Retelling
import Refutation.Proofs.Depth
import Refutation.Proofs.Resolvents
import Refutation.Proofs.Variants
import Refutation.Proofs.Names
import Refutation.Proofs.Renaming
import Refutation.Proofs.Support
import Refutation.Proofs.Symmetry
import Refutation.Proofs.Lookup
import Refutation.Proofs.Composition
import Refutation.Proofs.OccursCheck
import Refutation.Proofs.JsonText
import Refutation.Proofs.Publication
import Refutation.Proofs.Positions
