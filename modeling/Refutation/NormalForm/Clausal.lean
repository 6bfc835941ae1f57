import Refutation.NormalForm.Binders
import Refutation.NormalForm.Negation

/-!
# Clausal form

A sentence becomes a set of clauses in seven stages: implications go, negations move to the
atoms, binders become distinct, existential variables give way to Skolem terms, universal
quantifiers are dropped, disjunction is distributed over conjunction, and the conjuncts are read
as clauses. Free variables count as universal at the outermost place.

The later stages accept only the shapes that the earlier ones leave; a `ShapeFault` tells what
they met instead.
-/

namespace Refutation

/-- What a stage met that it has no rule for. -/
inductive ShapeFault where
  | implicationAtSkolem
  | existentialAtDrop
  | implicationAtDrop
  | undistributed (s : Sentence)
  | negatedCompound (s : Sentence)
  | notDisjunction (s : Sentence)
deriving DecidableEq

def ShapeFault.message : ShapeFault → String
  | .implicationAtSkolem => "Implications should be eliminated before skolemization"
  | .existentialAtDrop => "Existential quantifiers should be removed by skolemization"
  | .implicationAtDrop => "Implications should be eliminated before dropping quantifiers"
  | .undistributed s =>
    "Quantifiers and implications should be gone before distribution: " ++ s.text
  | .negatedCompound s => "Negation of non-atom in CNF: " ++ s.text
  | .notDisjunction s => "Non-disjunctive sentence in clause: " ++ s.text

/-! ## Skolem terms -/

/-- The Skolem term with index `k` below the given universal variables: a constant `SCk` if there
are none, else a function `SFk` of them. -/
def skolemTerm (universals : List Var) (k : Nat) : Term :=
  if universals.isEmpty then .const ("SC" ++ toString k)
  else .fn ("SF" ++ toString k) (universals.map .var)

/-- One Skolem term for each existential variable, numbered from `k`. -/
def skolemBindings (universals : List Var) (vs : List Var) (k : Nat) : Substitution :=
  .ofList (vs.zipIdx k |>.map fun (v, i) => (v, skolemTerm universals i))

namespace Sentence

/-- Exchanges existential variables for Skolem terms numbered from `k`, under the given universal
variables; also returns the next number. Negations are taken to stand on atoms. -/
def skolemizeUnder (universals : List Var) (k : Nat) : Sentence → Except ShapeFault (Sentence × Nat)
  | .atom a => .ok (.atom a, k)
  | .not s => .ok (.not s, k)
  | .and l r => do
    let (l, k) ← l.skolemizeUnder universals k
    let (r, k) ← r.skolemizeUnder universals k
    return (.and l r, k)
  | .or l r => do
    let (l, k) ← l.skolemizeUnder universals k
    let (r, k) ← r.skolemizeUnder universals k
    return (.or l r, k)
  | .quant .all vs s => do
    let (s, k) ← s.skolemizeUnder (universals ++ vs) k
    return (.quant .all vs s, k)
  | .quant .ex vs s =>
    (s.subst (skolemBindings universals vs k)).skolemizeUnder universals (k + vs.length)
  | .implies .. | .iff .. => .error .implicationAtSkolem
termination_by s => s.size
decreasing_by
  all_goals simp only [size]
  all_goals first
    | omega
    | exact Nat.lt_succ_of_le (size_subst_le _ _)

/-! ## The matrix -/

/-- The sentence without its universal quantifiers. -/
def dropUniversals : Sentence → Except ShapeFault Sentence
  | .atom a => .ok (.atom a)
  | .not s => .ok (.not s)
  | .and l r => return .and (← l.dropUniversals) (← r.dropUniversals)
  | .or l r => return .or (← l.dropUniversals) (← r.dropUniversals)
  | .quant .all _ s => s.dropUniversals
  | .quant .ex _ _ => .error .existentialAtDrop
  | .implies .. | .iff .. => .error .implicationAtDrop

/-- `l ∨ r`, distributed over the conjunctions of `r`. -/
def orRight (l : Sentence) : Sentence → Sentence
  | .and a b => .and (orRight l a) (orRight l b)
  | r => .or l r

/-- `l ∨ r`, distributed over the conjunctions of `l` and then those of `r`. -/
def orBoth : Sentence → Sentence → Sentence
  | .and a b, r => .and (orBoth a r) (orBoth b r)
  | l, r => orRight l r

/-- Distributes disjunction over conjunction. -/
def distribute : Sentence → Except ShapeFault Sentence
  | .and l r => return .and (← l.distribute) (← r.distribute)
  | .or l r => return orBoth (← l.distribute) (← r.distribute)
  | .atom a => .ok (.atom a)
  | .not s => .ok (.not s)
  | s => .error (.undistributed s)

/-! ## Clauses -/

/-- The conjuncts from left to right. -/
def conjuncts : Sentence → List Sentence
  | .and l r => l.conjuncts ++ r.conjuncts
  | s => [s]

/-- The literals of a disjunction from left to right. -/
def disjuncts : Sentence → Except ShapeFault (List Literal)
  | .or l r => return (← l.disjuncts) ++ (← r.disjuncts)
  | .atom a => .ok [.pos a]
  | .not (.atom a) => .ok [.neg a]
  | .not s => .error (.negatedCompound s)
  | s => .error (.notDisjunction s)

/-- The conjuncts as clauses, without tautologies and repetitions. -/
def extract (s : Sentence) : Except ShapeFault (List Clause) := do
  let clauses ← s.conjuncts.mapM fun c => Clause.ofList <$> c.disjuncts
  return (clauses.filter (!·.isTautology)).eraseDupsBy Clause.same

end Sentence

/-! ## The converter -/

/-- Converts sentences and numbers their Skolem terms. One counter serves all conversions, so no
two of them share a Skolem symbol. -/
structure Converter where
  issued : Nat := 0
deriving DecidableEq

namespace Converter

def new : Converter := {}

/-- Exchanges the existential variables of a sentence for Skolem terms. -/
def skolemize (c : Converter) (s : Sentence) : Except ShapeFault (Sentence × Converter) := do
  let (s, k) ← s.skolemizeUnder s.free c.issued
  return (s, ⟨k⟩)

/-- All seven stages. -/
def convert (c : Converter) (s : Sentence) : Except ShapeFault (List Clause × Converter) := do
  let (s, c) ← c.skolemize s.eliminate.nnf.standardize
  let s ← s.dropUniversals
  let s ← s.distribute
  return (← s.extract, c)

end Converter

end Refutation
