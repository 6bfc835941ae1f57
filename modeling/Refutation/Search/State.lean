import Refutation.Calculus.Factoring
import Refutation.Calculus.Paramodulation
import Refutation.Calculus.Resolution
import Refutation.Search.Config
import Refutation.Search.Outcome
import Refutation.Search.Selection
import Refutation.Subsumption

/-!
# The state of a search

A search keeps clauses and never forgets one; the number of a clause is its place among them. Live
clauses are active, waiting, or both: inferences are made among active ones, and a waiting one
becomes active when it is selected. Clauses that another subsumes are retired.

Background clauses start active, so that inferences begin with the support. They wait as well once
the support is exhausted.

* `Search.start`: the state before the first selection.
* `Search.absorb`: what becomes of a derived clause.
-/

namespace Refutation

/-- The predicate that collects bindings of query variables. -/
def answerPredicate : String := "$answer"

/-- An answer clause and the proof of it. -/
structure Answer where
  clause : Clause
  proof : Proof

/-- The state of a search. -/
structure Search where
  config : Config
  /-- The variables of the query whose bindings answer it. -/
  answerVars : List Var := []
  /-- Every clause kept so far. -/
  clauses : Array Sourced := #[]
  /-- The weight of each clause kept. -/
  weights : Array Nat := #[]
  active : List Nat := []
  /-- Waiting clauses in the order they were queued. -/
  passive : List Nat := []
  /-- Background clauses that have not waited yet. -/
  background : List Nat := []
  selector : Selector
  session : Session
  answers : List Answer := []
  rounds : Nat := 0
  inferences : Nat := 0
  subsumed : Nat := 0
  /-- How often the clock was read in this run. -/
  readings : Nat := 0

namespace Search

def stats (s : Search) : Stats := ⟨s.rounds, s.clauses.size, s.inferences, s.subsumed⟩

/-- Active clauses, and then those that only wait. -/
def live (s : Search) : List Nat := s.active ++ s.passive.filter (· ∉ s.active)

/-- The clauses with the given numbers. -/
def clausesOf (s : Search) (ids : List Nat) : List Clause :=
  ids.filterMap fun i => s.clauses[i]?.map Sourced.clause

/-- The clause is kept already, in whatever order of literals. -/
def isKept (s : Search) (c : Clause) : Bool := s.clauses.any (·.clause.same c)

/-- The state with one clause more; its number is the old count. -/
def keep (s : Search) (c : Sourced) : Search :=
  { s with clauses := s.clauses.push c, weights := s.weights.push c.clause.weight }

/-! ## Start -/

/-- Clauses without tautologies, each followed by its factors, without repetitions. -/
def prepare (u : Unifier) : List Sourced → Derivation → List Sourced × Derivation
  | [], d => ([], d)
  | c :: cs, d =>
    if c.clause.isTautology then prepare u cs d
    else
      let (fs, d) := factors u c d
      let (rest, d) := prepare u cs d
      (c :: fs.filter (!·.clause.isTautology) ++ rest, d)

/-- The first of each set of clauses with the same literals. -/
def distinct (cs : List Sourced) : List Sourced := cs.eraseDupsBy fun c d => c.clause.same d.clause

/-- The clauses that no other of the list subsumes, and how many were dropped. -/
def reduce (cs : List Sourced) : List Sourced × Nat :=
  let marked := subsumedIndices (cs.map Sourced.clause)
  ((cs.zipIdx.filter fun (_, i) => i ∉ marked).map Prod.fst, marked.length)

/-- Keeps a background clause, unless it is kept already. -/
def addBackground (s : Search) (c : Sourced) : Search :=
  if s.isKept c.clause then s
  else
    let id := s.clauses.size
    { s.keep c with active := s.active ++ [id], background := s.background ++ [id] }

/-- Keeps a clause of the support, unless it is kept already. -/
def addSupport (s : Search) (c : Sourced) : Search :=
  if s.isKept c.clause then s
  else { s.keep c with passive := s.passive ++ [s.clauses.size] }

/-- The background, with reflexivity of equality if equations occur and are used. -/
def withReflexivity (config : Config) (background support : List Sourced) (d : Derivation) :
    List Sourced × Derivation :=
  let hasEq := background.any (·.clause.hasEq) || support.any (·.clause.hasEq)
  if config.paramodulation && hasEq && !background.any (·.clause.same reflexivity) then
    let (c, d) := d.derive reflexivity (.builtin "reflexivity") []
    (background ++ [c], d)
  else (background, d)

/-- The state before the first selection. Tautologies are dropped, factors are added, reflexivity
joins the background if need be, and clauses that others of their group subsume are removed. -/
def start (config : Config) (background support : List Sourced) (answerVars : List Var := [])
    (derivation : Derivation := .empty) : Search :=
  let (background, derivation) := prepare config.unifier background derivation
  let (support, derivation) := prepare config.unifier support derivation
  let support := distinct support
  let (background, derivation) := withReflexivity config (distinct background) support derivation
  let (background, fewer) := reduce background
  let (support, fewer') := reduce support
  let s : Search :=
    { config, answerVars, selector := { ratio := config.ageWeightRatio },
      session := { names := { stem := "c" }, derivation }, subsumed := fewer + fewer' }
  support.foldl addSupport (background.foldl addBackground s)

/-! ## Answers -/

/-- All literals are positive and speak of answers. -/
def isAnswer (s : Search) (c : Clause) : Bool :=
  !s.answerVars.isEmpty && c.literals.all fun l =>
    match l with
    | ⟨true, .pred name _⟩ => name == answerPredicate
    | _ => false

/-- The query variables bound to the arguments of an answer literal. -/
def answerBindings (s : Search) (l : Literal) : Substitution := .ofList (s.answerVars.zip l.atom.args)

/-- The proof of an answer clause: one literal is an answer, several are a choice. -/
def answerProof (s : Search) (c : Sourced) : Proof :=
  match c.clause.literals.map s.answerBindings with
  | [σ] => .ofClause s.session.derivation c σ
  | σs => .ofClause s.session.derivation c .empty σs

/-- The proofs of the answers, without choices that a definite answer subsumes. -/
def reported (answers : List Answer) : List Proof :=
  let definite := (answers.map Answer.clause).filter (·.isUnit)
  (answers.filter fun a => a.clause.isUnit || !a.clause.subsumedByAny definite).map Answer.proof

/-- Ends the search with its answers, or as given if there are none. -/
def finish (s : Search) (otherwise : Outcome) : Search × Option Outcome :=
  if s.answers.isEmpty then (s, some otherwise)
  else ({ s with answers := [] }, some (.proved (reported s.answers)))

/-- Notes an answer, unless an earlier one subsumes it. The search ends when there are enough. -/
def recordAnswer (s : Search) (c : Sourced) : Search × Option Outcome :=
  if c.clause.subsumedByAny (s.answers.map Answer.clause) then (s, none)
  else
    let answers := s.answers ++ [⟨c.clause, s.answerProof c⟩]
    if 0 < s.config.maxAnswers ∧ s.config.maxAnswers ≤ answers.length then
      ({ s with answers := [] }, some (.proved (reported answers)))
    else ({ s with answers }, none)

/-! ## Admission -/

/-- Retires the live clauses that `c` subsumes. -/
def retireSubsumedBy (s : Search) (c : Clause) : Search :=
  let retired := s.live.filter fun i => (s.clauses[i]?.any fun d => c.subsumes d.clause)
  { s with
    active := s.active.filter (· ∉ retired)
    passive := s.passive.filter (· ∉ retired)
    subsumed := s.subsumed + retired.length }

/-- What becomes of a derived clause. The empty clause ends the search, an answer is noted, and
tautologies and clauses that are kept or subsumed already are dropped. Any other clause waits, and
what it subsumes is retired. -/
def absorb (s : Search) (c : Sourced) : Search × Option Outcome :=
  if c.clause.isEmpty then (s, some (.proved [.ofClause s.session.derivation c]))
  else if s.isAnswer c.clause then s.recordAnswer c
  else if c.clause.isTautology || s.isKept c.clause then (s, none)
  else if c.clause.subsumedByAny (s.clausesOf s.live) then
    ({ s with subsumed := s.subsumed + 1 }, none)
  else
    let id := s.clauses.size
    let s := (s.retireSubsumedBy c.clause).keep c
    ({ s with passive := s.passive ++ [id] }, none)

end Search

end Refutation
