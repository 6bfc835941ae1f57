import Refutation.Search.Loop

/-!
# The unification problems of a search

A search unifies pairs of literals: to resolve two clauses on them, or to factor one. Here these
pairs are listed, function by function, as the search comes by them. Without equations there are no
others, since paramodulation has nothing to act with.

* `resolutionPairs`, `factorProblems`: the pairs of one resolution, of one factoring.
* `Search.startProblems`: the pairs while a search is set up.
* `Search.runProblems`: the pairs while it runs.
* `Unifier.withinDepth`: the attempt on a pair does not end at the depth limit.
-/

namespace Refutation

/-- Two literals to be unified. -/
abbrev Problem := Literal × Literal

/-- The literals unify, or fail to for another reason than depth. -/
def Unifier.withinDepth (u : Unifier) (p : Problem) : Bool :=
  match u.literals p.1 p.2 with
  | .error (.depthExceeded _) => false
  | _ => true

/-! ## Inferences -/

/-- The pairs on which two clauses may resolve. -/
def resolutionPairs (left right : Clause) : List Problem :=
  (left.literals.flatMap fun l => right.literals.map (l, ·)).filter fun (l, m) =>
    l.positive != m.positive && l.sameSignature m

/-- The pairs on which a clause may have a direct factor. -/
def factorPairs (c : Clause) : List Problem :=
  (pairs c.literals).filter fun (l, m) => l.positive == m.positive && l.sameSignature m

/-- The pairs for the factors of a clause, and for theirs. -/
def factorProblems (u : Unifier) (c : Sourced) (d : Derivation) : List Problem :=
  (c :: (factors u c d).1).flatMap fun x => factorPairs x.clause

namespace Search

/-! ## The start -/

def prepareProblems (u : Unifier) : List Sourced → Derivation → List Problem
  | [], _ => []
  | c :: cs, d =>
    if c.clause.isTautology then prepareProblems u cs d
    else factorProblems u c d ++ prepareProblems u cs (factors u c d).2

def startProblems (config : Config) (background support : List Sourced) (d : Derivation) : List Problem :=
  prepareProblems config.unifier background d ++
    prepareProblems config.unifier support (prepare config.unifier background d).2

/-! ## The loop -/

def inferProblems (s : Search) (left right : Sourced) : List Problem :=
  resolutionPairs left.clause (s.session.separate left right).1.clause

def absorbDerivedProblems : List Sourced → Search → List Problem
  | [], _ => []
  | c :: cs, s =>
    factorProblems s.config.unifier c s.session.derivation ++
      match s.absorbFactored c with
      | (s, none) => absorbDerivedProblems cs s
      | (_, some _) => []

def attemptPairProblems (s : Search) (given partner : Nat) : List Problem :=
  match s.clauses[given]?, s.clauses[partner]? with
  | some left, some right =>
    let (derived, session) := s.infer left right
    s.inferProblems left right ++ absorbDerivedProblems derived { s with session }
  | _, _ => []

def pairWithProblems (clock : Clock) (given : Nat) : List Nat → Search → List Problem
  | [], _ => []
  | partner :: partners, s =>
    if given ∉ s.active then []
    else if partner ∉ s.active then pairWithProblems clock given partners s
    else match s.poll clock with
      | (some _, _) => []
      | (none, s) =>
        s.attemptPairProblems given partner ++
          match s.attemptPair given partner with
          | (s, none) => pairWithProblems clock given partners s
          | (_, some _) => []

def activateProblems (s : Search) (clock : Clock) (pick : Pick) : List Problem :=
  let active := if pick.id ∈ s.active then s.active else s.active ++ [pick.id]
  let s := { s with active, passive := pick.queue, selector := pick.selector, rounds := s.rounds + 1 }
  pairWithProblems clock pick.id active s

def stepProblems (s : Search) (clock : Clock) : List Problem :=
  match s.poll clock with
  | (some _, _) => []
  | (none, s) =>
    match s.selector.select s.weights s.passive with
    | some pick => s.activateProblems clock pick
    | none => []

def loopProblems (clock : Clock) : (fuel : Nat) → Search → List Problem
  | 0, _ => []
  | fuel + 1, s =>
    s.stepProblems clock ++
      match s.step clock with
      | (s, none) => loopProblems clock fuel s
      | (_, some _) => []

def runProblems (s : Search) (clock : Clock) (fuel : Nat) : List Problem :=
  let s := { s with readings := 0 }
  match s.clauses.find? (·.clause.isEmpty) with
  | some _ => []
  | none => loopProblems clock fuel s

end Search

end Refutation
