import Refutation.Search.State

/-!
# The given-clause loop

Each round selects a waiting clause, makes it active and infers between it and every active
clause, itself included. When nothing waits the background is queued, and when nothing is left of
that either the search is over. Bounds are polled before each round and before each pair.

The clock is a parameter: it tells the nanoseconds passed at each reading. A run takes fuel, one
unit a round, and has no result if it runs out.
-/

namespace Refutation

/-- The nanoseconds passed at the n-th reading. -/
abbrev Clock := Nat → Nat

namespace Search

/-- The bound that is reached after the given nanoseconds: time before clauses before inferences. -/
def exceeded (s : Search) (elapsed : Nat) : Option Limit :=
  if s.config.timeout.nanos ≤ elapsed then some .time
  else if 0 < s.config.maxClauses ∧ s.config.maxClauses ≤ s.clauses.size then some .clauses
  else if 0 < s.config.maxInferences ∧ s.config.maxInferences ≤ s.inferences then some .inferences
  else none

/-- Reads the clock and tells the bound that is reached. -/
def poll (s : Search) (clock : Clock) : Option Limit × Search :=
  (s.exceeded (clock s.readings), { s with readings := s.readings + 1 })

/-- Absorbs clauses one after the other, counting each, until one ends the search. -/
def absorbAll : List Sourced → Search → Search × Option Outcome
  | [], s => (s, none)
  | c :: cs, s =>
    match ({ s with inferences := s.inferences + 1 }).absorb c with
    | (s, none) => absorbAll cs s
    | (s, some outcome) => (s, some outcome)

/-- Absorbs a derived clause and its factors. -/
def absorbFactored (s : Search) (c : Sourced) : Search × Option Outcome :=
  let (fs, derivation) := factors s.config.unifier c s.session.derivation
  absorbAll (c :: fs) { s with session := ⟨s.session.names, derivation⟩ }

/-- Absorbs each derived clause and its factors. -/
def absorbDerived : List Sourced → Search → Search × Option Outcome
  | [], s => (s, none)
  | c :: cs, s =>
    match s.absorbFactored c with
    | (s, none) => absorbDerived cs s
    | (s, some outcome) => (s, some outcome)

/-- All clauses that two kept clauses yield. -/
def infer (s : Search) (left right : Sourced) : List Sourced × Session :=
  let u := s.config.unifier
  let (resolvents, session) := s.session.resolvents u left right
  if s.config.paramodulation then
    let (paramodulants, session) := session.paramodulants u left right
    (resolvents ++ paramodulants, session)
  else (resolvents, session)

/-- Infers between two kept clauses and absorbs the results. -/
def attemptPair (s : Search) (given partner : Nat) : Search × Option Outcome :=
  match s.clauses[given]?, s.clauses[partner]? with
  | some left, some right =>
    let (derived, session) := s.infer left right
    absorbDerived derived { s with session }
  | _, _ => (s, none)

/-- Infers between the given clause and partners, as long as it is active and they are. -/
def pairWith (clock : Clock) (given : Nat) : List Nat → Search → Search × Option Outcome
  | [], s => (s, none)
  | partner :: partners, s =>
    if given ∉ s.active then (s, none)
    else if partner ∉ s.active then pairWith clock given partners s
    else match s.poll clock with
      | (some limit, s) => s.finish (.unknown limit)
      | (none, s) =>
        match s.attemptPair given partner with
        | (s, none) => pairWith clock given partners s
        | (s, some outcome) => (s, some outcome)

/-- Makes a clause active and infers between it and every active clause. -/
def activate (s : Search) (clock : Clock) (pick : Pick) : Search × Option Outcome :=
  let active := if pick.id ∈ s.active then s.active else s.active ++ [pick.id]
  let s := { s with active, passive := pick.queue, selector := pick.selector, rounds := s.rounds + 1 }
  pairWith clock pick.id active s

/-- The active background clauses wait from now on. -/
def queueBackground (s : Search) : Search :=
  let waiting := s.background.filter fun i => i ∈ s.active ∧ i ∉ s.passive
  { s with passive := s.passive ++ waiting, background := [] }

/-- One round. -/
def step (s : Search) (clock : Clock) : Search × Option Outcome :=
  match s.poll clock with
  | (some limit, s) => s.finish (.unknown limit)
  | (none, s) =>
    match s.selector.select s.weights s.passive with
    | some pick => s.activate clock pick
    | none => if s.background.isEmpty then s.finish .disproved else (s.queueBackground, none)

/-- Rounds until the search ends. -/
def loop (clock : Clock) : (fuel : Nat) → Search → Option (Outcome × Search)
  | 0, _ => none
  | fuel + 1, s =>
    match s.step clock with
    | (s, none) => loop clock fuel s
    | (s, some outcome) => some (outcome, s)

/-- Runs the search to its end. It may be run again, and then goes on from where it was. -/
def run (s : Search) (clock : Clock) (fuel : Nat) : Option (Outcome × Search) :=
  let s := { s with readings := 0 }
  match s.clauses.find? (·.clause.isEmpty) with
  | some c => some (.proved [.ofClause s.session.derivation c], s)
  | none => loop clock fuel s

end Search

end Refutation
