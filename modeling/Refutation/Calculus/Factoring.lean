import Refutation.Calculus.Session
import Refutation.Unification

/-!
# Factoring

A factor of a clause unifies two of its literals of the same sign, which then collapse. `factors`
lists the factors of a clause, their factors, and so on, in rounds.
-/

namespace Refutation

/-- The pairs of items, earlier ones first. -/
def pairs {α : Type} : List α → List (α × α)
  | [] => []
  | a :: as => as.map (a, ·) ++ pairs as

/-- The factors of a clause on one pair of literals each. -/
def directFactors (u : Unifier) (c : Clause) : List Inference :=
  (pairs c.literals).filterMap fun (l, m) =>
    if l.positive != m.positive || !l.sameSignature m then none
    else match u.literals l m with
      | .error _ => none
      | .ok σ => some ⟨c.subst σ, .factor σ⟩

/-- The factors found so far, in order. -/
structure Factors where
  found : List Sourced := []
  derivation : Derivation

namespace Factors

/-- Adds a factor of `parent`, unless it is the clause itself or was found before. -/
def add (whole : Clause) (parent : Sourced) (fs : Factors) (i : Inference) : Factors :=
  if i.conclusion.same whole || fs.found.any (·.clause.same i.conclusion) then fs
  else
    let (c, derivation) := fs.derivation.derive i.conclusion i.rule [parent]
    ⟨fs.found ++ [c], derivation⟩

/-- Adds the direct factors of `parent`. -/
def expand (u : Unifier) (whole : Clause) (fs : Factors) (parent : Sourced) : Factors :=
  (directFactors u parent.clause).foldl (add whole parent) fs

/-- Rounds of factoring: each takes up what the last one found. -/
def rounds (u : Unifier) (whole : Clause) : Nat → List Sourced → Factors → Factors
  | 0, _, fs => fs
  | _ + 1, [], fs => fs
  | n + 1, level, fs =>
    let next := level.foldl (expand u whole) fs
    rounds u whole n (next.found.drop fs.found.length) next

end Factors

/-- A bound on the rounds of factoring. With the occurs check a new factor has fewer literals or
fewer variables than its parent, so the last two summands suffice; without it the first one stands
for a bound that no run reaches. -/
def factorRounds (c : Clause) : Nat := 0x4000000000000000 + c.size + c.vars.length

/-- The factors of a clause and of its factors, in the order they are found. -/
def factors (u : Unifier) (c : Sourced) (d : Derivation) : List Sourced × Derivation :=
  let fs := Factors.rounds u c.clause (factorRounds c.clause) [c] { derivation := d }
  (fs.found, fs.derivation)

end Refutation
