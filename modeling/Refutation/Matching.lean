import Refutation.Substitution.Apply

/-!
# Matching

Matching binds the variables of a pattern so that it becomes the target. The target's variables
are rigid, also those that the pattern has too. The bindings made are returned with the verdict,
and after a failure they are those made up to it.
-/

namespace Refutation

namespace Term

mutual

/-- Extends `σ` so that the pattern becomes the target. -/
def matchTo (σ : Substitution) : (pattern target : Term) → Bool × Substitution
  | .var v, t =>
    match σ.get? v with
    | some bound => (bound == t, σ)
    | none => (true, σ.insert v t)
  | .const c, .const d => (c == d, σ)
  | .app f ps, .app g ts =>
    if f = g ∧ ps.length = ts.length then matchLists σ ps ts else (false, σ)
  | _, _ => (false, σ)

/-- Extends `σ` pair by pair, up to the first failure. -/
def matchLists (σ : Substitution) : (patterns targets : List Term) → Bool × Substitution
  | p :: ps, t :: ts =>
    match p.matchTo σ t with
    | (true, σ) => matchLists σ ps ts
    | (false, σ) => (false, σ)
  | _, _ => (true, σ)

end

/-- The bindings that make the pattern the target. -/
def match? (pattern target : Term) : Option Substitution :=
  match pattern.matchTo .empty target with
  | (true, σ) => some σ
  | (false, _) => none

end Term

/-- Extends `σ` so that the pattern becomes the target. -/
def Atom.matchTo (σ : Substitution) : (pattern target : Atom) → Bool × Substitution
  | .pred p ps, .pred q ts =>
    if p = q ∧ ps.length = ts.length then Term.matchLists σ ps ts else (false, σ)
  | .eq l r, .eq l' r' => Term.matchLists σ [l, r] [l', r']
  | _, _ => (false, σ)

/-- Extends `σ` so that the pattern becomes the target; the signs must agree. -/
def Literal.matchTo (σ : Substitution) (pattern target : Literal) : Bool × Substitution :=
  if pattern.positive = target.positive then pattern.atom.matchTo σ target.atom else (false, σ)

end Refutation
