import Refutation.Calculus.Session
import Refutation.Unification

/-!
# Resolution

Two clauses with literals of opposite sign that unify yield their resolvent: what is left of both
under the unifier, with fresh variables.
-/

namespace Refutation

/-- The resolvent of two clauses without common variables on a literal of each. -/
def resolveOn (u : Unifier) (left right : Clause) (l m : Literal) (ns : NameSource) :
    Option (Inference × NameSource) :=
  if l.positive = m.positive || !l.sameSignature m then none
  else match u.literals l m with
    | .error _ => none
    | .ok σ =>
      let r := Clause.instantiateFresh (left.without l ++ right.without m) σ ns
      some (⟨r.clause, .resolve l σ r.rename⟩, r.names)

/-- The resolvents of two clauses without common variables, by literals of the first and then of
the second. -/
def resolventsApart (u : Unifier) (left right : Clause) (ns : NameSource) :
    List Inference × NameSource :=
  tryEach (fun (l, m) => resolveOn u left right l m)
    (left.literals.flatMap fun l => right.literals.map (l, ·)) ns

namespace Session

/-- All resolvents of two clauses; the second is renamed apart first if need be. -/
def resolvents (s : Session) (u : Unifier) (left right : Sourced) : List Sourced × Session :=
  let (right, s) := s.separate left right
  let (inferences, names) := resolventsApart u left.clause right.clause s.names
  let (cs, derivation) := record [left, right] inferences s.derivation
  (cs, ⟨names, derivation⟩)

end Session

end Refutation
