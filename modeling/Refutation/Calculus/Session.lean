import Refutation.Fresh.Apart
import Refutation.Proof.Derivation

/-!
# Inference sessions

Inferences draw fresh names and record steps. A session holds both: the name source and the
derivation so far.

* `tryEach`: what comes of trying a list of candidates, names drawn in order.
* `Session.separate`: a clause renamed apart from another.
* `Session.record`: inferences from given parents become steps.
-/

namespace Refutation

/-- A clause that a rule yields. -/
structure Inference where
  conclusion : Clause
  rule : Rule

/-- Tries each candidate in turn; the names that one draws are gone for the next. -/
def tryEach {α β : Type} (attempt : α → NameSource → Option (β × NameSource)) :
    List α → NameSource → List β × NameSource
  | [], ns => ([], ns)
  | a :: as, ns =>
    match attempt a ns with
    | none => tryEach attempt as ns
    | some (b, ns) =>
      let (bs, ns) := tryEach attempt as ns
      (b :: bs, ns)

/-- The names drawn and the steps recorded so far. -/
structure Session where
  names : NameSource
  derivation : Derivation := .empty

namespace Session

/-- `other`, renamed apart from `c` if the two share a variable. -/
def separate (s : Session) (c other : Sourced) : Sourced × Session :=
  let vars := c.clause.vars
  if other.clause.vars.all (· ∉ vars) then (other, s)
  else
    let r := other.clause.renameApart vars s.names
    let (renamed, derivation) := s.derivation.derive r.clause (.rename r.rename) [other]
    (renamed, ⟨r.names, derivation⟩)

/-- Records inferences from the given parents, one step each. -/
def record (parents : List Sourced) : List Inference → Derivation → List Sourced × Derivation
  | [], d => ([], d)
  | i :: is, d =>
    let (c, d) := d.derive i.conclusion i.rule parents
    let (cs, d) := record parents is d
    (c :: cs, d)

end Session

end Refutation
