import Refutation.Calculus.Session
import Refutation.Unification

/-!
# Paramodulation

A positive equation of one clause acts on another: a subterm that unifies with one side gives way
to the other side, and what is left of the first clause joins the second. Both directions of the
equation are tried, and every subterm but variables.
-/

namespace Refutation

/-- A way to replace equals in a clause: an equation, its direction, and a position. -/
structure Replacement where
  equation : Literal
  leftToRight : Bool
  before : Term
  after : Term
  position : Position

/-- The ways in which the equations of `source` might act on `into`. -/
def replacements (source into : Clause) : List Replacement :=
  source.positives.flatMap fun e =>
    match e.atom with
    | .pred .. => []
    | .eq l r => [(l, r, true), (r, l, false)].flatMap fun (before, after, leftToRight) =>
      into.literals.zipIdx.flatMap fun (m, i) => m.atom.nonVarPositions.map fun (arg, path) =>
        ⟨e, leftToRight, before, after, ⟨i, arg, path⟩⟩

/-- The result of one replacement. A term replaced by itself yields nothing. -/
def paramodulantBy (u : Unifier) (source into : Clause) (w : Replacement) (ns : NameSource) :
    Option (Inference × NameSource) := do
  let s ← w.position.resolve? into
  let σ ← (u.terms s w.before).toOption
  if s.subst σ = w.after.subst σ then none
  else
    let replaced ← into.replaceAt? w.position w.after
    let r := Clause.instantiateFresh (source.without w.equation ++ replaced) σ ns
    some (⟨r.clause, .paramodulate w.equation w.leftToRight w.position σ r.rename⟩, r.names)

/-- The results of the equations of `source` acting on `into`. -/
def paramodulantsInto (u : Unifier) (source into : Clause) (ns : NameSource) :
    List Inference × NameSource :=
  tryEach (paramodulantBy u source into) (replacements source into) ns

namespace Session

/-- All paramodulants of two clauses, the first into the second and then the other way; the second
is renamed apart first if need be. -/
def paramodulants (s : Session) (u : Unifier) (left right : Sourced) : List Sourced × Session :=
  let (right, s) := s.separate left right
  let (forward, names) := paramodulantsInto u left.clause right.clause s.names
  let (backward, names) := paramodulantsInto u right.clause left.clause names
  let (cs, derivation) := record [left, right] forward s.derivation
  let (ds, derivation) := record [right, left] backward derivation
  (cs ++ ds, ⟨names, derivation⟩)

end Session

/-- Everything equals itself: `x = x`. -/
def reflexivity : Clause := .ofList [.pos (.eq (.var ⟨"x"⟩) (.var ⟨"x"⟩))]

end Refutation
