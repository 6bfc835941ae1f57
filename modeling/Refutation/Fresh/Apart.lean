import Refutation.Fresh.Names
import Refutation.Substitution.Apply

/-!
# Renaming clauses apart

A clause is renamed apart by giving each of its variables a fresh name. The renaming is returned
with the clause, since a proof records it.
-/

namespace Refutation

/-- Draws a fresh variable for each of `vs`, outside `taken` and all different. -/
def freshRenaming (taken : List Var) : List Var → Substitution → NameSource → Substitution × NameSource
  | [], ρ, ns => (ρ, ns)
  | v :: vs, ρ, ns =>
    let (w, ns) := ns.fresh taken
    freshRenaming (taken ++ [w]) vs (ρ.insert v (.var w)) ns

/-- A renamed clause, the renaming that was applied, and the name source afterwards. -/
structure Renamed where
  clause : Clause
  rename : Substitution
  names : NameSource

namespace Clause

/-- The clause with every variable renamed to a fresh one outside its own and outside `avoid`. -/
def renameApart (c : Clause) (avoid : List Var) (ns : NameSource) : Renamed :=
  let (ρ, ns) := freshRenaming (avoid ++ c.vars) c.vars .empty ns
  ⟨c.subst ρ, ρ, ns⟩

/-- The instance of the given literals under `σ`, with fresh variables. -/
def instantiateFresh (ls : List Literal) (σ : Substitution) (ns : NameSource) : Renamed :=
  ((ofList ls).subst σ).renameApart [] ns

end Clause

end Refutation
