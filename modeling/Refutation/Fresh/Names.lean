import Refutation.Term.Basic

/-!
# Fresh names

A name source issues variables `stem0`, `stem1`, … in order and never the same one twice.
A context holds one source for each stem, started on first use.
-/

namespace Refutation

/-- Issues the names that start with `stem`. -/
structure NameSource where
  stem : String
  next : Nat := 0
deriving DecidableEq

namespace NameSource

/-- The variable with a given index. -/
def nth (ns : NameSource) (i : Nat) : Var := ⟨ns.stem ++ toString i⟩

/-- Passes over the next index. -/
def advance (ns : NameSource) : NameSource := { ns with next := ns.next + 1 }

/-- The next index. -/
def draw (ns : NameSource) : Nat × NameSource := (ns.next, ns.advance)

/-- The first variable outside `avoid` among the next `tries + 1`; the last of them if all are
taken. -/
def freshWithin (avoid : List Var) : Nat → NameSource → Var × NameSource
  | 0, ns => (ns.nth ns.next, ns.advance)
  | tries + 1, ns =>
    if ns.nth ns.next ∈ avoid then freshWithin avoid tries ns.advance
    else (ns.nth ns.next, ns.advance)

/-- The next variable outside `avoid`. Among more names than `avoid` holds one is free, so the
search ends with one. -/
def fresh (avoid : List Var) (ns : NameSource) : Var × NameSource :=
  freshWithin avoid avoid.length ns

end NameSource

/-- Name sources by stem. -/
structure NameContext where
  sources : List NameSource := []

namespace NameContext

def empty : NameContext := {}

/-- The source of a stem, a new one if it was not used yet. -/
def source (ctx : NameContext) (stem : String) : NameSource :=
  (ctx.sources.find? (·.stem == stem)).getD { stem }

/-- The context after a source was used. -/
def update (ctx : NameContext) (ns : NameSource) : NameContext :=
  ⟨ns :: ctx.sources.filter (·.stem != ns.stem)⟩

end NameContext

end Refutation
