import Refutation.Clause.Basic

/-!
# Positions in clauses

A position names a subterm of a clause: the literal, the argument of its atom, and the path
below that argument.
-/

namespace Refutation

/-- The place of a subterm in a clause. -/
structure Position where
  literal : Nat
  argument : Nat
  path : List Nat
deriving DecidableEq, Inhabited

namespace Position

/-- The subterm of a clause at a position. -/
def resolve? (p : Position) (c : Clause) : Option Term :=
  c.literals[p.literal]? >>= fun l => l.atom.at? p.argument p.path

/-- All indices with points between. -/
def text (p : Position) : String :=
  String.intercalate "." ((p.literal :: p.argument :: p.path).map toString)

end Position

/-- The literals of a clause with the subterm at a position exchanged; `none` if there is none. -/
def Clause.replaceAt? (c : Clause) (p : Position) (r : Term) : Option (List Literal) := do
  let l ← c.literals[p.literal]?
  let a ← l.atom.replaceAt? p.argument p.path r
  some (c.literals.set p.literal ⟨l.positive, a⟩)

end Refutation
