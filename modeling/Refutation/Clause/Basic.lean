import Refutation.Literal

/-!
# Clauses

A clause is a finite set of literals, read as their disjunction. Its literals have an order,
which its text and the inference rules follow, but two clauses with the same literals in
different orders count as the same clause (`Clause.same`).
-/

namespace Refutation

/-- A set of literals in order of first mention, read as a disjunction. -/
@[ext]
structure Clause where
  literals : List Literal
  nodup : literals.Nodup
deriving DecidableEq

namespace Clause

/-- The clause of the given literals; repetitions collapse to the first mention. -/
def ofList (ls : List Literal) : Clause := ⟨ls.eraseDups, nodup_eraseDups ls⟩

/-- The clause without literals, which nothing satisfies. -/
def empty : Clause := ⟨[], List.nodup_nil⟩

instance : Inhabited Clause := ⟨empty⟩

instance : Membership Literal Clause := ⟨fun c l => l ∈ c.literals⟩

instance (l : Literal) (c : Clause) : Decidable (l ∈ c) := inferInstanceAs (Decidable (l ∈ c.literals))

@[simp]
theorem mem_ofList {l : Literal} {ls : List Literal} : l ∈ ofList ls ↔ l ∈ ls := List.mem_eraseDups

@[simp]
theorem ofList_literals (c : Clause) : ofList c.literals = c :=
  Clause.ext (eraseDups_eq_self c.nodup)

def size (c : Clause) : Nat := c.literals.length

def isEmpty (c : Clause) : Bool := c.literals.isEmpty

/-- The same literals, in whatever order. -/
def same (c d : Clause) : Bool := c.size == d.size && c.literals.all (· ∈ d)

/-- The literals but one. -/
def without (c : Clause) (l : Literal) : List Literal := c.literals.filter (· ≠ l)

/-! ## Classes of clauses -/

def positives (c : Clause) : List Literal := c.literals.filter (·.positive)

def negatives (c : Clause) : List Literal := c.literals.filter (!·.positive)

/-- Exactly one literal. -/
def isUnit (c : Clause) : Bool := c.size == 1

/-- Not empty, and at most one literal is positive. -/
def isHorn (c : Clause) : Bool := !c.isEmpty && decide (c.positives.length ≤ 1)

/-- Exactly one literal is positive. -/
def isDefinite (c : Clause) : Bool := c.positives.length == 1

/-- Definite with at least one condition: a rule. -/
def isRule (c : Clause) : Bool := c.isDefinite && decide (0 < c.negatives.length)

/-- A single positive literal. -/
def isFact (c : Clause) : Bool := c.isDefinite && c.negatives.length == 0

/-- Some literal stands beside its negation. -/
def isTautology (c : Clause) : Bool := c.positives.any fun l => decide (l.negated ∈ c)

/-! ## Variables and size -/

/-- The variables from left to right, with repetitions. -/
def occurrences (c : Clause) : List Var := c.literals.flatMap Literal.occurrences

/-- The variables in order of first occurrence. -/
def vars (c : Clause) : List Var := c.occurrences.eraseDups

def isGround (c : Clause) : Bool := c.occurrences.isEmpty

def wellFormed (c : Clause) : Bool := c.literals.all (·.atom.wellFormed)

/-- An equality stands in the clause. -/
def hasEq (c : Clause) : Bool := c.literals.any (·.atom.isEq)

/-- The number of symbols; signs do not count. -/
def weight (c : Clause) : Nat := c.literals.foldr (fun l n => l.atom.weight + n) 0

/-! ## Text -/

/-- The literals with bars between; the empty clause is `False`. -/
def text (c : Clause) : String :=
  if c.isEmpty then "False" else String.intercalate " | " (c.literals.map Literal.text)

end Clause

end Refutation
