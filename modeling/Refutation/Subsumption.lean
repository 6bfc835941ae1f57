import Refutation.Matching

/-!
# Subsumption

A clause subsumes another if an instance of it is contained in the other and it has no more
literals of either sign. The variables of the subsumed clause are rigid.

* `Clause.subsumes`: the test, by backtracking over the candidates for each literal.
* `subsumedIndices`: which clauses of a list others of the list subsume.
-/

namespace Refutation

/-- A literal with the literals it may be matched to. -/
structure Candidates where
  literal : Literal
  targets : List Literal

/-- Matches each literal to one of its targets under one common substitution. -/
def matchAll (σ : Substitution) : List Candidates → Bool
  | [] => true
  | c :: rest => c.targets.any fun t =>
    match c.literal.matchTo σ t with
    | (true, σ) => matchAll σ rest
    | (false, _) => false

namespace Clause

/-- For each literal of `c` the literals of `d` with the same key, fewest first. -/
def candidates (c d : Clause) : List Candidates :=
  let keyed := d.literals.map fun m => (m.key, m)
  let targets (l : Literal) := keyed.filterMap fun (k, m) => if k = l.key then some m else none
  (c.literals.map fun l => ⟨l, targets l⟩).mergeSort
    fun a b => decide (a.targets.length ≤ b.targets.length)

/-- An instance of `c` is contained in `d`, and `c` has no more literals of either sign. -/
def subsumes (c d : Clause) : Bool :=
  decide (c.size ≤ d.size) && decide (c.positives.length ≤ d.positives.length) &&
    decide (c.negatives.length ≤ d.negatives.length) && matchAll .empty (c.candidates d)

/-- Some clause of the list subsumes `c`. -/
def subsumedByAny (c : Clause) (ds : List Clause) : Bool := ds.any (·.subsumes c)

end Clause

/-! ## Reducing a list -/

/-- A clause with its place in a list. -/
structure Indexed where
  clause : Clause
  index : Nat

/-- Marks what `c` subsumes among `others`, apart from itself and what is marked already. -/
def markSubsumedBy (c : Indexed) (others : List Indexed) (marked : List Nat) : List Nat :=
  others.foldl (fun marked d =>
    if c.index ≠ d.index ∧ d.index ∉ marked ∧ c.clause.subsumes d.clause then marked ++ [d.index]
    else marked) marked

/-- The indices of clauses that others of the list subsume, in the order they are found. Clauses
are taken by size and then by place, each against those of its size or larger; a marked clause
marks no others, so the first of several variants stays. -/
def subsumedIndices (cs : List Clause) : List Nat :=
  let bySize := (cs.zipIdx.map fun (c, i) => Indexed.mk c i).mergeSort
    fun a b => decide (a.clause.size ≤ b.clause.size)
  bySize.foldl (fun marked c =>
    if c.index ∈ marked then marked
    else markSubsumedBy c (bySize.filter fun d => decide (c.clause.size ≤ d.clause.size)) marked) []

end Refutation
