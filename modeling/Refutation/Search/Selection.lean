/-!
# Selection of the given clause

Waiting clauses stand in a queue. Most selections take the lightest one, which finds short proofs;
every so often the oldest is taken, so that each waiting clause has its turn.
-/

namespace Refutation

/-- Takes the oldest clause every `ratio` picks and the lightest at the others; only the lightest
if `ratio` is 0. -/
structure Selector where
  ratio : Nat
  picks : Nat := 0
deriving DecidableEq

/-- A selected clause, the queue without it, and the selector afterwards. -/
structure Pick where
  id : Nat
  queue : List Nat
  selector : Selector

namespace Selector

/-- The weight of a clause that the table does not list. -/
def unlisted : Nat := 0xffffffffffffffff

def weightOf (weights : Array Nat) (id : Nat) : Nat := weights.getD id unlisted

/-- The first of the lightest clauses of a queue that starts with `best`. -/
def lightest (weights : Array Nat) (best : Nat) : List Nat → Nat
  | [] => best
  | id :: rest => lightest weights (if weightOf weights id < weightOf weights best then id else best) rest

/-- Takes a clause from a queue; there is none to take from an empty one. -/
def select (s : Selector) (weights : Array Nat) : (queue : List Nat) → Option Pick
  | [] => none
  | oldest :: rest =>
    let s := { s with picks := s.picks + 1 }
    let id :=
      if 0 < s.ratio ∧ s.picks % s.ratio = 0 then oldest else lightest weights oldest rest
    some ⟨id, (oldest :: rest).erase id, s⟩

end Selector

end Refutation
