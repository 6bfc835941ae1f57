import Refutation.Proof.Basic

/-!
# Outcomes of a search

A search ends with proofs, with the knowledge that there is none, or at a bound. A bound never
says that there is no proof.
-/

namespace Refutation

/-- The bound that stopped a search. -/
inductive Limit where
  | time
  | clauses
  | inferences
deriving DecidableEq

def Limit.text : Limit → String
  | .time => "time"
  | .clauses => "clauses"
  | .inferences => "inferences"

/-- How a search ended. -/
inductive Outcome where
  /-- A contradiction, or answers to a query with free variables. -/
  | proved (proofs : List Proof)
  /-- Nothing is left to infer, and no contradiction was met. -/
  | disproved
  | unknown (limit : Limit)

namespace Outcome

def isProved : Outcome → Bool
  | .proved _ => true
  | _ => false

def isDisproved : Outcome → Bool
  | .disproved => true
  | _ => false

def isUnknown : Outcome → Bool
  | .unknown _ => true
  | _ => false

def proofs : Outcome → List Proof
  | .proved ps => ps
  | _ => []

def limit? : Outcome → Option Limit
  | .unknown limit => some limit
  | _ => none

def status : Outcome → String
  | .proved _ => "proved"
  | .disproved => "disproved"
  | .unknown _ => "unknown"

end Outcome

/-- Counts of what a search did. -/
structure Stats where
  /-- Given clauses selected. -/
  rounds : Nat
  /-- Clauses kept, retired ones included. -/
  clauses : Nat
  /-- Clauses derived. -/
  inferences : Nat
  /-- Clauses dropped or retired because others subsume them. -/
  subsumed : Nat
deriving DecidableEq

end Refutation
