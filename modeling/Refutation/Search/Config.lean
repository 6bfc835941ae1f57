import Refutation.Json.Decode
import Refutation.Unification

/-!
# Configuration of a search

Bounds and switches of one search. A bound of zero is no bound.
-/

namespace Refutation

/-- A span of time, in nanoseconds. -/
structure Duration where
  nanos : Nat
deriving DecidableEq

namespace Duration

/-- The nanoseconds of a second. -/
def perSecond : Nat := 1000000000

def ofSeconds (n : Nat) : Duration := ⟨n * perSecond⟩

/-- Whole seconds and the nanoseconds beyond them. -/
def toJson (d : Duration) : Json :=
  .record [("secs", .ofNat (d.nanos / perSecond)), ("nanos", .ofNat (d.nanos % perSecond))]

/-- Both fields are needed and no other is known. Nanoseconds of a second or more carry over, as
long as the seconds stay below `2 ^ 64`. -/
def ofJson? (levels : Nat) (v : Json) : Option Duration := do
  let _ ← Json.enter? levels
  if !v.hasOnly ["secs", "nanos"] then none
  else match ← v.fields? ["secs", "nanos"] with
    | [some secs, some nanos] =>
      let secs ← secs.nat?
      let nanos ← nanos.natBelow? (Nat.pow 2 32)
      if secs + nanos / perSecond < Nat.pow 2 64 then some ⟨secs * perSecond + nanos⟩ else none
    | _ => none

end Duration

/-- Bounds and switches of a search. -/
structure Config where
  timeout : Duration := .ofSeconds 10
  /-- Bound on the clauses kept. -/
  maxClauses : Nat := 0
  /-- Bound on the clauses derived, redundant ones included. -/
  maxInferences : Nat := 0
  occursCheck : Bool := true
  /-- Replace equals by equals. -/
  paramodulation : Bool := true
  /-- Bound on the answers to a query with free variables. -/
  maxAnswers : Nat := 0
  /-- Every how many selections the oldest clause is taken and not the lightest; never if 0. -/
  ageWeightRatio : Nat := 5
deriving DecidableEq

/-- What makes a configuration unusable. -/
inductive ConfigFault where
  | zeroTimeout
deriving DecidableEq

def ConfigFault.message : ConfigFault → String
  | .zeroTimeout => "Invalid configuration: timeout must be positive"

/-- Why a text gives no configuration. -/
inductive ConfigError where
  | unreadable
  | config (f : ConfigFault)
deriving DecidableEq

namespace Config

/-- A search needs some time. -/
def validate (c : Config) : Except ConfigFault Unit :=
  if c.timeout.nanos = 0 then .error .zeroTimeout else .ok ()

def unifier (c : Config) : Unifier := { occursCheck := c.occursCheck }

/-! ## JSON -/

def toJson (c : Config) : Json :=
  .record [("timeout", c.timeout.toJson), ("max_clauses", .ofNat c.maxClauses),
    ("max_inferences", .ofNat c.maxInferences), ("occurs_check", .bool c.occursCheck),
    ("paramodulation", .bool c.paramodulation), ("max_answers", .ofNat c.maxAnswers),
    ("age_weight_ratio", .ofNat c.ageWeightRatio)]

/-- The decoded value of a field, or the default of an absent one. -/
def fieldOr {α : Type} (default : α) (decode : Json → Option α) : Option Json → Option α
  | none => some default
  | some v => decode v

/-- Absent fields have their defaults. -/
def ofJson? (levels : Nat) (v : Json) : Option Config := do
  let levels ← Json.enter? levels
  let base : Config := {}
  match ← v.fields? ["timeout", "max_clauses", "max_inferences", "occurs_check", "paramodulation",
      "max_answers", "age_weight_ratio"] with
  | [timeout, maxClauses, maxInferences, occursCheck, paramodulation, maxAnswers, ageWeightRatio] =>
    return {
      timeout := ← fieldOr base.timeout (Duration.ofJson? levels) timeout
      maxClauses := ← fieldOr base.maxClauses Json.nat? maxClauses
      maxInferences := ← fieldOr base.maxInferences Json.nat? maxInferences
      occursCheck := ← fieldOr base.occursCheck Json.bool? occursCheck
      paramodulation := ← fieldOr base.paramodulation Json.bool? paramodulation
      maxAnswers := ← fieldOr base.maxAnswers Json.nat? maxAnswers
      ageWeightRatio := ← fieldOr base.ageWeightRatio Json.nat? ageWeightRatio }
  | _ => none

/-- Reads a configuration, which must be usable. -/
def parse (s : String) : Except ConfigError Config :=
  match Json.parse? s >>= ofJson? Json.maxNesting with
  | none => .error .unreadable
  | some c =>
    match c.validate with
    | .ok () => .ok c
    | .error f => .error (.config f)

end Config

end Refutation
