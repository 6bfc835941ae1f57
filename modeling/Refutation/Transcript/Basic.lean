import Refutation.Search.Outcome
import Refutation.Transcript.Entry

/-!
# Transcripts

A transcript is the published form of a proof: its lines with their clauses, and the answer as
texts by variable name.
-/

namespace Refutation

/-- A line of a proof in its published form. -/
structure StepEntry where
  number : Nat
  formula : String
  justification : String
  premises : List Nat
  clause : ClauseEntry

/-- A proof in its published form. Bindings go from variable names to texts of terms. -/
structure Transcript where
  steps : List StepEntry
  bindings : List (String × String)
  alternatives : List (List (String × String))

/-! ## Publishing -/

def StepEntry.ofLine (l : ProofLine) : StepEntry :=
  ⟨l.number, l.step.conclusion.text, l.justification, l.premises, .ofClause l.step.conclusion⟩

/-- The bindings as texts. -/
def Substitution.published (σ : Substitution) : List (String × String) :=
  σ.bindings.map fun (v, t) => (v.name, t.text)

def Proof.transcript (p : Proof) : Transcript :=
  ⟨p.lines.map .ofLine, p.bindings.published, p.alternatives.map Substitution.published⟩

/-! ## JSON -/

/-- Fields with a list as value; an empty list is left out. -/
def listField (name : String) (items : List Json) : List (String × Json) :=
  if items.isEmpty then [] else [(name, .array items)]

/-- A field that may be absent and is a list of natural numbers then. -/
def natsOf? (levels : Nat) : Option Json → Option (List Nat)
  | none => some []
  | some v => v.list? (fun _ n => n.nat?) levels

namespace StepEntry

/-- No premises are left out. -/
def toJson (s : StepEntry) : Json :=
  .record ([("step", Json.ofNat s.number), ("formula", .ofText s.formula),
      ("justification", .ofText s.justification)] ++
    listField "premises" (s.premises.map .ofNat) ++ [("clause", s.clause.toJson)])

def ofJson? (levels : Nat) (v : Json) : Option StepEntry := do
  let levels ← Json.enter? levels
  match ← v.fields? ["step", "formula", "justification", "premises", "clause"] with
  | [some step, some formula, some justification, premises, some clause] =>
    return ⟨← step.nat?, ← formula.text?, ← justification.text?, ← natsOf? levels premises,
      ← ClauseEntry.ofJson? levels clause⟩
  | _ => none

end StepEntry

/-- Texts by name as an object. -/
def bindingsToJson (bindings : List (String × String)) : Json :=
  .record (bindings.map fun (name, t) => (name, .ofText t))

/-- Texts with one more: a name that is there keeps its place and takes the new text. -/
def putText (bindings : List (String × String)) (name text : String) : List (String × String) :=
  if bindings.any (·.1 == name) then bindings.map fun b => if b.1 == name then (name, text) else b
  else bindings ++ [(name, text)]

/-- Texts by name; of a repeated name the last one counts. -/
def bindingsOfJson? (levels : Nat) (v : Json) : Option (List (String × String)) := do
  let _ ← Json.enter? levels
  (← v.members).foldlM (fun bindings (name, t) => return putText bindings name (← t.text?)) []

namespace Transcript

/-- Empty bindings and alternatives are left out. -/
def toJson (t : Transcript) : Json :=
  let bindings := if t.bindings.isEmpty then [] else [("bindings", bindingsToJson t.bindings)]
  .record (("steps", .array (t.steps.map StepEntry.toJson)) :: bindings ++
    listField "alternatives" (t.alternatives.map bindingsToJson))

def ofJson? (levels : Nat) (v : Json) : Option Transcript := do
  let levels ← Json.enter? levels
  match ← v.fields? ["steps", "bindings", "alternatives"] with
  | [some steps, bindings, alternatives] =>
    let bindings ← match bindings with
      | some v => bindingsOfJson? levels v
      | none => some []
    let alternatives ← match alternatives with
      | some v => v.list? bindingsOfJson? levels
      | none => some []
    return ⟨← steps.list? StepEntry.ofJson? levels, bindings, alternatives⟩
  | _ => none

end Transcript

/-- The outcome with the transcripts of its proofs and the bound that stopped it. -/
def Outcome.toJson (o : Outcome) : Json :=
  let limit := match o.limit? with
    | some limit => [("limit", Json.ofText limit.text)]
    | none => []
  .record (("status", .ofText o.status) ::
    listField "proofs" (o.proofs.map (·.transcript.toJson)) ++ limit)

end Refutation
