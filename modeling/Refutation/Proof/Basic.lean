import Refutation.Proof.Check

/-!
# Proofs

A proof is a step of a derivation with all that it rests on. It may answer a query: with one
binding of the query's variables, or with several of which at least one holds.

* `Proof.lines`: the steps numbered from 1, each after those it cites.
* `Proof.verify`: every step checks.
* `Proof.text`: the numbered lines and the answer.
-/

namespace Refutation

/-- A step of a derivation, with the answer it gives. -/
structure Proof where
  derivation : Derivation
  root : Nat
  rooted : root < derivation.size
  bindings : Substitution := .empty
  /-- Bindings of which at least one answers the query; empty unless the answer is disjunctive. -/
  alternatives : List Substitution := []

/-- A numbered line of a proof. -/
structure ProofLine where
  number : Nat
  step : Step
  premises : List Nat

/-- A line that does not check. -/
structure InvalidProof where
  line : Nat
  flaw : Flaw
deriving DecidableEq

def InvalidProof.message (e : InvalidProof) : String :=
  "Invalid proof at step " ++ toString e.line ++ ": " ++ e.flaw.message

namespace ProofLine

def justification (l : ProofLine) : String := l.step.rule.justification l.premises

/-- The number in a column of four, the clause, and its justification. -/
def text (l : ProofLine) : String :=
  let number := toString l.number
  String.ofList (List.replicate (4 - number.length) ' ') ++ number ++ ". " ++
    l.step.conclusion.text ++ "  [" ++ l.justification ++ "]\n"

end ProofLine

/-- A step at a glance: its clause, its rule and how many steps it cites. -/
def Step.summary (s : Step) : String :=
  "ProofStep \x7b conclusion: " ++ s.conclusion.text ++ ", rule: \"" ++ s.rule.name ++
    "\", premises: " ++ toString s.premises.length ++ " \x7d"

/-- A clause at a glance: its literals and the rule that produced it, if any. -/
def Sourced.summary (c : Sourced) (d : Derivation) : String :=
  let rule := match c.step >>= fun i => d.steps[i]? with
    | some s => "Some(\"" ++ s.rule.name ++ "\")"
    | none => "None"
  "Clause \x7b literals: " ++ c.clause.text ++ ", rule: " ++ rule ++ " \x7d"

namespace Proof

/-- The proof of a clause, which is cited in the derivation. -/
def ofClause (d : Derivation) (c : Sourced) (bindings : Substitution := .empty)
    (alternatives : List Substitution := []) : Proof :=
  let ⟨(derivation, root), h⟩ := d.cite c
  { derivation, root, rooted := h.1, bindings, alternatives }

/-- The answer is a choice among several bindings. -/
def isDisjunctive (p : Proof) : Bool := !p.alternatives.isEmpty

/-- The numbers, in the derivation, of the steps in order. -/
def order (p : Proof) : List Nat := p.derivation.order p.root

/-- The steps, each after those it cites and the root last. -/
def steps (p : Proof) : List Step := p.order.filterMap fun i => p.derivation.steps[i]?

/-- The clause proved. -/
def conclusion (p : Proof) : Clause :=
  have : p.root < p.derivation.steps.size := p.rooted
  p.derivation.steps[p.root].conclusion

/-- The steps numbered from 1, with the numbers of those they cite. -/
def lines (p : Proof) : List ProofLine :=
  let order := p.order
  p.steps.zipIdx.map fun (s, i) =>
    ⟨i + 1, s, s.premises.filterMap fun q => (order.idxOf? q).map (· + 1)⟩

/-- The longest chain of inferences, renaming not counted. -/
def depth (p : Proof) : Nat := p.derivation.depths.getD p.root 0

/-- The clauses taken in without predecessors, in order and without repetitions. -/
def inputs (p : Proof) : List Clause :=
  ((p.steps.filter (·.rule.isInput)).map Step.conclusion).eraseDupsBy Clause.same

/-- Tests every step, in order. -/
def verify (p : Proof) : Except InvalidProof Unit :=
  p.lines.forM fun l => (p.derivation.checkStep l.step).mapError (⟨l.number, ·⟩)

def text (p : Proof) : String :=
  let lines := String.join (p.lines.map ProofLine.text)
  let answer := if p.bindings.isEmpty then "" else "Answer: " ++ p.bindings.text ++ "\n"
  let choice :=
    if p.isDisjunctive then
      "Answer: " ++ String.intercalate " or " (p.alternatives.map Substitution.text) ++ "\n"
    else ""
  lines ++ answer ++ choice

end Proof

end Refutation
