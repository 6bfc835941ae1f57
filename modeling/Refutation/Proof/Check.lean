import Refutation.Proof.Derivation

/-!
# Checking steps

`Derivation.checkStep` tests a step against the clauses it cites. It trusts nothing that the rule records:
the substitutions are applied again, and the recorded clause has to come out.
-/

namespace Refutation

/-- What is wrong with a step. -/
inductive Flaw where
  | premiseCount (rule : String) (expected found : Nat)
  | notRenaming (ρ : Substitution)
  | nothingMerged
  | notLiteralOf (l : Literal) (c : Clause)
  | noPair (left right conclusion : Clause)
  | notPositiveOf (l : Literal) (c : Clause)
  | notEquality (l : Literal)
  | noPosition (p : Position) (c : Clause)
  | notUnified (σ : Substitution) (s t : Term)
  | notReplaceable (c : Clause) (p : Position)
  | otherConclusion (expected recorded : Clause)
deriving DecidableEq

def Flaw.message : Flaw → String
  | .premiseCount rule expected found =>
    rule ++ " expects " ++ toString expected ++ " predecessors, found " ++ toString found
  | .notRenaming ρ => ρ.text ++ " is not a renaming"
  | .nothingMerged => "factor does not merge any literals"
  | .notLiteralOf l c => l.text ++ " is not a literal of " ++ c.text
  | .noPair left right conclusion =>
    "no complementary pair of " ++ left.text ++ " and " ++ right.text ++ " yields " ++ conclusion.text
  | .notPositiveOf l c => l.text ++ " is not a positive literal of " ++ c.text
  | .notEquality l => l.text ++ " is not an equality"
  | .noPosition p c => "position " ++ p.text ++ " not in " ++ c.text
  | .notUnified σ s t => σ.text ++ " does not unify " ++ s.text ++ " with " ++ t.text
  | .notReplaceable c p => "cannot rewrite " ++ c.text ++ " at " ++ p.text
  | .otherConclusion expected recorded => "expected " ++ expected.text ++ ", recorded " ++ recorded.text

namespace Clause

/-- What is left of two clauses when a literal of each is resolved away, under `σ`. -/
def resolvent (left right : Clause) (l m : Literal) (σ : Substitution) : Clause :=
  (ofList (left.without l ++ right.without m)).subst σ

/-- Some literal of `right`, opposite to `l` under `σ`, yields the conclusion with it. -/
def hasResolvent (left right : Clause) (l : Literal) (σ ρ : Substitution) (conclusion : Clause) : Bool :=
  right.literals.any fun m =>
    m.positive != l.positive && m.atom.subst σ == l.atom.subst σ &&
      ((left.resolvent right l m σ).subst ρ).same conclusion

end Clause

/-- The expected clause must be the recorded one, up to the order of literals. -/
def expectConclusion (expected recorded : Clause) : Except Flaw Unit :=
  if expected.same recorded then .ok () else .error (.otherConclusion expected recorded)

/-- Use of an equation of `source` at a position of `into`. -/
def checkParamodulant (source into : Clause) (e : Literal) (leftToRight : Bool) (p : Position)
    (σ ρ : Substitution) (conclusion : Clause) : Except Flaw Unit := do
  unless e.positive && decide (e ∈ source) do throw (.notPositiveOf e source)
  match e.atom with
  | .pred .. => throw (.notEquality e)
  | .eq l r =>
    let (before, after) := if leftToRight then (l, r) else (r, l)
    let some s := p.resolve? into | throw (.noPosition p into)
    unless s.subst σ = before.subst σ do throw (.notUnified σ s before)
    let some replaced := into.replaceAt? p after | throw (.notReplaceable into p)
    expectConclusion (((Clause.ofList (source.without e ++ replaced)).subst σ).subst ρ) conclusion

/-- Tests a clause said to follow by a rule from the given clauses. -/
def Rule.check (rule : Rule) (conclusion : Clause) (premises : List Clause) : Except Flaw Unit :=
  match rule, premises with
  | .premise, [] | .goal, [] | .builtin _, [] => .ok ()
  | .rename ρ, [c] => do
    unless ρ.isRenaming do throw (.notRenaming ρ)
    expectConclusion (c.subst ρ) conclusion
  | .factor σ, [c] => do
    unless (c.subst σ).size < c.size do throw .nothingMerged
    expectConclusion (c.subst σ) conclusion
  | .resolve l σ ρ, [left, right] => do
    unless l ∈ left do throw (.notLiteralOf l left)
    unless left.hasResolvent right l σ ρ conclusion do throw (.noPair left right conclusion)
  | .paramodulate e leftToRight p σ ρ, [source, into] =>
    checkParamodulant source into e leftToRight p σ ρ conclusion
  | .premise, cs | .goal, cs | .builtin _, cs => .error (.premiseCount rule.name 0 cs.length)
  | .rename _, cs | .factor _, cs => .error (.premiseCount rule.name 1 cs.length)
  | .resolve .., cs | .paramodulate .., cs => .error (.premiseCount rule.name 2 cs.length)

/-- Tests a step of a derivation against the clauses it cites. -/
def Derivation.checkStep (d : Derivation) (s : Step) : Except Flaw Unit :=
  s.rule.check s.conclusion (s.premises.filterMap fun p => d.steps[p]?.map Step.conclusion)

end Refutation
