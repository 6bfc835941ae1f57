import Refutation.Clause.Position
import Refutation.Substitution.Apply

/-!
# Rules of inference

A rule says how a clause came about, with everything needed to check it: the substitutions used,
the literal resolved upon, the equation and the place where it was used.
-/

namespace Refutation

/-- How a clause came about. -/
inductive Rule where
  /-- A clause that is assumed. -/
  | premise
  /-- A clause of the negated query. -/
  | goal
  /-- A clause that always holds, with the name it is known by. -/
  | builtin (name : String)
  /-- The predecessor with its variables renamed. -/
  | rename (ρ : Substitution)
  /-- The predecessor with two of its literals unified. -/
  | factor (σ : Substitution)
  /-- Both predecessors without a complementary pair; the literal is one of the first. -/
  | resolve (literal : Literal) (σ ρ : Substitution)
  /-- The second predecessor with an equation of the first used at a position. -/
  | paramodulate (equation : Literal) (leftToRight : Bool) (position : Position) (σ ρ : Substitution)
deriving DecidableEq

namespace Rule

def name : Rule → String
  | .premise => "Premise"
  | .goal => "Goal"
  | .builtin _ => "Axiom"
  | .rename _ => "Renaming"
  | .factor _ => "Factor"
  | .resolve .. => "Resolution"
  | .paramodulate .. => "Paramodulation"

/-- The rule needs no predecessors. -/
def isInput : Rule → Bool
  | .premise | .goal | .builtin _ => true
  | _ => false

/-- The justification of a step whose predecessors have the given numbers. -/
def justification (numbers : List Nat) : Rule → String :=
  let refs := String.intercalate ", " (numbers.map toString)
  fun
  | .premise => "Premise"
  | .goal => "Goal (negated query)"
  | .builtin name => "Axiom (" ++ name ++ ")"
  | .rename ρ => "Renaming of " ++ refs ++ " " ++ ρ.text
  | .factor σ => "Factor of " ++ refs ++ " " ++ σ.text
  | .resolve l σ ρ =>
    "Resolution: " ++ refs ++ " on " ++ l.text ++ " " ++ σ.text ++ " renaming " ++ ρ.text
  | .paramodulate e leftToRight p σ ρ =>
    "Paramodulation: " ++ refs ++ " with " ++ e.text ++
      (if leftToRight then "" else " (right to left)") ++
      " at " ++ p.text ++ " " ++ σ.text ++ " renaming " ++ ρ.text

end Rule

end Refutation
