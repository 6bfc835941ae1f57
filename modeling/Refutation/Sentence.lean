import Refutation.Clause.Basic

/-!
# Sentences

Sentences of first-order logic with equality. A quantifier binds a list of variables; free
variables are read as bound by an outermost universal quantifier.
-/

namespace Refutation

inductive Quantifier where
  | all
  | ex
deriving DecidableEq, Inhabited

namespace Quantifier

/-- The quantifier that a negation turns this one into. -/
def dual : Quantifier → Quantifier
  | .all => .ex
  | .ex => .all

def text : Quantifier → String
  | .all => "FORALL"
  | .ex => "EXISTS"

end Quantifier

/-- A sentence of first-order logic. -/
inductive Sentence where
  | atom (a : Atom)
  | not (s : Sentence)
  | and (l r : Sentence)
  | or (l r : Sentence)
  | implies (l r : Sentence)
  | iff (l r : Sentence)
  | quant (q : Quantifier) (vs : List Var) (s : Sentence)
deriving DecidableEq, Inhabited

namespace Sentence

/-- Left-nested conjunction; there is none of nothing. -/
def conj? : List Sentence → Option Sentence
  | [] => none
  | s :: ss => some (ss.foldl .and s)

/-- Left-nested disjunction; there is none of nothing. -/
def disj? : List Sentence → Option Sentence
  | [] => none
  | s :: ss => some (ss.foldl .or s)

/-- The variables free in a sentence inside binders of `bound`, from left to right. -/
def freeOccurrences (bound : List Var) : Sentence → List Var
  | .atom a => a.occurrences.filter (· ∉ bound)
  | .not s => s.freeOccurrences bound
  | .and l r | .or l r | .implies l r | .iff l r =>
    l.freeOccurrences bound ++ r.freeOccurrences bound
  | .quant _ vs s => s.freeOccurrences (vs ++ bound)

/-- The free variables in order of first occurrence. -/
def free (s : Sentence) : List Var := (s.freeOccurrences []).eraseDups

/-- The atoms from left to right. -/
def atoms : Sentence → List Atom
  | .atom a => [a]
  | .not s => s.atoms
  | .and l r | .or l r | .implies l r | .iff l r => l.atoms ++ r.atoms
  | .quant _ _ s => s.atoms

/-- Negation as `~`, connectives in brackets, quantified variables with commas between. -/
def text : Sentence → String
  | .atom a => a.text
  | .not s => "~" ++ s.text
  | .and l r => "(" ++ l.text ++ " & " ++ r.text ++ ")"
  | .or l r => "(" ++ l.text ++ " | " ++ r.text ++ ")"
  | .implies l r => "(" ++ l.text ++ " => " ++ r.text ++ ")"
  | .iff l r => "(" ++ l.text ++ " <=> " ++ r.text ++ ")"
  | .quant q vs s => q.text ++ " " ++ String.intercalate "," (vs.map Var.name) ++ " " ++ s.text

end Sentence

/-! ## Clauses as sentences -/

/-- A literal as a sentence. -/
def Literal.toSentence (l : Literal) : Sentence :=
  if l.positive then .atom l.atom else .not (.atom l.atom)

namespace Clause

/-- The disjunction of a clause's literals; there is none of the empty clause. -/
def toSentence? (c : Clause) : Option Sentence :=
  Sentence.disj? (c.literals.map Literal.toSentence)

/-- A rule as an implication: its negated atoms imply the positive one. -/
def toImplication? (c : Clause) : Option Sentence :=
  if c.isRule then do
    let premise ← Sentence.conj? (c.negatives.map fun l => .atom l.atom)
    let head ← c.positives.head?
    some (.implies premise (.atom head.atom))
  else none

end Clause

end Refutation
