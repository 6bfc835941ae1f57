import Refutation.Sentence

/-!
# Negation normal form

In negation normal form negation stands on atoms only, and the connectives are conjunction,
disjunction and quantifiers.

* `Sentence.eliminate`: implications and biconditionals in terms of the other connectives.
* `Sentence.nnf`: negations pushed down to the atoms.
* `Sentence.isNNF`: the normal form itself.
-/

namespace Refutation

namespace Sentence

/-- Exchanges `l ⇒ r` for `¬l ∨ r`, and `l ⇔ r` for `(¬l ∨ r) ∧ (¬r ∨ l)`. -/
def eliminate : Sentence → Sentence
  | .atom a => .atom a
  | .not s => .not s.eliminate
  | .and l r => .and l.eliminate r.eliminate
  | .or l r => .or l.eliminate r.eliminate
  | .implies l r => .or (.not l.eliminate) r.eliminate
  | .iff l r => .and (.or (.not l.eliminate) r.eliminate) (.or (.not r.eliminate) l.eliminate)
  | .quant q vs s => .quant q vs s.eliminate

/-- Negation normal form of a sentence, or of its negation if `negated`. -/
def nnfOf (negated : Bool) : Sentence → Sentence
  | .atom a => if negated then .not (.atom a) else .atom a
  | .not s => s.nnfOf !negated
  | .and l r =>
    if negated then .or (l.nnfOf true) (r.nnfOf true) else .and (l.nnfOf false) (r.nnfOf false)
  | .or l r =>
    if negated then .and (l.nnfOf true) (r.nnfOf true) else .or (l.nnfOf false) (r.nnfOf false)
  | .implies l r =>
    if negated then .and (l.nnfOf false) (r.nnfOf true) else .or (l.nnfOf true) (r.nnfOf false)
  | .iff l r =>
    if negated then
      .or (.and (l.nnfOf false) (r.nnfOf true)) (.and (r.nnfOf false) (l.nnfOf true))
    else .and (.or (l.nnfOf true) (r.nnfOf false)) (.or (r.nnfOf true) (l.nnfOf false))
  | .quant q vs s => .quant (if negated then q.dual else q) vs (s.nnfOf negated)

/-- The negation normal form. Implications met on the way are eliminated. -/
def nnf (s : Sentence) : Sentence := s.nnfOf false

/-- Negation stands on atoms only, and no implication remains. -/
def isNNF : Sentence → Bool
  | .atom _ => true
  | .not (.atom _) => true
  | .not _ => false
  | .and l r | .or l r => l.isNNF && r.isNNF
  | .implies .. | .iff .. => false
  | .quant _ _ s => s.isNNF

end Sentence

end Refutation
