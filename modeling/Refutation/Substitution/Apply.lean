import Refutation.Sentence
import Refutation.Substitution.Basic

/-!
# Application of substitutions

Substitutions act on atoms, literals and clauses term by term; literals that become equal
collapse. On sentences they also reach the binders: a quantified variable is renamed if its image
is a variable and leaves its quantifier if its image is another term, and a quantifier left
without variables disappears. Nothing guards against capture.
-/

namespace Refutation

/-- The atom with its terms exchanged. -/
def Atom.subst (σ : Substitution) (a : Atom) : Atom := a.map (Term.subst σ)

/-- The literal with its terms exchanged. -/
def Literal.subst (σ : Substitution) (l : Literal) : Literal := ⟨l.positive, l.atom.subst σ⟩

/-- The clause with its terms exchanged; literals that become equal collapse. -/
def Clause.subst (σ : Substitution) (c : Clause) : Clause := .ofList (c.literals.map (Literal.subst σ))

/-- What becomes of a quantified variable: it stays if unbound, takes the name of a variable bound
to it, and goes otherwise. -/
def Substitution.binder? (σ : Substitution) (v : Var) : Option Var :=
  match σ.get? v with
  | none => some v
  | some t => t.var?

/-- A quantifier over the given variables; without variables it is nothing. -/
def Sentence.quantify (q : Quantifier) (vs : List Var) (s : Sentence) : Sentence :=
  if vs.isEmpty then s else .quant q vs s

/-- The sentence with its terms and binders exchanged. -/
def Sentence.subst (σ : Substitution) : Sentence → Sentence
  | .atom a => .atom (a.subst σ)
  | .not s => .not (s.subst σ)
  | .and l r => .and (l.subst σ) (r.subst σ)
  | .or l r => .or (l.subst σ) (r.subst σ)
  | .implies l r => .implies (l.subst σ) (r.subst σ)
  | .iff l r => .iff (l.subst σ) (r.subst σ)
  | .quant q vs s => quantify q (vs.filterMap σ.binder?) (s.subst σ)

/-! ## Size of sentences -/

namespace Sentence

/-- The number of connectives, quantifiers and atoms. -/
def size : Sentence → Nat
  | .atom _ => 1
  | .not s => s.size + 1
  | .and l r | .or l r | .implies l r | .iff l r => l.size + r.size + 1
  | .quant _ _ s => s.size + 1

theorem size_quantify_le (q : Quantifier) (vs : List Var) (s : Sentence) :
    (quantify q vs s).size ≤ s.size + 1 := by
  unfold quantify
  split
  · omega
  · simp [size]

/-- Substitution builds no connectives. -/
theorem size_subst_le (σ : Substitution) (s : Sentence) : (s.subst σ).size ≤ s.size := by
  induction s with
  | atom a => simp [subst, size]
  | not s ih => simpa [subst, size] using ih
  | and l r ihl ihr | or l r ihl ihr | implies l r ihl ihr | iff l r ihl ihr =>
    simp only [subst, size]
    omega
  | quant q vs s ih =>
    have := size_quantify_le q (vs.filterMap σ.binder?) (s.subst σ)
    simp only [subst, size]
    omega

end Sentence

end Refutation
