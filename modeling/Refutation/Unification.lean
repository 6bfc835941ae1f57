import Refutation.Substitution.Apply

/-!
# Unification

A unifier makes two terms equal by binding variables. The bindings are kept resolved: a bound
variable stands in no bound term as long as the occurs check is on. Without the occurs check
bindings may be cyclic, and then only the depth limit ends the descent.

An attempt that fails keeps the bindings it made (`Attempt`).
-/

namespace Refutation

/-- Why two terms or atoms do not unify. -/
inductive UnifyError where
  | occurs (v : Var) (t : Term)
  | functionClash (f g : String)
  | predicateClash (p q : String)
  | arityMismatch (m n : Nat)
  | constantClash (c d : String)
  | kindClash (left right : String)
  | depthExceeded (limit : Nat)
deriving DecidableEq

def UnifyError.message : UnifyError → String
  | .occurs v t => v.name ++ " occurs in " ++ t.text
  | .functionClash f g => "function clash " ++ f ++ " vs " ++ g
  | .predicateClash p q => "predicate clash " ++ p ++ " vs " ++ q
  | .arityMismatch m n => "arity mismatch " ++ toString m ++ " vs " ++ toString n
  | .constantClash c d => "constant clash " ++ c ++ " vs " ++ d
  | .kindClash left right => "cannot unify " ++ left ++ " with " ++ right
  | .depthExceeded limit => "unification deeper than " ++ toString limit

/-- The bindings as an attempt leaves them, and the error that ended it, if any. -/
structure Attempt where
  bindings : Substitution
  error : Option UnifyError := none

namespace Attempt

/-- The bindings of an attempt that succeeded. -/
def toExcept (a : Attempt) : Except UnifyError Substitution :=
  match a.error with
  | none => .ok a.bindings
  | some e => .error e

/-- Goes on with the bindings of a successful attempt. -/
def andThen (a : Attempt) (next : Substitution → Attempt) : Attempt :=
  match a.error with
  | none => next a.bindings
  | some _ => a

end Attempt

/-- Settings of unification. -/
structure Unifier where
  /-- Refuse to bind a variable to a term it stands in. -/
  occursCheck : Bool := true
  /-- The deepest level of arguments that is entered. -/
  maxDepth : Nat := 256
deriving DecidableEq

namespace Unifier

/-- Attempts on the pairs of two lists, one after the other, up to the first error. -/
def pairwise (attempt : Term → Term → Substitution → Attempt) :
    List Term → List Term → Substitution → Attempt
  | s :: ss, t :: ts, σ => (attempt s t σ).andThen (pairwise attempt ss ts)
  | _, _, σ => ⟨σ, none⟩

/-- Attempts on two argument lists, which must have the same length. -/
def lists (attempt : Term → Term → Substitution → Attempt) (ss ts : List Term) (σ : Substitution) :
    Attempt :=
  if ss.length = ts.length then pairwise attempt ss ts σ
  else ⟨σ, some (.arityMismatch ss.length ts.length)⟩

/-- Binds a variable to a term that differs from it. -/
def bindVar (u : Unifier) (v : Var) (t : Term) (σ : Substitution) : Attempt :=
  if u.occursCheck && t.hasVar v then ⟨σ, some (.occurs v t)⟩ else ⟨σ.bind v t, none⟩

/-- Extends `σ` to a unifier of `s` and `t`, entering at most `levels - 1` levels of arguments. -/
def extend (u : Unifier) : (levels : Nat) → (s t : Term) → (σ : Substitution) → Attempt
  | 0, _, _, σ => ⟨σ, some (.depthExceeded u.maxDepth)⟩
  | levels + 1, s, t, σ =>
    let s := s.subst σ
    let t := t.subst σ
    if s = t then ⟨σ, none⟩
    else match s, t with
      | .var v, t => u.bindVar v t σ
      | s, .var v => u.bindVar v s σ
      | .const c, .const d => ⟨σ, some (.constantClash c d)⟩
      | .app f ss, .app g ts =>
        if f.name = g.name then lists (u.extend levels) ss ts σ
        else ⟨σ, some (.functionClash f.name g.name)⟩
      | .app .., .const _ | .const _, .app .. => ⟨σ, some (.kindClash s.text t.text)⟩

/-- Extends `σ` to a unifier of two terms. -/
def extendTerms (u : Unifier) (s t : Term) (σ : Substitution) : Attempt :=
  u.extend (u.maxDepth + 1) s t σ

/-- Extends `σ` to a unifier of two atoms. Equalities unify side by side, in order. -/
def extendAtoms (u : Unifier) (a b : Atom) (σ : Substitution) : Attempt :=
  match a, b with
  | .pred p ss, .pred q ts =>
    if p = q then lists u.extendTerms ss ts σ else ⟨σ, some (.predicateClash p q)⟩
  | .eq l r, .eq l' r' => (u.extendTerms l l' σ).andThen (u.extendTerms r r')
  | a, b => ⟨σ, some (.kindClash a.text b.text)⟩

/-- A most general unifier of two terms. -/
def terms (u : Unifier) (s t : Term) : Except UnifyError Substitution :=
  (u.extendTerms s t .empty).toExcept

/-- A most general unifier of two atoms. -/
def atoms (u : Unifier) (a b : Atom) : Except UnifyError Substitution :=
  (u.extendAtoms a b .empty).toExcept

/-- A most general unifier of the atoms of two literals, whatever their signs. -/
def literals (u : Unifier) (l m : Literal) : Except UnifyError Substitution :=
  u.atoms l.atom m.atom

end Unifier

end Refutation
