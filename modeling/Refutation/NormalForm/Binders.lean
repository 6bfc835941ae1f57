import Refutation.Fresh.Names
import Refutation.Substitution.Apply

/-!
# Distinct binders

`Sentence.standardize` renames bound variables so that no two quantifiers bind the same name and
no bound name is free. The first quantifier to bind a name keeps it, later ones get fresh names
`q0`, `q1`, … that stand nowhere in the sentence.
-/

namespace Refutation

/-- The names met so far while binders are renamed from left to right. -/
structure BinderScan where
  /-- Names that are free or that a quantifier kept. -/
  seen : List Var
  /-- Names that a fresh one must avoid. -/
  taken : List Var
  names : NameSource

namespace BinderScan

/-- The new name of a binder: its own if it is the first, else a fresh one. -/
def bind (b : BinderScan) (v : Var) : Var × BinderScan :=
  if v ∈ b.seen then
    let (w, names) := b.names.fresh b.taken
    (w, { b with taken := b.taken ++ [w], names })
  else (v, { b with seen := b.seen ++ [v] })

/-- The new names of a quantifier's binders, and the scope of their old names. -/
def bindAll (b : BinderScan) (scope : Substitution) : List Var → List Var × Substitution × BinderScan
  | [] => ([], scope, b)
  | v :: vs =>
    let (w, b) := b.bind v
    let (ws, scope, b) := b.bindAll (scope.insert v (.var w)) vs
    (w :: ws, scope, b)

end BinderScan

namespace Sentence

/-- Renames the binders from left to right; `scope` takes the names in force to their new ones. -/
def renameBinders (scope : Substitution) (b : BinderScan) : Sentence → Sentence × BinderScan
  | .atom a => (.atom (a.subst scope), b)
  | .not s =>
    let (s, b) := s.renameBinders scope b
    (.not s, b)
  | .and l r =>
    let (l, b) := l.renameBinders scope b
    let (r, b) := r.renameBinders scope b
    (.and l r, b)
  | .or l r =>
    let (l, b) := l.renameBinders scope b
    let (r, b) := r.renameBinders scope b
    (.or l r, b)
  | .implies l r =>
    let (l, b) := l.renameBinders scope b
    let (r, b) := r.renameBinders scope b
    (.implies l r, b)
  | .iff l r =>
    let (l, b) := l.renameBinders scope b
    let (r, b) := r.renameBinders scope b
    (.iff l r, b)
  | .quant q vs s =>
    let (ws, inner, b) := b.bindAll scope vs
    let (s, b) := s.renameBinders inner b
    (.quant q ws s, b)

/-- Every variable of a sentence, in atoms and in binders, with repetitions. -/
def allVars : Sentence → List Var
  | .atom a => a.occurrences
  | .not s => s.allVars
  | .and l r | .or l r | .implies l r | .iff l r => l.allVars ++ r.allVars
  | .quant _ vs s => vs ++ s.allVars

/-- The sentence with every name bound at most once and no bound name free. -/
def standardize (s : Sentence) : Sentence :=
  let scan := { seen := s.free, taken := s.allVars.eraseDups, names := { stem := "q" } : BinderScan }
  (s.renameBinders .empty scan).1

end Sentence

end Refutation
