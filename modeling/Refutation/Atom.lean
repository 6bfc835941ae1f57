import Refutation.Term.Path

/-!
# Atoms

An atom applies a predicate to terms or states that two terms are equal. An equality is not a
predicate named `=`: the two have the same symbol and never the same meaning.
-/

namespace Refutation

/-- An atomic sentence. -/
inductive Atom where
  | pred (name : String) (args : List Term)
  | eq (left right : Term)
deriving DecidableEq, Inhabited

namespace Atom

def isEq : Atom → Bool
  | .pred .. => false
  | .eq .. => true

/-- The predicate's name; an equality has the symbol `=`. -/
def symbol : Atom → String
  | .pred name _ => name
  | .eq .. => "="

/-- The arguments in order; those of an equality are its sides. -/
def args : Atom → List Term
  | .pred _ args => args
  | .eq l r => [l, r]

def arity (a : Atom) : Nat := a.args.length

/-- The atom with every argument mapped. -/
def map (f : Term → Term) : Atom → Atom
  | .pred name args => .pred name (args.map f)
  | .eq l r => .eq (f l) (f r)

/-- Symbols and arguments are counted, the predicate or equality sign included. -/
def weight (a : Atom) : Nat := 1 + Term.weightList a.args

def wellFormed (a : Atom) : Bool := Term.wellFormedList a.args

/-- The variables from left to right, with repetitions. -/
def occurrences (a : Atom) : List Var := Term.occurrencesList a.args

/-- The variables in order of first occurrence. -/
def vars (a : Atom) : List Var := a.occurrences.eraseDups

/-- The subterm at a path below an argument. -/
def at? (a : Atom) (arg : Nat) (path : List Nat) : Option Term :=
  a.args[arg]? >>= fun t => t.at? path

/-- The atom with one argument exchanged. -/
def setArg (a : Atom) (arg : Nat) (t : Term) : Atom :=
  match a with
  | .pred name args => .pred name (args.set arg t)
  | .eq l r => if arg = 0 then .eq t r else .eq l t

/-- The atom with the subterm at a path below an argument exchanged; `none` if there is none. -/
def replaceAt? (a : Atom) (arg : Nat) (path : List Nat) (r : Term) : Option Atom := do
  let t ← a.args[arg]?
  let t ← t.replaceAt? path r
  some (a.setArg arg t)

theorem args_setArg {a : Atom} {i : Nat} (hi : i < a.args.length) (t : Term) :
    (a.setArg i t).args = a.args.set i t := by
  cases a with
  | pred p args => rfl
  | eq l r =>
    match i, hi with
    | 0, _ => rfl
    | 1, _ => rfl

theorem replaceAt?_eq_some {a a' : Atom} {i : Nat} {path : List Nat} {r : Term} :
    a.replaceAt? i path r = some a' ↔ ∃ t t', a.args[i]? = some t ∧ t.replaceAt? path r = some t' ∧
      a' = a.setArg i t' := by
  constructor
  · intro h
    obtain ⟨t, ht, h⟩ := Option.bind_eq_some_iff.mp h
    obtain ⟨t', ht', h⟩ := Option.bind_eq_some_iff.mp h
    cases h
    exact ⟨t, t', ht, ht', rfl⟩
  · rintro ⟨t, t', ht, ht', rfl⟩
    simp [replaceAt?, ht, ht']

/-- Argument and path of every subterm that is not a variable, a term before its arguments. -/
def nonVarPositions (a : Atom) : List (Nat × List Nat) :=
  a.args.zipIdx.flatMap fun (t, i) => t.nonVarPaths.map (i, ·)

/-- The written form: `P(x,A)`, `P` without arguments, `x = A`. -/
def text : Atom → String
  | .pred name [] => name
  | .pred name args => name ++ "(" ++ String.intercalate "," (Term.texts args) ++ ")"
  | .eq l r => l.text ++ " = " ++ r.text

end Atom

end Refutation
