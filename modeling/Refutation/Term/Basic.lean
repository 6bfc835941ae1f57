import Refutation.Distinct

/-!
# Terms

Terms of first-order logic: variables, constants, and function applications. A function symbol
records an arity of its own, which need not be the number of arguments it stands with
(`Term.wellFormed` says that it is). Terms compare structurally, recorded arities included.

* `Term.occurrences`: the variables of a term from left to right, with repetitions.
* `Term.vars`: the same in order of first occurrence.
* `Term.text`: the written form, `f(x,A)`.
-/

namespace Refutation

/-- A variable, known by its name. -/
structure Var where
  name : String
deriving DecidableEq, Inhabited

/-- A function symbol with its recorded arity. -/
structure FunSym where
  name : String
  arity : Nat
deriving DecidableEq, Inhabited

/-- A term of first-order logic. -/
inductive Term where
  | var (v : Var)
  | const (name : String)
  | app (f : FunSym) (args : List Term)
deriving Inhabited

namespace Term

/-- Application of a function whose recorded arity is the number of arguments. -/
def fn (name : String) (args : List Term) : Term := .app ⟨name, args.length⟩ args

/-! ## Equality -/

mutual

/-- Terms are equal when their symbols, recorded arities and arguments are. -/
def decEq : (s t : Term) → Decidable (s = t)
  | .var v, .var w => if h : v = w then isTrue (h ▸ rfl) else isFalse fun e => h (Term.var.inj e)
  | .const a, .const b =>
    if h : a = b then isTrue (h ▸ rfl) else isFalse fun e => h (Term.const.inj e)
  | .app f ss, .app g ts =>
    if h : f = g then
      match decEqList ss ts with
      | isTrue e => isTrue (h ▸ e ▸ rfl)
      | isFalse n => isFalse fun e => n (Term.app.inj e).2
    else isFalse fun e => h (Term.app.inj e).1
  | .var _, .const _ | .var _, .app .. | .const _, .var _ | .const _, .app .. | .app .., .var _
  | .app .., .const _ => isFalse nofun

def decEqList : (ss ts : List Term) → Decidable (ss = ts)
  | [], [] => isTrue rfl
  | [], _ :: _ | _ :: _, [] => isFalse nofun
  | s :: ss, t :: ts =>
    match decEq s t with
    | isFalse n => isFalse fun e => n (List.cons.inj e).1
    | isTrue h =>
      match decEqList ss ts with
      | isTrue e => isTrue (h ▸ e ▸ rfl)
      | isFalse n => isFalse fun e => n (List.cons.inj e).2

end

instance : DecidableEq Term := decEq

/-! ## Shape -/

/-- The variable that a term is, if it is one. -/
def var? : Term → Option Var
  | .var v => some v
  | _ => none

def isVar (t : Term) : Bool := t.var?.isSome

/-- The name of the head symbol. -/
def head : Term → String
  | .var v => v.name
  | .const c => c
  | .app f _ => f.name

mutual

/-- Nesting of function applications; variables and constants have depth 0. -/
def depth : Term → Nat
  | .var _ | .const _ => 0
  | .app _ args => 1 + depthList args

/-- The largest depth among the terms. -/
def depthList : List Term → Nat
  | [] => 0
  | t :: ts => max t.depth (depthList ts)

end

mutual

/-- The number of symbols. -/
def weight : Term → Nat
  | .var _ | .const _ => 1
  | .app _ args => 1 + weightList args

def weightList : List Term → Nat
  | [] => 0
  | t :: ts => t.weight + weightList ts

end

mutual

/-- Every function symbol stands with as many arguments as it records. -/
def wellFormed : Term → Bool
  | .var _ | .const _ => true
  | .app f args => f.arity == args.length && wellFormedList args

def wellFormedList : List Term → Bool
  | [] => true
  | t :: ts => t.wellFormed && wellFormedList ts

end

/-! ## Variables -/

mutual

/-- The variables from left to right, with repetitions. -/
def occurrences : Term → List Var
  | .var v => [v]
  | .const _ => []
  | .app _ args => occurrencesList args

def occurrencesList : List Term → List Var
  | [] => []
  | t :: ts => t.occurrences ++ occurrencesList ts

end

/-- The variables in order of first occurrence. -/
def vars (t : Term) : List Var := t.occurrences.eraseDups

/-- The variable stands somewhere in the term. -/
def hasVar (t : Term) (v : Var) : Bool := t.occurrences.contains v

/-- No variable stands in the term. -/
def isGround (t : Term) : Bool := t.occurrences.isEmpty

theorem occurrencesList_eq_flatMap (ts : List Term) :
    occurrencesList ts = ts.flatMap occurrences := by
  induction ts with
  | nil => rfl
  | cons t ts ih => simp [occurrencesList, ih]

/-! ## Text -/

mutual

/-- The written form: the arguments follow their function in brackets, with commas between. -/
def text : Term → String
  | .var v => v.name
  | .const c => c
  | .app f args => f.name ++ "(" ++ String.intercalate "," (texts args) ++ ")"

def texts : List Term → List String
  | [] => []
  | t :: ts => t.text :: texts ts

end

end Term

end Refutation
