import Refutation.Sentence

/-!
# Signatures

A signature records the arity of every predicate and every function symbol seen so far. A
sentence is taken in as a whole or not at all: it must bind variables with every quantifier, its
function symbols must stand with the arities they record, and no symbol may have two arities.
Predicates and functions are told apart, so one name may serve as both.
-/

namespace Refutation

/-- The two kinds of symbols that have arities. -/
inductive SymbolKind where
  | predicate
  | function
deriving DecidableEq

def SymbolKind.text : SymbolKind → String
  | .predicate => "predicate"
  | .function => "function"

/-- Why a sentence is refused. -/
inductive SignatureFault where
  | emptyQuantifier (s : Sentence)
  | misapplied (f : FunSym) (arguments : Nat)
  | clash (kind : SymbolKind) (name : String) (known arity : Nat)
deriving DecidableEq

def SignatureFault.message : SignatureFault → String
  | .emptyQuantifier s => "Malformed sentence: quantifier without variables in " ++ s.text
  | .misapplied f n =>
    "Malformed sentence: function " ++ f.name ++ " declared with arity " ++ toString f.arity ++
      " applied to " ++ toString n ++ " arguments"
  | .clash kind name known arity =>
    "Malformed sentence: " ++ kind.text ++ " " ++ name ++ " used with arity " ++ toString known ++
      " and " ++ toString arity

/-- The first quantifier without variables, outer before inner and left before right. -/
def Sentence.emptyQuantifier? : Sentence → Option Sentence
  | .atom _ => none
  | .not s => s.emptyQuantifier?
  | .and l r | .or l r | .implies l r | .iff l r => l.emptyQuantifier?.or r.emptyQuantifier?
  | .quant q vs s => if vs.isEmpty then some (.quant q vs s) else s.emptyQuantifier?

/-- The arities of the symbols seen so far. -/
structure Signature where
  predicates : List (String × Nat) := []
  functions : List (String × Nat) := []
deriving DecidableEq

namespace Signature

def empty : Signature := {}

def predicateArity? (g : Signature) (name : String) : Option Nat := g.predicates.lookup name

def functionArity? (g : Signature) (name : String) : Option Nat := g.functions.lookup name

/-- A table with the symbol in it, unless it is known with another arity. -/
def record (kind : SymbolKind) (name : String) (arity : Nat) (table : List (String × Nat)) :
    Except SignatureFault (List (String × Nat)) :=
  match table.lookup name with
  | some known => if known = arity then .ok table else .error (.clash kind name known arity)
  | none => .ok (table ++ [(name, arity)])

mutual

/-- Takes in the function symbols of a term, a term before its arguments. -/
def addTerm (g : Signature) : Term → Except SignatureFault Signature
  | .var _ | .const _ => .ok g
  | .app f args => do
    if f.arity ≠ args.length then throw (.misapplied f args.length)
    let functions ← record .function f.name f.arity g.functions
    addTerms { g with functions } args

def addTerms (g : Signature) : List Term → Except SignatureFault Signature
  | [] => .ok g
  | t :: ts => do
    let g ← addTerm g t
    addTerms g ts

end

/-- Takes in the predicate of an atom, then the function symbols of its arguments. -/
def addAtom (g : Signature) (a : Atom) : Except SignatureFault Signature := do
  let g ← match a with
    | .pred name args => do
      let predicates ← record .predicate name args.length g.predicates
      pure { g with predicates }
    | .eq .. => pure g
  g.addTerms a.args

/-- The signature with a sentence's symbols taken in. -/
def check (g : Signature) (s : Sentence) : Except SignatureFault Signature :=
  match s.emptyQuantifier? with
  | some q => .error (.emptyQuantifier q)
  | none => s.atoms.foldlM addAtom g

end Signature

end Refutation
