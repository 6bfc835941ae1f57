import Refutation.Atom

/-!
# Literals

A literal is an atom or its negation.
-/

namespace Refutation

/-- An atom with a sign. -/
structure Literal where
  positive : Bool
  atom : Atom
deriving DecidableEq, Inhabited

namespace Literal

/-- The atom itself. -/
def pos (a : Atom) : Literal := ⟨true, a⟩

/-- The atom's negation. -/
def neg (a : Atom) : Literal := ⟨false, a⟩

/-- Same atom, other sign. -/
def negated (l : Literal) : Literal := ⟨!l.positive, l.atom⟩

/-- The two say the opposite of each other. -/
def complements (l m : Literal) : Bool := l.positive != m.positive && l.atom == m.atom

/-- Symbol and number of arguments agree: the test before unifying two atoms. -/
def sameSignature (l m : Literal) : Bool :=
  l.atom.symbol == m.atom.symbol && l.atom.arity == m.atom.arity

/-- Sign, symbol and arity as one word, `~P/2`. Different triples may share a word. -/
def key (l : Literal) : String :=
  (if l.positive then "" else "~") ++ l.atom.symbol ++ "/" ++ toString l.atom.arity

def occurrences (l : Literal) : List Var := l.atom.occurrences

def vars (l : Literal) : List Var := l.atom.vars

def text (l : Literal) : String := if l.positive then l.atom.text else "~" ++ l.atom.text

end Literal

end Refutation
