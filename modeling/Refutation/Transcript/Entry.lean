import Refutation.Clause.Basic
import Refutation.Json.Decode

/-!
# Clauses in transcripts

The form in which clauses are published with a proof. Recorded arities are left out, and an
equality is published as the predicate `=` of its sides.

A term is tagged: its `type` tells the kind, anywhere among its fields, and the content of a
tagged value is kept as a whole.
-/

namespace Refutation

/-- A term without recorded arities. -/
inductive TermEntry where
  | var (name : String)
  | const (name : String)
  | app (name : String) (args : List TermEntry)
deriving Inhabited

/-- A predicate, or `=`, with its arguments. -/
structure AtomEntry where
  predicate : String
  args : List TermEntry

/-- An atom and its sign. -/
structure LiteralEntry where
  polarity : Bool
  atom : AtomEntry

structure ClauseEntry where
  literals : List LiteralEntry

/-! ## Publishing -/

namespace TermEntry

mutual

def ofTerm : Term → TermEntry
  | .var v => .var v.name
  | .const c => .const c
  | .app f args => .app f.name (ofTerms args)

def ofTerms : List Term → List TermEntry
  | [] => []
  | t :: ts => ofTerm t :: ofTerms ts

end

end TermEntry

def AtomEntry.ofAtom (a : Atom) : AtomEntry := ⟨a.symbol, TermEntry.ofTerms a.args⟩

def LiteralEntry.ofLiteral (l : Literal) : LiteralEntry := ⟨l.positive, .ofAtom l.atom⟩

def ClauseEntry.ofClause (c : Clause) : ClauseEntry := ⟨c.literals.map .ofLiteral⟩

/-! ## JSON -/

namespace TermEntry

mutual

def toJson : TermEntry → Json
  | .var name => .record [("type", .ofText "Variable"), ("name", .ofText name)]
  | .const name => .record [("type", .ofText "Constant"), ("name", .ofText name)]
  | .app name args =>
    .record [("type", .ofText "Function"), ("name", .ofText name), ("args", .array (toJsons args))]

def toJsons : List TermEntry → List Json
  | [] => []
  | t :: ts => t.toJson :: toJsons ts

end

/-- The kinds of terms. -/
inductive Kind where
  | var
  | const
  | app

namespace Kind

def ofName? : String → Option Kind
  | "Variable" => some .var
  | "Constant" => some .const
  | "Function" => some .app
  | _ => none

def ofNumber? : Nat → Option Kind
  | 0 => some .var
  | 1 => some .const
  | 2 => some .app
  | _ => none

/-- The kind by its name; inside another term also by its number. -/
def ofJson? (inner : Bool) (v : Json) : Option Kind :=
  match v with
  | .number _ => if inner then v.nat? >>= ofNumber? else none
  | v => v.text? >>= ofName?

/-- The fields of a term of this kind. -/
def fields : Kind → List String
  | .var | .const => ["name"]
  | .app => ["name", "args"]

end Kind

/-- The kind of a tagged value and its fields: an object tells it as `type`, an array by its first
item. -/
def tagged? (inner : Bool) : Json → Option (Kind × List (Option Json))
  | .array (tag :: rest) => do
    let kind ← Kind.ofJson? inner tag
    return (kind, ← (Json.array rest).fields? kind.fields)
  | v => do
    let ms ← v.members
    let kind ← Kind.ofJson? inner (← ← Json.field? ms "type")
    return (kind, ← kind.fields.mapM (Json.field? ms))

/-- Decodes a term whose content is known to be kept. -/
def decode? : (levels : Nat) → (inner : Bool) → Json → Option TermEntry
  | 0, _, _ => none
  | levels + 1, inner, v => do
    match ← tagged? inner v with
    | (.var, [some name]) => return .var (← name.text?)
    | (.const, [some name]) => return .const (← name.text?)
    | (.app, [some name, some args]) =>
      return .app (← name.text?) (← (← args.items).mapM (decode? levels true))
    | _ => none

def ofJson? (levels : Nat) (v : Json) : Option TermEntry :=
  if v.isKept levels then decode? levels false v else none

end TermEntry

namespace AtomEntry

/-- An empty list of arguments is left out. -/
def toJson (a : AtomEntry) : Json :=
  let args := if a.args.isEmpty then [] else [("args", Json.array (TermEntry.toJsons a.args))]
  .record (("predicate", .ofText a.predicate) :: args)

def ofJson? (levels : Nat) (v : Json) : Option AtomEntry := do
  let levels ← Json.enter? levels
  match ← v.fields? ["predicate", "args"] with
  | [some predicate, some args] => return ⟨← predicate.text?, ← args.list? TermEntry.ofJson? levels⟩
  | [some predicate, none] => return ⟨← predicate.text?, []⟩
  | _ => none

end AtomEntry

namespace LiteralEntry

def toJson (l : LiteralEntry) : Json :=
  .record [("polarity", .bool l.polarity), ("atom", l.atom.toJson)]

def ofJson? (levels : Nat) (v : Json) : Option LiteralEntry := do
  let levels ← Json.enter? levels
  match ← v.fields? ["polarity", "atom"] with
  | [some polarity, some atom] => return ⟨← polarity.bool?, ← AtomEntry.ofJson? levels atom⟩
  | _ => none

end LiteralEntry

namespace ClauseEntry

def toJson (c : ClauseEntry) : Json := .record [("literals", .array (c.literals.map LiteralEntry.toJson))]

def ofJson? (levels : Nat) (v : Json) : Option ClauseEntry := do
  let levels ← Json.enter? levels
  match ← v.fields? ["literals"] with
  | [some literals] => return ⟨← literals.list? LiteralEntry.ofJson? levels⟩
  | _ => none

end ClauseEntry

end Refutation
