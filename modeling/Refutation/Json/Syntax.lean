import Refutation.Clause.Position
import Refutation.Json.Decode
import Refutation.Sentence

/-!
# Syntax as JSON

The structural JSON form of terms, atoms, literals, sentences and positions: a variant for every
case, a record for every structure, fields in a fixed order. Each `toJson` has a decoder
`ofJson?` beside it, which takes the levels of nesting that are left.
-/

namespace Refutation

open Json

/-- A record with the single field `name`. -/
def nameToJson (name : String) : Json := .record [("name", .ofText name)]

/-- The name in a record with the single field `name`. -/
def nameOfJson? (levels : Nat) (v : Json) : Option String := do
  let _ ← enter? levels
  match ← v.fields? ["name"] with
  | [some name] => name.text?
  | _ => none

/-! ## Terms -/

def FunSym.toJson (f : FunSym) : Json :=
  .record [("name", .ofText f.name), ("arity", .ofNat f.arity)]

def FunSym.ofJson? (levels : Nat) (v : Json) : Option FunSym := do
  let _ ← enter? levels
  match ← v.fields? ["name", "arity"] with
  | [some name, some arity] => return ⟨← name.text?, ← arity.nat?⟩
  | _ => none

namespace Term

mutual

def toJson : Term → Json
  | .var v => .record [("Variable", nameToJson v.name)]
  | .const c => .record [("Constant", nameToJson c)]
  | .app f args => .record [("Function", .array [f.toJson, .array (toJsons args)])]

def toJsons : List Term → List Json
  | [] => []
  | t :: ts => t.toJson :: toJsons ts

end

def ofJson? : (levels : Nat) → Json → Option Term
  | levels + 1, v => do
    let (kind, content) ← v.variant?
    match kind with
    | "Variable" => return .var ⟨← nameOfJson? levels content⟩
    | "Constant" => return .const (← nameOfJson? levels content)
    | "Function" =>
      match levels, ← content.items with
      | levels + 2, [f, args] =>
        return .app (← FunSym.ofJson? (levels + 1) f) (← (← args.items).mapM (ofJson? levels))
      | _, _ => none
    | _ => none
  | 0, _ => none

end Term

/-! ## Atoms and literals -/

namespace Atom

def toJson : Atom → Json
  | .pred name args =>
    .record [("Predicate", .record [("name", .ofText name), ("args", .array (Term.toJsons args))])]
  | .eq l r => .record [("TermEquality", .record [("left", l.toJson), ("right", r.toJson)])]

def ofJson? (levels : Nat) (v : Json) : Option Atom := do
  let levels ← enter? levels
  let (kind, content) ← v.variant?
  let levels ← enter? levels
  match kind with
  | "Predicate" =>
    match ← content.fields? ["name", "args"] with
    | [some name, some args] => return .pred (← name.text?) (← args.list? Term.ofJson? levels)
    | _ => none
  | "TermEquality" =>
    match ← content.fields? ["left", "right"] with
    | [some l, some r] => return .eq (← Term.ofJson? levels l) (← Term.ofJson? levels r)
    | _ => none
  | _ => none

end Atom

namespace Literal

def toJson (l : Literal) : Json :=
  .record [("atom", l.atom.toJson), ("positive", .bool l.positive)]

def ofJson? (levels : Nat) (v : Json) : Option Literal := do
  let levels ← enter? levels
  match ← v.fields? ["atom", "positive"] with
  | [some atom, some positive] => return ⟨← positive.bool?, ← Atom.ofJson? levels atom⟩
  | _ => none

end Literal

namespace Position

/-- An empty path is left out. -/
def toJson (p : Position) : Json :=
  let path := if p.path.isEmpty then [] else [("path", Json.array (p.path.map .ofNat))]
  .record ([("literal", .ofNat p.literal), ("argument", .ofNat p.argument)] ++ path)

def ofJson? (levels : Nat) (v : Json) : Option Position := do
  let levels ← enter? levels
  match ← v.fields? ["literal", "argument", "path"] with
  | [some l, some a, path] =>
    let path ← match path with
      | some path => path.list? (fun _ i => i.nat?) levels
      | none => some []
    return ⟨← l.nat?, ← a.nat?, path⟩
  | _ => none

end Position

/-! ## Sentences -/

namespace Quantifier

def toJson : Quantifier → Json
  | .all => .ofText "ForAll"
  | .ex => .ofText "Exists"

def ofName? : String → Option Quantifier
  | "ForAll" => some .all
  | "Exists" => some .ex
  | _ => none

/-- The name of the quantifier, or a variant of that name without content. -/
def ofJson? (levels : Nat) (v : Json) : Option Quantifier :=
  match v.text? with
  | some name => ofName? name
  | none => do
    let _ ← enter? levels
    let (name, content) ← v.variant?
    content.null?
    ofName? name

end Quantifier

namespace Sentence

def toJson : Sentence → Json
  | .atom a => .record [("Atomic", a.toJson)]
  | .not s => .record [("Not", s.toJson)]
  | .and l r => .record [("And", .array [l.toJson, r.toJson])]
  | .or l r => .record [("Or", .array [l.toJson, r.toJson])]
  | .implies l r => .record [("Implies", .array [l.toJson, r.toJson])]
  | .iff l r => .record [("Iff", .array [l.toJson, r.toJson])]
  | .quant q vs s =>
    .record [("Quantified", .array [q.toJson, .array (vs.map fun v => nameToJson v.name), s.toJson])]

/-- The connective of two sentences that a word names. -/
def connective? : String → Option (Sentence → Sentence → Sentence)
  | "And" => some .and
  | "Or" => some .or
  | "Implies" => some .implies
  | "Iff" => some .iff
  | _ => none

def ofJson? : (levels : Nat) → Json → Option Sentence
  | levels + 1, v => do
    let (kind, content) ← v.variant?
    match kind with
    | "Atomic" => return .atom (← Atom.ofJson? levels content)
    | "Not" => return .not (← ofJson? levels content)
    | "Quantified" =>
      match levels, ← content.items with
      | levels + 1, [q, vs, s] =>
        let vs ← vs.list? nameOfJson? levels
        return .quant (← Quantifier.ofJson? levels q) (vs.map Var.mk) (← ofJson? levels s)
      | _, _ => none
    | _ =>
      match levels, ← content.items with
      | levels + 1, [l, r] => return (← connective? kind) (← ofJson? levels l) (← ofJson? levels r)
      | _, _ => none
  | 0, _ => none

end Sentence

end Refutation
