import Refutation.Json.Number
import Refutation.Json.Reader

/-!
# Decoding JSON values

Decoders turn a value into what it stands for, or fail. A record is an object with named fields
or an array of the fields in order; fields it does not know are passed over undecoded. A variant
is an object with a single member, named for the case.

Decoded containers nest at most `Json.maxNesting` deep. A decoder takes the number of levels that
are left, so recursive decoders recurse on it.
-/

namespace Refutation

namespace Json

/-- How deep decoded containers may nest. -/
def maxNesting : Nat := 127

/-! ## Texts and numbers -/

/-- The number that four hexadecimal digits write. -/
def hexUnit? (a b c d : Char) : Option Nat := do
  let a ← hexValue? a
  let b ← hexValue? b
  let c ← hexValue? c
  let d ← hexValue? d
  some (((a * 16 + b) * 16 + c) * 16 + d)

/-- The character of an escape without digits. -/
def simpleEscape? (c : Char) : Option Char :=
  [('"', '"'), ('\\', '\\'), ('/', '/'), ('b', '\x08'), ('f', '\x0c'), ('n', '\n'), ('r', '\r'),
    ('t', '\t')].lookup c

/-- The text that a string writes. Escaped surrogates must come in pairs. -/
def unescape? : List Char → Option (List Char)
  | [] => some []
  | '\\' :: 'u' :: a :: b :: c :: d :: rest => do
    let high ← hexUnit? a b c d
    if 0xD800 ≤ high ∧ high ≤ 0xDBFF then
      match rest with
      | '\\' :: 'u' :: a :: b :: c :: d :: rest => do
        let low ← hexUnit? a b c d
        if 0xDC00 ≤ low ∧ low ≤ 0xDFFF then
          return Char.ofNat (0x10000 + (high - 0xD800) * 0x400 + (low - 0xDC00)) :: (← unescape? rest)
        else none
      | _ => none
    else if 0xDC00 ≤ high ∧ high ≤ 0xDFFF then none
    else return Char.ofNat high :: (← unescape? rest)
  | '\\' :: e :: rest => return (← simpleEscape? e) :: (← unescape? rest)
  | c :: rest => return c :: (← unescape? rest)

/-- The text of a string. -/
def text? : Json → Option String
  | .string lexeme => String.ofList <$> unescape? lexeme
  | _ => none

/-- A natural number below `bound`, written with digits only. -/
def natBelow? (bound : Nat) : Json → Option Nat
  | .number lexeme =>
    if lexeme.all Char.isDigit ∧ ofDigits lexeme < bound then some (ofDigits lexeme) else none
  | _ => none

/-- A natural number of at most 64 bits. -/
def nat? (v : Json) : Option Nat := v.natBelow? (Nat.pow 2 64)

def bool? : Json → Option Bool
  | .bool b => some b
  | _ => none

/-- Null and nothing else. -/
def null? : Json → Option Unit
  | .null => some ()
  | _ => none

/-! ## Containers -/

/-- The level below, if one is left. -/
def enter? : Nat → Option Nat
  | 0 => none
  | levels + 1 => some levels

/-- The items of an array. -/
def items : Json → Option (List Json)
  | .array vs => some vs
  | _ => none

/-- The items of an array, each decoded one level down. -/
def list? {α : Type} (decode : Nat → Json → Option α) (levels : Nat) (v : Json) : Option (List α) := do
  let levels ← enter? levels
  (← v.items).mapM (decode levels)

/-- The members of an object, their names decoded. -/
def members : Json → Option (List (String × Json))
  | .object ms => ms.mapM fun (k, v) => return (String.ofList (← unescape? k), v)
  | _ => none

/-- The member of an object with a single one: the case of a variant and its content. -/
def variant? (v : Json) : Option (String × Json) :=
  match v.members with
  | some [m] => some m
  | _ => none

/-- The values of a field among members: at most one. -/
def field? (ms : List (String × Json)) (name : String) : Option (Option Json) :=
  match ms.filter (·.1 == name) with
  | [] => some none
  | [m] => some (some m.2)
  | _ => none

/-- The fields of a record in order, absent ones as `none`. An array gives the first fields; an
object gives each of them at most once. -/
def fields? (names : List String) : Json → Option (List (Option Json))
  | .array vs =>
    if vs.length ≤ names.length then
      some (vs.map some ++ List.replicate (names.length - vs.length) none)
    else none
  | v => do
    let ms ← v.members
    names.mapM (field? ms)

/-- Every member of an object is one of the named fields. -/
def hasOnly (names : List String) (v : Json) : Bool :=
  match v.members with
  | some ms => ms.all fun (k, _) => names.contains k
  | none => true

/-! ## Kept content -/

mutual

/-- Everything in the value can be kept: strings are texts, numbers are in range, and containers
nest no deeper than the levels left. -/
def isKept : (levels : Nat) → Json → Bool
  | _, .null | _, .bool _ => true
  | _, .number lexeme => isDouble lexeme
  | _, .string lexeme => (unescape? lexeme).isSome
  | 0, .array _ | 0, .object _ => false
  | levels + 1, .array vs => areKept levels vs
  | levels + 1, .object ms => membersKept levels ms

def areKept (levels : Nat) : List Json → Bool
  | [] => true
  | v :: vs => v.isKept levels && areKept levels vs

def membersKept (levels : Nat) : List (List Char × Json) → Bool
  | [] => true
  | m :: ms => memberKept levels m && membersKept levels ms

def memberKept (levels : Nat) : List Char × Json → Bool
  | (k, v) => (unescape? k).isSome && v.isKept levels

end

end Json

end Refutation
