import Refutation.Json.Basic

/-!
# Reading JSON text

`Json.parse?` reads a text that holds one value and blanks around it. Strings are checked for
well-formed escapes and against control characters, and kept as written.
-/

namespace Refutation

namespace Json

/-- Space, tab, line feed and carriage return may stand between tokens. -/
def isBlank (c : Char) : Bool := c == ' ' || c == '\t' || c == '\n' || c == '\r'

def skipBlank (cs : List Char) : List Char := cs.dropWhile isBlank

/-- The value of a hexadecimal digit in either case. -/
def hexValue? (c : Char) : Option Nat :=
  if '0' ≤ c ∧ c ≤ '9' then some (c.toNat - '0'.toNat)
  else if 'a' ≤ c ∧ c ≤ 'f' then some (c.toNat - 'a'.toNat + 10)
  else if 'A' ≤ c ∧ c ≤ 'F' then some (c.toNat - 'A'.toNat + 10)
  else none

/-- The characters that may follow a backslash, apart from `u`. -/
def isSimpleEscape (c : Char) : Bool := "\"\\/bfnrt".toList.contains c

/-! ## Tokens -/

/-- The rest of a string up to its closing quote, as written, and what follows it. -/
def stringRest? : List Char → Option (List Char × List Char)
  | '"' :: rest => some ([], rest)
  | '\\' :: 'u' :: a :: b :: c :: d :: rest =>
    if [a, b, c, d].all fun h => (hexValue? h).isSome then do
      let (lexeme, rest) ← stringRest? rest
      some ('\\' :: 'u' :: a :: b :: c :: d :: lexeme, rest)
    else none
  | '\\' :: e :: rest =>
    if isSimpleEscape e then do
      let (lexeme, rest) ← stringRest? rest
      some ('\\' :: e :: lexeme, rest)
    else none
  | c :: rest =>
    if c = '\\' ∨ c.toNat < 0x20 then none
    else do
      let (lexeme, rest) ← stringRest? rest
      some (c :: lexeme, rest)
  | [] => none

/-- One or more digits. -/
def digits? (cs : List Char) : Option (List Char × List Char) :=
  match cs.takeWhile Char.isDigit with
  | [] => none
  | ds => some (ds, cs.dropWhile Char.isDigit)

/-- The integer part of a number: a zero alone, or digits that start with another. -/
def integerPart? : List Char → Option (List Char × List Char)
  | '0' :: rest => some (['0'], rest)
  | cs => digits? cs

/-- The fraction of a number, if it has one. -/
def fraction? : List Char → Option (List Char × List Char)
  | '.' :: rest => do
    let (ds, rest) ← digits? rest
    some ('.' :: ds, rest)
  | cs => some ([], cs)

/-- The exponent of a number, if it has one. -/
def exponent? : List Char → Option (List Char × List Char)
  | e :: rest =>
    if e = 'e' ∨ e = 'E' then
      match rest with
      | s :: rest' =>
        if s = '+' ∨ s = '-' then do
          let (ds, rest) ← digits? rest'
          some (e :: s :: ds, rest)
        else do
          let (ds, rest) ← digits? rest
          some (e :: ds, rest)
      | [] => none
    else some ([], e :: rest)
  | [] => some ([], [])

/-- A number without its sign. -/
def unsigned? (cs : List Char) : Option (List Char × List Char) := do
  let (i, cs) ← integerPart? cs
  let (f, cs) ← fraction? cs
  let (e, cs) ← exponent? cs
  some (i ++ f ++ e, cs)

/-- A number as written. -/
def number? : List Char → Option (List Char × List Char)
  | '-' :: rest => do
    let (lexeme, rest) ← unsigned? rest
    some ('-' :: lexeme, rest)
  | cs => unsigned? cs

/-! ## Values -/

mutual

/-- A value at the start of the text. Every call but one consumes a character before the next, so
twice the length is fuel enough. -/
def value? : (fuel : Nat) → List Char → Option (Json × List Char)
  | 0, _ => none
  | fuel + 1, cs =>
    match cs with
    | 'n' :: 'u' :: 'l' :: 'l' :: rest => some (.null, rest)
    | 't' :: 'r' :: 'u' :: 'e' :: rest => some (.bool true, rest)
    | 'f' :: 'a' :: 'l' :: 's' :: 'e' :: rest => some (.bool false, rest)
    | '"' :: rest => do
      let (lexeme, rest) ← stringRest? rest
      some (.string lexeme, rest)
    | '[' :: rest =>
      match skipBlank rest with
      | ']' :: rest => some (.array [], rest)
      | rest => do
        let (vs, rest) ← items? fuel rest
        some (.array vs, rest)
    | '{' :: rest =>
      match skipBlank rest with
      | '}' :: rest => some (.object [], rest)
      | rest => do
        let (ms, rest) ← members? fuel rest
        some (.object ms, rest)
    | cs => do
      let (lexeme, rest) ← number? cs
      some (.number lexeme, rest)

/-- One or more items and the closing bracket. -/
def items? : (fuel : Nat) → List Char → Option (List Json × List Char)
  | 0, _ => none
  | fuel + 1, cs => do
    let (v, rest) ← value? fuel cs
    match skipBlank rest with
    | ']' :: rest => some ([v], rest)
    | ',' :: rest => do
      let (vs, rest) ← items? fuel (skipBlank rest)
      some (v :: vs, rest)
    | _ => none

/-- One or more members and the closing brace. -/
def members? : (fuel : Nat) → List Char → Option (List (List Char × Json) × List Char)
  | 0, _ => none
  | fuel + 1, cs =>
    match cs with
    | '"' :: rest => do
      let (k, rest) ← stringRest? rest
      match skipBlank rest with
      | ':' :: rest => do
        let (v, rest) ← value? fuel (skipBlank rest)
        match skipBlank rest with
        | '}' :: rest => some ([(k, v)], rest)
        | ',' :: rest => do
          let (ms, rest) ← members? fuel (skipBlank rest)
          some ((k, v) :: ms, rest)
        | _ => none
      | _ => none
    | _ => none

end

/-- The one value that a text holds. -/
def parse? (s : String) : Option Json := do
  let cs := s.toList
  let (v, rest) ← value? (2 * cs.length + 2) (skipBlank cs)
  if (skipBlank rest).isEmpty then some v else none

end Json

end Refutation
