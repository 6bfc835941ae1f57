/-!
# JSON values and their text

A JSON value keeps its numbers and strings as they are written: a string is the characters
between its quotes, escapes included. What is never looked at is thus never decoded.

* `Json.escape`: the written form of a text. Quotation marks, backslashes and control characters
  are escaped, everything else stands for itself.
* `Json.compact`: a value without blanks.
* `Json.pretty`: a value on several lines, two blanks for each level.
-/

namespace Refutation

/-- A JSON value; numbers and strings as written. -/
inductive Json where
  | null
  | bool (b : Bool)
  | number (lexeme : List Char)
  | string (lexeme : List Char)
  | array (items : List Json)
  | object (members : List (List Char × Json))
deriving Inhabited

namespace Json

/-! ## Strings -/

/-- The hexadecimal digit of a number below 16, in lower case. -/
def hexDigit (n : Nat) : Char :=
  if n < 10 then Char.ofNat ('0'.toNat + n) else Char.ofNat ('a'.toNat + (n - 10))

/-- One character as it stands in a string. -/
def escapeChar (c : Char) : List Char :=
  if c = '"' then ['\\', '"']
  else if c = '\\' then ['\\', '\\']
  else if c = '\x08' then ['\\', 'b']
  else if c = '\x0c' then ['\\', 'f']
  else if c = '\n' then ['\\', 'n']
  else if c = '\r' then ['\\', 'r']
  else if c = '\t' then ['\\', 't']
  else if c.toNat < 0x20 then
    ['\\', 'u', '0', '0', hexDigit (c.toNat / 16), hexDigit (c.toNat % 16)]
  else [c]

/-- A text as it stands between quotes. -/
def escape (cs : List Char) : List Char := cs.flatMap escapeChar

/-- The value of a text. -/
def ofText (s : String) : Json := .string (escape s.toList)

/-- The value of a number. -/
def ofNat (n : Nat) : Json := .number (toString n).toList

/-- The value of a record, its fields named by plain words. -/
def record (fields : List (String × Json)) : Json :=
  .object (fields.map fun (name, v) => (escape name.toList, v))

/-! ## Text -/

/-- A string with its quotes. -/
def quoted (lexeme : List Char) : List Char := '"' :: lexeme ++ ['"']

mutual

/-- The characters of a value without blanks. -/
def chars : Json → List Char
  | .null => "null".toList
  | .bool true => "true".toList
  | .bool false => "false".toList
  | .number lexeme => lexeme
  | .string lexeme => quoted lexeme
  | .array [] => ['[', ']']
  | .array (v :: vs) => '[' :: v.chars ++ charsItems vs
  | .object [] => ['{', '}']
  | .object (m :: ms) => '{' :: charsMember m ++ charsMembers ms

/-- The items after the first and the closing bracket. -/
def charsItems : List Json → List Char
  | [] => [']']
  | v :: vs => ',' :: v.chars ++ charsItems vs

/-- The members after the first and the closing brace. -/
def charsMembers : List (List Char × Json) → List Char
  | [] => ['}']
  | m :: ms => ',' :: charsMember m ++ charsMembers ms

def charsMember : List Char × Json → List Char
  | (k, v) => quoted k ++ ':' :: v.chars

end

/-- The text of a value without blanks. -/
def compact (v : Json) : String := String.ofList v.chars

/-- The start of a line at a level. -/
def newline (level : Nat) : List Char := '\n' :: List.replicate (2 * level) ' '

mutual

/-- The characters of a value on several lines, its own brackets at the given level. -/
def prettyChars (level : Nat) : Json → List Char
  | .null => "null".toList
  | .bool true => "true".toList
  | .bool false => "false".toList
  | .number lexeme => lexeme
  | .string lexeme => quoted lexeme
  | .array [] => ['[', ']']
  | .array (v :: vs) =>
    '[' :: newline (level + 1) ++ v.prettyChars (level + 1) ++ prettyItems level vs
  | .object [] => ['{', '}']
  | .object (m :: ms) =>
    '{' :: newline (level + 1) ++ prettyMember (level + 1) m ++ prettyMembers level ms

/-- The items after the first and the closing bracket. -/
def prettyItems (level : Nat) : List Json → List Char
  | [] => newline level ++ [']']
  | v :: vs => ',' :: newline (level + 1) ++ v.prettyChars (level + 1) ++ prettyItems level vs

/-- The members after the first and the closing brace. -/
def prettyMembers (level : Nat) : List (List Char × Json) → List Char
  | [] => newline level ++ ['}']
  | m :: ms => ',' :: newline (level + 1) ++ prettyMember (level + 1) m ++ prettyMembers level ms

def prettyMember (level : Nat) : List Char × Json → List Char
  | (k, v) => quoted k ++ ':' :: ' ' :: v.prettyChars level

end

/-- The text of a value on several lines. -/
def pretty (v : Json) : String := String.ofList (v.prettyChars 0)

end Json

end Refutation
