import Refutation.Json.Basic

/-!
# The size of written numbers

A written number stands for a number of double precision, and one that is too large for that is
refused. Its size is found in three steps, each with an error of its own:

* digits are taken as long as they fit in 64 bits, and those that follow only count (`appendDigits`,
  `Decimal.scaled`);
* what the digits write and the power of ten are rounded to 53 bits, each for itself (`nearest53`);
* the product of the two must not round to infinity (`isFinite`).

So a number close to the largest one may be refused although it rounds to it, and the other way
round.
-/

namespace Refutation

namespace Json

/-! ## Digits -/

def digitValue (d : Char) : Nat := d.toNat - '0'.toNat

/-- The number that decimal digits write. -/
def ofDigits (ds : List Char) : Nat := ds.foldl (fun n d => 10 * n + digitValue d) 0

/-- Appends digits to a number as long as it fits in 64 bits. Also returns the digits left over,
the first of which does not fit. -/
def appendDigits (n : Nat) : List Char → Nat × List Char
  | [] => (n, [])
  | d :: ds =>
    let m := 10 * n + digitValue d
    if m < Nat.pow 2 64 then appendDigits m ds else (n, d :: ds)

/-- A number without its sign: the digits before and after the point, and the exponent. -/
structure Decimal where
  whole : List Char
  fraction : List Char
  exponent : Int

namespace Decimal

def ofLexeme (lexeme : List Char) : Decimal :=
  let unsigned := lexeme.dropWhile (· == '-')
  let isMark (c : Char) := c == 'e' || c == 'E'
  let mantissa := unsigned.takeWhile (!isMark ·)
  let power := (unsigned.dropWhile (!isMark ·)).drop 1
  let size : Int := ofDigits (power.filter Char.isDigit)
  { whole := mantissa.takeWhile (· != '.')
    fraction := (mantissa.dropWhile (· != '.')).drop 1
    exponent := if power.head? = some '-' then -size else size }

/-- The number as an integer of 64 bits and a power of ten. A digit before the point that is left
over raises the power, and a digit after it that is taken lowers it. -/
def scaled (x : Decimal) : Nat × Int :=
  let (n, left) := appendDigits 0 x.whole
  let (n, unused) := appendDigits n x.fraction
  (n, x.exponent + left.length - (x.fraction.length - unused.length : Nat))

end Decimal

/-! ## Rounding -/

/-- The nearest number with at most 53 significant bits; of two the one whose last bit is 0. -/
def nearest53 (n : Nat) : Nat :=
  let unit := Nat.pow 2 (n.log2 + 1 - 53)
  let quotient := n / unit
  let twice := 2 * (n % unit)
  if unit < twice ∨ (twice = unit ∧ quotient % 2 = 1) then (quotient + 1) * unit else quotient * unit

/-- Numbers of at most 53 bits are not rounded. -/
theorem nearest53_eq_self {n : Nat} (h : n < Nat.pow 2 53) : nearest53 n = n := by
  have hlog : n.log2 + 1 - 53 = 0 := by
    by_cases h0 : n = 0
    · subst h0
      decide
    · have := (Nat.log2_lt h0).mpr h
      omega
  simp [nearest53, hlog, Nat.mod_one]

/-- From here on numbers round to infinity: half a unit above the largest of double precision. -/
def overflow : Nat := Nat.pow 2 1024 - Nat.pow 2 970

/-- The product of `n` and a power of ten, both rounded, does not round to infinity. Powers above
the 308th are infinite themselves, and negative ones make no number larger. -/
def isFinite (n : Nat) (power : Int) : Bool :=
  n == 0 || decide (power < 0) ||
    (decide (power ≤ 308) && decide (nearest53 n * nearest53 (Nat.pow 10 power.toNat) < overflow))

/-- The number is in the range of double precision. -/
def isDouble (lexeme : List Char) : Bool :=
  let (n, power) := (Decimal.ofLexeme lexeme).scaled
  isFinite n power

end Json

end Refutation
