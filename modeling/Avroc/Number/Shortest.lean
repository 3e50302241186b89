import Avroc.Number.Binary64

/-!
# Shortest decimals

The decimal text of a binary floating point value: the fewest digits that read back as the same
value, and among those the digits nearest to it.

* `Binary64.text` : the text of a value in a layout.
-/

namespace Avroc

namespace Binary64

/-- Compares `a * 10 ^ k` with `b * 2 ^ e`. -/
def compareScaled (a : Nat) (k : Int) (b : Nat) (e : Int) : Ordering :=
  compare (a * Nat.pow 10 k.toNat * Nat.pow 2 (-e).toNat)
    (b * Nat.pow 2 e.toNat * Nat.pow 10 (-k).toNat)

/-- Whether `a * 10 ^ k` is read as `mantissa * 2 ^ exponent`. -/
def readsBack (mantissa : Nat) (exponent : Int) (a : Nat) (k : Int) : Bool :=
  ofDecimal false a k = finite false mantissa exponent

/-- The quotient of `mantissa * 2 ^ exponent` by `10 ^ k`, rounded down. -/
def floorAt (mantissa : Nat) (exponent : Int) (k : Int) : Nat :=
  mantissa * Nat.pow 2 exponent.toNat * Nat.pow 10 (-k).toNat /
    (Nat.pow 2 (-exponent).toNat * Nat.pow 10 k.toNat)

/-- Which of `a * 10 ^ k` and `(a + 1) * 10 ^ k` is nearer to the value, the even one in a tie. -/
def nearer (mantissa : Nat) (exponent : Int) (a : Nat) (k : Int) : Nat :=
  match compareScaled (2 * a + 1) k (2 * mantissa) exponent with
  | .gt => a
  | .lt => a + 1
  | .eq => a + a % 2

/-- The number of digits before the decimal point, negative when zeros follow the point. -/
def pointPlace (mantissa : Nat) (exponent : Int) : Int :=
  (digitCount (floorAt mantissa exponent (-400)) : Int) - 400

/-- A multiple of `10 ^ k` beside the value that reads back as the value. -/
def candidate? (mantissa : Nat) (exponent : Int) (k : Int) : Option Nat :=
  let a := floorAt mantissa exponent k
  match readsBack mantissa exponent a k, readsBack mantissa exponent (a + 1) k with
  | true, true => some (nearer mantissa exponent a k)
  | true, false => some a
  | false, true => some (a + 1)
  | false, false => none

/-- All the digits of `mantissa * 2 ^ exponent`, and the power of ten that they count. -/
def allDigits (mantissa : Nat) (exponent : Int) : Nat × Int :=
  (mantissa * Nat.pow 2 exponent.toNat * Nat.pow 5 (-exponent).toNat, min exponent 0)

/-- The fewest digits that read back as the positive value `mantissa * 2 ^ exponent`, and the
power of ten that they count.  More than seventeen are never needed. -/
def shortestDigits (mantissa : Nat) (exponent : Int) : Nat × Int :=
  let place := pointPlace mantissa exponent
  let found := (List.range 17).findSome? fun (n : Nat) =>
    let k := place - (n + 1 : Nat)
    (candidate? mantissa exponent k).map (·, k)
  found.getD (allDigits mantissa exponent)

end Binary64

/-- How a decimal is laid out: the exponents from `least` up to but not including `limit` are
written positionally, and the special values have names of their own. -/
structure DecimalLayout where
  least : Int
  limit : Int
  nan : String
  infinity : String

namespace DecimalLayout

/-- The digits with the point after `place` of them. -/
def positional (digits : List Char) (place : Int) : List Char :=
  if place ≤ 0 then ['0', '.'] ++ List.replicate (-place).toNat '0' ++ digits
  else if digits.length ≤ place.toNat then
    digits ++ List.replicate (place.toNat - digits.length) '0' ++ ['.', '0']
  else digits.take place.toNat ++ ['.'] ++ digits.drop place.toNat

/-- An exponent with its sign and at least two digits. -/
def exponentText (exponent : Int) : List Char :=
  let digits := Nat.toDigits 10 exponent.natAbs
  (if exponent < 0 then '-' else '+') :: (if digits.length < 2 then '0' :: digits else digits)

/-- The digits with the point after the first of them, and the exponent. -/
def scientific (digits : List Char) (exponent : Int) : List Char :=
  let mantissa := match digits with
    | [] => []
    | [d] => [d]
    | d :: rest => d :: '.' :: rest
  mantissa ++ ['e'] ++ exponentText exponent

/-- The text of the positive decimal `digits * 10 ^ power`. -/
def decimal (layout : DecimalLayout) (digits : Nat) (power : Int) : List Char :=
  let all := Nat.toDigits 10 digits
  let place := (all.length : Int) + power
  let significant := (all.reverse.dropWhile (· = '0')).reverse
  if layout.least ≤ place - 1 && place - 1 < layout.limit then positional significant place
  else scientific significant (place - 1)

end DecimalLayout

def Binary64.text (layout : DecimalLayout) : Binary64 → String
  | .nan => layout.nan
  | .infinity negative => (if negative then "-" else "") ++ layout.infinity
  | .finite negative mantissa exponent =>
    let size :=
      if mantissa = 0 then "0.0"
      else
        let (digits, power) := shortestDigits mantissa exponent
        String.ofList (layout.decimal digits power)
    (if negative then "-" else "") ++ size

end Avroc
