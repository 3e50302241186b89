/-!
# Binary floating point

The numbers of the 64-bit binary format as exact values: a sign, a mantissa below 2^53 and a
power of two, besides the infinities and the one value that is no number.
-/

namespace Avroc

/-- A value of the format.  A finite value is the mantissa times two to the exponent; zero has
exponent zero, and any other mantissa has 53 bits unless the exponent is the least one. -/
inductive Binary64
  | nan
  | infinity (negative : Bool)
  | finite (negative : Bool) (mantissa : Nat) (exponent : Int)
deriving DecidableEq, Repr, Inhabited

namespace Binary64

/-- The exponent of the finest values. -/
def leastExponent : Int := -1074

/-- The exponent of the coarsest values. -/
def greatestExponent : Int := 971

/-- The integer nearest to a quotient, a tie going to the even one. -/
def roundHalfEven (num den : Nat) : Nat :=
  let q := num / den
  let r := num % den
  if 2 * r < den then q
  else if den < 2 * r then q + 1
  else q + q % 2

/-- The quotient `num / (den * 2 ^ exponent)` rounded to an integer. -/
def scaled (num den : Nat) (exponent : Int) : Nat :=
  if 0 ≤ exponent then roundHalfEven num (den * Nat.pow 2 exponent.toNat)
  else roundHalfEven (num * Nat.pow 2 (-exponent).toNat) den

/-- Whether `num / den` is at least `2 ^ exponent`. -/
def reaches (num den : Nat) (exponent : Int) : Bool :=
  if 0 ≤ exponent then den * Nat.pow 2 exponent.toNat ≤ num
  else den ≤ num * Nat.pow 2 (-exponent).toNat

/-- The value nearest to the positive quotient `num / den`. -/
def ofRatio (negative : Bool) (num den : Nat) : Binary64 :=
  let guess : Int := (Nat.log2 num : Int) - Nat.log2 den
  let exponent := if reaches num den guess then guess - 52 else guess - 53
  let exponent := max exponent leastExponent
  let mantissa := scaled num den exponent
  let (mantissa, exponent) :=
    if mantissa = Nat.pow 2 53 then (Nat.pow 2 52, exponent + 1) else (mantissa, exponent)
  if mantissa = 0 then finite negative 0 0
  else if greatestExponent < exponent then infinity negative
  else finite negative mantissa exponent

def digitCount (n : Nat) : Nat :=
  (Nat.toDigits 10 n).length

/-- The value nearest to `digits * 10 ^ exponent`.  Decimals far outside the range of the format
are told by their magnitude alone. -/
def ofDecimal (negative : Bool) (digits : Nat) (exponent : Int) : Binary64 :=
  let magnitude := (digitCount digits : Int) + exponent
  if digits = 0 then finite negative 0 0
  else if 400 < magnitude then infinity negative
  else if magnitude < -400 then finite negative 0 0
  else if 0 ≤ exponent then ofRatio negative (digits * Nat.pow 10 exponent.toNat) 1
  else ofRatio negative digits (Nat.pow 10 (-exponent).toNat)

/-- Whether the value is neither infinite nor `nan`. -/
def isFinite : Binary64 → Bool
  | finite .. => true
  | _ => false

def isZero : Binary64 → Bool
  | finite _ 0 _ => true
  | _ => false

/-- The integer that the value equals. -/
def toInt? : Binary64 → Option Int
  | finite negative mantissa exponent =>
    let size? :=
      if 0 ≤ exponent then some (mantissa * Nat.pow 2 exponent.toNat)
      else
        let unit := Nat.pow 2 (-exponent).toNat
        if mantissa % unit = 0 then some (mantissa / unit) else none
    size?.map fun size => if negative then -(size : Int) else size
  | _ => none

end Binary64

end Avroc
