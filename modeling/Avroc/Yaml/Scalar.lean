import Avroc.Json.Reader
import Avroc.Text.Split
import Avroc.Yaml.Value

/-!
# Plain scalars

What a scalar without quotes stands for.  Besides the decimal forms, numbers may be written in
base two (`0b`), eight (a leading zero), sixteen (`0x`) and sixty (digits between colons);
underscores between the digits do not count.  Any text that is no other scalar is a string.
-/

namespace Avroc.Yaml

/-- The number that the digits of a base spell. -/
def baseValue (base : Nat) (cs : List Char) : Nat :=
  cs.foldl (fun n c => base * n + (Json.hexValue? c).getD 0) 0

/-- Whether the text has only digits below a base and underscores, and at least one of them. -/
def isRun (base : Nat) (cs : List Char) : Bool :=
  !cs.isEmpty && cs.all fun c => c = '_' || ((Json.hexValue? c).any (· < base))

/-- The text without underscores. -/
def dropUnderscores (cs : List Char) : List Char :=
  cs.filter (· ≠ '_')

/-- Whether the text starts with one of the digits one to nine and goes on with digits and
underscores. -/
def isCounting : List Char → Bool
  | c :: rest => '1' ≤ c && c ≤ '9' && (rest.isEmpty || isRun 10 rest)
  | [] => false

/-- Whether the text is a place of a number of base sixty: a number from 0 to 59. -/
def isSixtieth : List Char → Bool
  | [c] => Json.isPlainDigit c
  | [c, d] => '0' ≤ c && c ≤ '5' && Json.isPlainDigit d
  | _ => false

/-- The number that places of base sixty spell. -/
def sixtyValue (places : List (List Char)) : Nat :=
  places.foldl (fun n place => 60 * n + baseValue 10 (dropUnderscores place)) 0

/-- The size of a whole number without its sign. -/
def wholeSize? (cs : List Char) : Option Nat :=
  match cs with
  | '0' :: 'b' :: digits =>
    if isRun 2 digits then some (baseValue 2 (dropUnderscores digits)) else none
  | '0' :: 'x' :: digits =>
    if isRun 16 digits then some (baseValue 16 (dropUnderscores digits)) else none
  | ['0'] => some 0
  | '0' :: digits => if isRun 8 digits then some (baseValue 8 (dropUnderscores digits)) else none
  | cs =>
    match Text.splitAtEach ':' cs with
    | [whole] => if isCounting whole then some (baseValue 10 (dropUnderscores whole)) else none
    | first :: places =>
      if isCounting first && places.all isSixtieth then some (sixtyValue (first :: places))
      else none
    | [] => none

/-- The whole number that a plain scalar spells. -/
def whole? (cs : List Char) : Option Int :=
  let (negative, size) := splitAnySign cs
  (wholeSize? size).map fun n => if negative then -(n : Int) else n

/-- Whether the text is an exponent with its sign, or nothing. -/
def isExponent : List Char → Bool
  | [] => true
  | mark :: sign :: digits =>
    (mark = 'e' || mark = 'E') && (sign = '+' || sign = '-') && !digits.isEmpty &&
      digits.all Json.isPlainDigit
  | _ => false

/-- Whether the text is digits and underscores, the first of them a digit. -/
def startsWithDigit : List Char → Bool
  | c :: rest => Json.isPlainDigit c && (rest.isEmpty || isRun 10 rest)
  | [] => false

/-- The number of a decimal with a point, without its sign: `signed` tells whether a sign stood
before it, which needs a digit before the point. -/
def decimal? (negative signed : Bool) (cs : List Char) : Option Binary64 :=
  let whole := cs.takeWhile (· ≠ '.')
  match cs.drop whole.length with
  | _ :: more =>
    let fraction := more.takeWhile fun c => Json.isPlainDigit c || c = '_'
    let exponent := more.drop fraction.length
    let plain := startsWithDigit whole ||
      (whole.isEmpty && !signed && startsWithDigit fraction)
    if plain && isExponent exponent then
      let digits := dropUnderscores whole ++ dropUnderscores fraction
      some (.ofDecimal negative (baseValue 10 digits)
        (readExponent exponent - (dropUnderscores fraction).length))
    else
      match Text.splitAtEach ':' whole with
      | first :: place :: places =>
        if startsWithDigit first && (place :: places).all isSixtieth && exponent.isEmpty then
          let digits := dropUnderscores fraction
          let size := sixtyValue (first :: place :: places) * Nat.pow 10 digits.length +
            baseValue 10 digits
          some (.ofDecimal negative size (-(digits.length : Int)))
        else none
      | _ => none
  | [] => none

/-- The floating point number that a plain scalar spells. -/
def real? (cs : List Char) : Option Binary64 :=
  let (negative, size) := splitAnySign cs
  let signed := size.length < cs.length
  match String.ofList size with
  | ".inf" | ".Inf" | ".INF" => some (.infinity negative)
  | ".nan" | ".NaN" | ".NAN" => if signed then none else some .nan
  | _ => decimal? negative signed size

/-- The truth value that a plain scalar spells. -/
def truth? (word : String) : Option Bool :=
  if ["yes", "Yes", "YES", "true", "True", "TRUE", "on", "On", "ON"].contains word then some true
  else if ["no", "No", "NO", "false", "False", "FALSE", "off", "Off", "OFF"].contains word then
    some false
  else none

/-- The value of a plain scalar. -/
def ofPlain (cs : List Char) : Yaml :=
  let word := String.ofList cs
  if ["", "~", "null", "Null", "NULL"].contains word then null
  else
    match truth? word with
    | some b => bool b
    | none =>
      match real? cs with
      | some x => real x
      | none =>
        match whole? cs with
        | some n => int n
        | none => string word

end Avroc.Yaml
