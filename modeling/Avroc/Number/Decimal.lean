import Avroc.Number.Binary64
import Avroc.Text.Digit
import Avroc.Text.Split

/-!
# Reading numbers

Whole and decimal numbers from their text.  The digits may be those of any script.
-/

namespace Avroc

/-- The most digits that a whole number may be written with. -/
def maxDigits : Nat := 4300

def splitSign : List Char → Bool × List Char
  | '-' :: rest => (true, rest)
  | cs => (false, cs)

/-- The whole number that an optional minus sign and digits spell. -/
def readWhole (cs : List Char) : Int :=
  let (negative, digits) := splitSign cs
  let size := Text.decimalValue digits
  if negative then -(size : Int) else size

/-- Splits a leading sign of either kind from a number; the flag tells a minus sign. -/
def splitAnySign : List Char → Bool × List Char
  | '-' :: rest => (true, rest)
  | '+' :: rest => (false, rest)
  | cs => (false, cs)

/-- Whether the text is digits, with single underscores between them. -/
def isGrouped (isDigit : Char → Bool) (cs : List Char) : Bool :=
  (Text.splitAtEach '_' cs).all fun group => !group.isEmpty && group.all isDigit

/-- The whole number with the digits of a text, underscores aside. -/
def readGrouped? (isDigit : Char → Bool) (negative : Bool) (cs : List Char) : Option Int :=
  if isGrouped isDigit cs then
    let n := Text.decimalValue (cs.filter (· ≠ '_'))
    some (if negative then -(n : Int) else n)
  else none

/-- The exponent after a mark `e`, with an optional sign. -/
def readExponent : List Char → Int
  | _ :: '-' :: digits => -(Text.decimalValue digits : Int)
  | _ :: '+' :: digits => Text.decimalValue digits
  | _ :: digits => Text.decimalValue digits
  | [] => 0

/-- The value nearest to a decimal: an optional minus sign, digits, an optional fraction and an
optional exponent. -/
def readDecimal (cs : List Char) : Binary64 :=
  let (negative, size) := splitSign cs
  let whole := size.takeWhile Text.isDecimal
  let afterWhole := size.drop whole.length
  let fraction := match afterWhole with
    | '.' :: more => more.takeWhile Text.isDecimal
    | _ => []
  let afterFraction := match afterWhole with
    | '.' :: more => more.drop fraction.length
    | more => more
  Binary64.ofDecimal negative (Text.decimalValue (whole ++ fraction))
    (readExponent afterFraction - fraction.length)

end Avroc
