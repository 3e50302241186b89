import Avroc.Text.Printable

/-!
# Quoted text

The quoted form that messages and generated modules use.  A text stands in single quotes, or in
double quotes when it holds a single quote and no double quote; the quote itself, the backslash
and every character that is not printable are escaped.

* `quote` : the quoted form of a text.
-/

namespace Avroc.Text

/-- The number in hexadecimal, with at least `width` digits. -/
def hex (width n : Nat) : List Char :=
  let digits := Nat.toDigits 16 n
  List.replicate (width - digits.length) '0' ++ digits

/-- The quote that needs the fewest escapes, single if there is no difference. -/
def quoteMark (cs : List Char) : Char :=
  if cs.contains '\x27' && !cs.contains '\x22' then '\x22' else '\x27'

def quoteChar (mark c : Char) : List Char :=
  if c = mark || c = '\\' then ['\\', c]
  else if c = '\n' then ['\\', 'n']
  else if c = '\r' then ['\\', 'r']
  else if c = '\t' then ['\\', 't']
  else if isPrintable c then [c]
  else if c.toNat ≤ 0xFF then ['\\', 'x'] ++ hex 2 c.toNat
  else if c.toNat ≤ 0xFFFF then ['\\', 'u'] ++ hex 4 c.toNat
  else ['\\', 'U'] ++ hex 8 c.toNat

def quoteChars (cs : List Char) : List Char :=
  let mark := quoteMark cs
  mark :: cs.flatMap (quoteChar mark) ++ [mark]

def quote (s : String) : String :=
  String.ofList (quoteChars s.toList)

/-- A byte, given as the character of that number, inside quotes `mark`. -/
def quoteByte (mark c : Char) : List Char :=
  if c = mark || c = '\\' then ['\\', c]
  else if c = '\n' then ['\\', 'n']
  else if c = '\r' then ['\\', 'r']
  else if c = '\t' then ['\\', 't']
  else if 0x20 ≤ c.toNat && c.toNat < 0x7F then [c]
  else ['\\', 'x'] ++ hex 2 c.toNat

/-- The quoted form of the bytes that spell the text in Latin-1; a character that Latin-1 lacks
counts as a question mark. -/
def quoteBytes (s : String) : String :=
  let bytes := s.toList.map fun c => if c.toNat ≤ 0xFF then c else '?'
  let mark := quoteMark bytes
  String.ofList ('b' :: mark :: bytes.flatMap (quoteByte mark) ++ [mark])

end Avroc.Text
