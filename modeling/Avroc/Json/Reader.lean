import Avroc.Json.Value
import Avroc.Number.Decimal

/-!
# Reading JSON

The JSON value of a text.  Besides the standard forms, `NaN`, `Infinity` and `-Infinity` are
numbers.  A key that occurs twice in an object keeps its first place and its last value.  A text
that is no JSON is refused at the first place where no continuation could save it.

* `Json.parse` : the value of a text.
-/

namespace Avroc

/-- What is wrong with a text that is no JSON. -/
inductive JsonProblem
  | expectingValue
  | extraData
  | expectingKey
  | expectingColon
  | expectingComma
  | unterminatedString
  | controlCharacter
  | badEscape
  | badUnicodeEscape
  | byteOrderMark
deriving DecidableEq, Repr, Inhabited

def JsonProblem.message : JsonProblem → String
  | .expectingValue => "Expecting value"
  | .extraData => "Extra data"
  | .expectingKey => "Expecting property name enclosed in double quotes"
  | .expectingColon => "Expecting ':' delimiter"
  | .expectingComma => "Expecting ',' delimiter"
  | .unterminatedString => "Unterminated string starting at"
  | .controlCharacter => "Invalid control character at"
  | .badEscape => "Invalid \\escape"
  | .badUnicodeEscape => "Invalid \\uXXXX escape"
  | .byteOrderMark => "Unexpected UTF-8 BOM (decode using utf-8-sig)"

/-- Why a text has no JSON value: it is malformed at a position, or a whole number in it has more
than `maxDigits` digits. -/
inductive JsonError
  | malformed (problem : JsonProblem) (position : Nat)
  | tooManyDigits (count : Nat)
deriving DecidableEq, Repr, Inhabited

/-- The line, from one, of a position in a text. -/
def lineOf (text : List Char) (position : Nat) : Nat :=
  1 + (text.take position).count '\n'

/-- The column, from one, of a position in a text. -/
def columnOf (text : List Char) (position : Nat) : Nat :=
  1 + ((text.take position).reverse.takeWhile (· ≠ '\n')).length

/-- The problem with its place in the text, as one line. -/
def JsonProblem.located (problem : JsonProblem) (text : List Char) (position : Nat) : String :=
  problem.message ++ ": line " ++ toString (lineOf text position) ++ " column " ++
    toString (columnOf text position) ++ " (char " ++ toString position ++ ")"

namespace Json

/-- A place in a text: how many characters precede it, and those that follow. -/
structure Place where
  position : Nat
  rest : List Char

/-- A step of the reader: a result and the place after it. -/
abbrev Scan (α : Type) := Except JsonError (α × Place)

def refuse {α : Type} (problem : JsonProblem) (position : Nat) : Except JsonError α :=
  .error (.malformed problem position)

/-- Whether the character may stand between the parts of a JSON text. -/
def isSpace (c : Char) : Bool :=
  c = ' ' || c = '\t' || c = '\n' || c = '\r'

/-- The place after `n` more characters. -/
def Place.skip (here : Place) (n : Nat) : Place :=
  ⟨here.position + n, here.rest.drop n⟩

def Place.skipSpace (here : Place) : Place :=
  here.skip (here.rest.takeWhile isSpace).length

def hexValue? (c : Char) : Option Nat :=
  if '0' ≤ c && c ≤ '9' then some (c.toNat - 48)
  else if 'a' ≤ c && c ≤ 'f' then some (c.toNat - 87)
  else if 'A' ≤ c && c ≤ 'F' then some (c.toNat - 55)
  else none

/-- The number that four hexadecimal digits spell. -/
def hexUnit? (a b c d : Char) : Option Nat := do
  return (((← hexValue? a) * 16 + (← hexValue? b)) * 16 + (← hexValue? c)) * 16 + (← hexValue? d)

/-- The character of an escape `u` at a position, and the number of characters that the escape
takes; two escapes may spell the halves of one character.  Half a character alone is none, and is
read as the replacement character U+FFFD.  A string never ends with an escape, so a further
character has to follow the digits. -/
def unicodeEscape (position : Nat) : List Char → Except JsonError (Char × Nat)
  | a :: b :: c :: d :: x :: rest =>
    match hexUnit? a b c d with
    | none => refuse .badUnicodeEscape position
    | some high =>
      if 0xD800 ≤ high && high < 0xDC00 then
        match x :: rest with
        | '\\' :: 'u' :: e :: f :: g :: h :: _ :: _ =>
          match hexUnit? e f g h with
          | none => refuse .badUnicodeEscape (position + 6)
          | some low =>
            if 0xDC00 ≤ low && low < 0xE000 then
              .ok (Char.ofNat (0x10000 + (high - 0xD800) * 0x400 + (low - 0xDC00)), 11)
            else .ok ('\ufffd', 5)
        | _ => .ok ('\ufffd', 5)
      else if 0xDC00 ≤ high && high < 0xE000 then .ok ('\ufffd', 5)
      else .ok (Char.ofNat high, 5)
  | _ => refuse .badUnicodeEscape position

/-- The character of an escape whose backslash stands at a position in the string that opened at
`start`, and the number of characters after the backslash that it takes. -/
def escape (start position : Nat) : List Char → Except JsonError (Char × Nat)
  | [] => refuse .unterminatedString start
  | 'u' :: rest => unicodeEscape (position + 1) rest
  | '\x22' :: _ => .ok ('\x22', 1)
  | '\\' :: _ => .ok ('\\', 1)
  | '/' :: _ => .ok ('/', 1)
  | 'b' :: _ => .ok ('\x08', 1)
  | 'f' :: _ => .ok ('\x0c', 1)
  | 'n' :: _ => .ok ('\n', 1)
  | 'r' :: _ => .ok ('\r', 1)
  | 't' :: _ => .ok ('\t', 1)
  | _ :: _ => refuse .badEscape position

/-- Reads the rest of the string that opened at `start`; the next `taken` characters belong to an
escape that has been read. -/
def scanString (start position taken : Nat) : List Char → Scan (List Char)
  | [] => refuse .unterminatedString start
  | c :: rest =>
    match taken with
    | left + 1 => scanString start (position + 1) left rest
    | 0 =>
      if c = '\x22' then .ok ([], ⟨position + 1, rest⟩)
      else if c = '\\' then
        match escape start position rest with
        | .error e => .error e
        | .ok (value, used) =>
          match scanString start (position + 1) used rest with
          | .error e => .error e
          | .ok (more, after) => .ok (value :: more, after)
      else if c.toNat < 0x20 then refuse .controlCharacter position
      else
        match scanString start (position + 1) 0 rest with
        | .error e => .error e
        | .ok (more, after) => .ok (c :: more, after)

/-- Whether the character is one of the ten plain digits. -/
def isPlainDigit (c : Char) : Bool :=
  '0' ≤ c && c ≤ '9'

/-- The number of characters of a fraction: a point and at least one digit. -/
def fractionLength : List Char → Nat
  | '.' :: rest =>
    let digits := rest.takeWhile isPlainDigit
    if digits.isEmpty then 0 else digits.length + 1
  | _ => 0

/-- The number of characters of an exponent: a mark, an optional sign and at least one digit. -/
def exponentLength : List Char → Nat
  | mark :: rest =>
    if mark = 'e' || mark = 'E' then
      let signLength := match rest with
        | '+' :: _ => 1
        | '-' :: _ => 1
        | _ => 0
      let digits := (rest.drop signLength).takeWhile isPlainDigit
      if digits.isEmpty then 0 else 1 + signLength + digits.length
    else 0
  | [] => 0

/-- The number of characters of a whole number without leading zeros. -/
def wholeLength : List Char → Nat
  | '0' :: _ => 1
  | cs => (cs.takeWhile isPlainDigit).length

def scanNumber (here : Place) : Scan Json :=
  let signLength := if (splitSign here.rest).1 then 1 else 0
  let size := here.rest.drop signLength
  let whole := wholeLength size
  if whole = 0 then refuse .expectingValue here.position
  else
    let fraction := fractionLength (size.drop whole)
    let exponent := exponentLength (size.drop (whole + fraction))
    let length := signLength + whole + fraction + exponent
    let text := here.rest.take length
    if fraction + exponent = 0 then
      if maxDigits < whole then .error (.tooManyDigits whole)
      else .ok (int (readWhole text), here.skip length)
    else .ok (real (readDecimal text), here.skip length)

def startsWith (word : String) (cs : List Char) : Bool :=
  word.toList.isPrefixOf cs

/-- Reads a word that is a value, or else a number. -/
def scanWord (here : Place) : Scan Json :=
  if startsWith "null" here.rest then .ok (null, here.skip 4)
  else if startsWith "true" here.rest then .ok (bool true, here.skip 4)
  else if startsWith "false" here.rest then .ok (bool false, here.skip 5)
  else if startsWith "NaN" here.rest then .ok (real .nan, here.skip 3)
  else if startsWith "Infinity" here.rest then .ok (real (.infinity false), here.skip 8)
  else if startsWith "-Infinity" here.rest then .ok (real (.infinity true), here.skip 9)
  else scanNumber here

mutual

/-- Reads a value.  `fuel` bounds the values that may still be read and is never spent before the
text is. -/
def scanValue (fuel : Nat) (here : Place) : Scan Json :=
  match fuel with
  | 0 => refuse .expectingValue here.position
  | fuel + 1 =>
    match here.rest with
    | '\x22' :: rest =>
      match scanString here.position (here.position + 1) 0 rest with
      | .error e => .error e
      | .ok (text, after) => .ok (string (String.ofList text), after)
    | '[' :: _ =>
      let inner := (here.skip 1).skipSpace
      match inner.rest with
      | ']' :: _ => .ok (array [], inner.skip 1)
      | _ =>
        match scanItems fuel inner with
        | .error e => .error e
        | .ok (items, after) => .ok (array items, after)
    | '\x7b' :: _ =>
      let inner := (here.skip 1).skipSpace
      match inner.rest with
      | '\x7d' :: _ => .ok (object [], inner.skip 1)
      | _ =>
        match scanMembers fuel inner with
        | .error e => .error e
        | .ok (members, after) => .ok (object (Members.update [] members), after)
    | _ => scanWord here
termination_by structural fuel

/-- Reads the items up to the closing bracket. -/
def scanItems (fuel : Nat) (here : Place) : Scan (List Json) :=
  match fuel with
  | 0 => refuse .expectingValue here.position
  | fuel + 1 =>
    match scanValue fuel here with
    | .error e => .error e
    | .ok (item, after) =>
      let next := after.skipSpace
      match next.rest with
      | ']' :: _ => .ok ([item], next.skip 1)
      | ',' :: _ =>
        match scanItems fuel (next.skip 1).skipSpace with
        | .error e => .error e
        | .ok (items, last) => .ok (item :: items, last)
      | _ => refuse .expectingComma next.position
termination_by structural fuel

/-- Reads the members up to the closing brace. -/
def scanMembers (fuel : Nat) (here : Place) : Scan (List (String × Json)) :=
  match fuel with
  | 0 => refuse .expectingKey here.position
  | fuel + 1 =>
    match here.rest with
    | '\x22' :: rest =>
      match scanString here.position (here.position + 1) 0 rest with
      | .error e => .error e
      | .ok (key, afterKey) =>
        let colon := afterKey.skipSpace
        match colon.rest with
        | ':' :: _ =>
          match scanValue fuel (colon.skip 1).skipSpace with
          | .error e => .error e
          | .ok (value, after) =>
            let next := after.skipSpace
            match next.rest with
            | '\x7d' :: _ => .ok ([(String.ofList key, value)], next.skip 1)
            | ',' :: _ =>
              match scanMembers fuel (next.skip 1).skipSpace with
              | .error e => .error e
              | .ok (members, last) => .ok ((String.ofList key, value) :: members, last)
            | _ => refuse .expectingComma next.position
        | _ => refuse .expectingColon colon.position
    | _ => refuse .expectingKey here.position
termination_by structural fuel

end

def parseChars (cs : List Char) : Except JsonError Json :=
  if cs.head? = some '\ufeff' then refuse .byteOrderMark 0
  else
    match scanValue (2 * cs.length + 2) (Place.mk 0 cs).skipSpace with
    | .error e => .error e
    | .ok (value, after) =>
      let last := after.skipSpace
      if last.rest.isEmpty then .ok value else refuse .extraData last.position

def parse (text : String) : Except JsonError Json :=
  parseChars text.toList

end Json

end Avroc
