import Avroc.Idl.Cursor
import Avroc.Number.Decimal

/-!
# Literals

The values that properties and defaults are written with.

* `stringLiteral`, `integerLiteral` : the value of a string or whole number.
-/

namespace Avroc.Idl

def stringLiteral : Parsing String := do
  let token ← next
  if token.kind ≠ .string then failAt token (.expectedString token.found)
  else match Json.parse token.value with
    | .ok (.string s) => return s
    | _ => failAt token (.invalidString token.value)

/-- Whether a number is written without point and exponent. -/
def isWhole (cs : List Char) : Bool :=
  let digits := (splitSign cs).2
  !digits.isEmpty && digits.all Text.isDecimal

def wholeNumber (cs : List Char) : Parsing Int := do
  let count := (splitSign cs).2.length
  if count > maxDigits then throw (.tooManyDigits count)
  else return readWhole cs

def integerLiteral : Parsing Int := do
  let token ← next
  if token.kind = .number && isWhole token.value.toList then wholeNumber token.value.toList
  else failAt token (.expectedInteger token.found)

def numberValue (cs : List Char) : Parsing Json := do
  if isWhole cs then return .int (← wholeNumber cs) else return .real (readDecimal cs)

/-- The value of a word that stands for one. -/
def wordValue? : String → Option Json
  | "true" => some (.bool true)
  | "false" => some (.bool false)
  | "null" => some .null
  | _ => none

def jsonMember (part : Parsing Json) : Parsing (String × Json) := do
  let key ← stringLiteral
  expectPunct ":"
  return (key, ← part)

/-- A JSON value, with the values inside it read by `part`. -/
def jsonValueOf (part : Parsing Json) : Parsing Json := do
  let token ← peek
  match token.kind, wordValue? token.value with
  | .string, _ => return .string (← stringLiteral)
  | .number, _ =>
    discard next
    numberValue token.value.toList
  | .ident, some value =>
    discard next
    return value
  | _, _ =>
    if token.isPunct "[" then
      discard next
      let items ← listUntil "]" part
      discard next
      return .array items
    else if token.isPunct "\x7b" then
      discard next
      let members ← listUntil "\x7d" (jsonMember part)
      discard next
      return .object (Members.update [] members)
    else failHere (.expectedJson token.found)

/-- A JSON value, nested less than `depth` deep. -/
def jsonValueWithin : Nat → Parsing Json
  | 0 => do failHere (.expectedJson (← peek).found)
  | depth + 1 => jsonValueOf (jsonValueWithin depth)

/-- A JSON value.  Each level of nesting takes a token. -/
def jsonValue : Parsing Json := do
  jsonValueWithin (← get).tokens.length

/-- A property, from its name on. -/
def property : Parsing (String × Json) := do
  let token ← next
  expectPunct "("
  let value ← jsonValue
  expectPunct ")"
  return (String.ofList (token.value.toList.drop 1), value)

/-- The properties ahead; a later one replaces an earlier one of the same name. -/
def properties : Parsing Members := do
  return Members.update [] (← many (return (← peek).kind ≠ .prop) property)

end Avroc.Idl
