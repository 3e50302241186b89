import Avroc.Json.Value
import Avroc.Number.Shortest
import Avroc.Text.Order
import Avroc.Text.Quoted

/-!
# JSON text

The text of a JSON value, in ASCII.  Members stand in their order.
-/

namespace Avroc

def jsonDecimals : DecimalLayout := ⟨-4, 16, "NaN", "Infinity"⟩

namespace Json

/-- The escape of a 16-bit unit. -/
def unitEscape (n : Nat) : List Char :=
  ['\\', 'u'] ++ Text.hex 4 n

def escapeChar (c : Char) : List Char :=
  if c = '\x22' then ['\\', '\x22']
  else if c = '\\' then ['\\', '\\']
  else if c = '\n' then ['\\', 'n']
  else if c = '\r' then ['\\', 'r']
  else if c = '\t' then ['\\', 't']
  else if c = '\x08' then ['\\', 'b']
  else if c = '\x0c' then ['\\', 'f']
  else if 0x20 ≤ c.toNat && c.toNat ≤ 0x7E then [c]
  else if c.toNat ≤ 0xFFFF then unitEscape c.toNat
  else
    let n := c.toNat - 0x10000
    unitEscape (0xD800 + n / 0x400) ++ unitEscape (0xDC00 + n % 0x400)

def renderString (s : String) : String :=
  String.ofList ('\x22' :: s.toList.flatMap escapeChar ++ ['\x22'])

/-- The text of a value that holds no other value. -/
def renderScalar : Json → String
  | null => "null"
  | bool b => if b then "true" else "false"
  | int n => toString n
  | real x => x.text jsonDecimals
  | string s => renderString s
  | array _ => "[]"
  | object _ => "\x7b\x7d"

mutual

/-- The text of a value on one line. -/
def render : Json → String
  | array items => "[" ++ ", ".intercalate (renderItems items) ++ "]"
  | object members => "\x7b" ++ ", ".intercalate (renderMembers members) ++ "\x7d"
  | v => v.renderScalar
termination_by structural v => v

def renderItems : List Json → List String
  | [] => []
  | v :: rest => render v :: renderItems rest
termination_by structural items => items

def renderMembers : List (String × Json) → List String
  | [] => []
  | (k, v) :: rest => (renderString k ++ ": " ++ render v) :: renderMembers rest
termination_by structural members => members

end

/-- The parts between brackets, each on a line `depth` levels deep. -/
def bracketed (opening closing : String) (depth : Nat) (parts : List String) : String :=
  match parts with
  | [] => opening ++ closing
  | _ =>
    let indent (n : Nat) := "\n" ++ String.ofList (List.replicate (2 * n) ' ')
    opening ++ indent (depth + 1) ++ ("," ++ indent (depth + 1)).intercalate parts ++
      indent depth ++ closing

mutual

/-- The text of a value over several lines, for a place `depth` levels deep. -/
def renderAt (depth : Nat) : Json → String
  | array items => bracketed "[" "]" depth (itemsAt (depth + 1) items)
  | object members => bracketed "\x7b" "\x7d" depth (membersAt (depth + 1) members)
  | v => v.renderScalar
termination_by structural v => v

/-- The texts of the items, for places `depth` levels deep. -/
def itemsAt (depth : Nat) : List Json → List String
  | [] => []
  | v :: rest => renderAt depth v :: itemsAt depth rest
termination_by structural items => items

/-- The texts of the members, for places `depth` levels deep. -/
def membersAt (depth : Nat) : List (String × Json) → List String
  | [] => []
  | (k, v) :: rest => (renderString k ++ ": " ++ renderAt depth v) :: membersAt depth rest
termination_by structural members => members

end

/-- The text of a value over several lines, two spaces to a level. -/
def renderIndented (v : Json) : String :=
  renderAt 0 v

mutual

/-- The value with the members of every object in the order of their keys. -/
def sorted : Json → Json
  | array items => array (sortedItems items)
  | object members => object (Text.inOrder (·.1) (sortedMembers members))
  | v => v
termination_by structural v => v

def sortedItems : List Json → List Json
  | [] => []
  | v :: rest => sorted v :: sortedItems rest
termination_by structural items => items

def sortedMembers : List (String × Json) → List (String × Json)
  | [] => []
  | (k, v) :: rest => (k, sorted v) :: sortedMembers rest
termination_by structural members => members

end

end Json

end Avroc
