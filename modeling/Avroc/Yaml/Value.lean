import Avroc.Json.Literal

/-!
# YAML values

The values of a project file.  They are those of JSON, except that any scalar may be a key.

* `Yaml.ofJson` : a JSON value.
* `Yaml.literal`, `Yaml.kind` : how messages show a value and name its kind.
-/

namespace Avroc

/-- A YAML value. -/
inductive Yaml
  | null
  | bool (value : Bool)
  | int (value : Int)
  | real (value : Binary64)
  | string (value : String)
  | list (items : List Yaml)
  | mapping (pairs : List (Yaml × Yaml))
deriving BEq, Repr, Inhabited

namespace Yaml

mutual

def ofJson : Json → Yaml
  | .null => null
  | .bool b => bool b
  | .int n => int n
  | .real x => real x
  | .string s => string s
  | .array items => list (ofItems items)
  | .object members => mapping (ofMembers members)
termination_by structural v => v

def ofItems : List Json → List Yaml
  | [] => []
  | v :: rest => ofJson v :: ofItems rest
termination_by structural items => items

def ofMembers : List (String × Json) → List (Yaml × Yaml)
  | [] => []
  | (k, v) :: rest => (string k, ofJson v) :: ofMembers rest
termination_by structural members => members

end

def kind : Yaml → String
  | null => "NoneType"
  | bool _ => "bool"
  | int _ => "int"
  | real _ => "float"
  | string _ => "str"
  | list _ => "list"
  | mapping _ => "dict"

mutual

def literal : Yaml → String
  | null => "None"
  | bool b => if b then "True" else "False"
  | int n => toString n
  | real x => x.text literalDecimals
  | string s => Text.quote s
  | list items => "[" ++ ", ".intercalate (itemLiterals items) ++ "]"
  | mapping pairs => "\x7b" ++ ", ".intercalate (pairLiterals pairs) ++ "\x7d"
termination_by structural v => v

def itemLiterals : List Yaml → List String
  | [] => []
  | v :: rest => literal v :: itemLiterals rest
termination_by structural items => items

def pairLiterals : List (Yaml × Yaml) → List String
  | [] => []
  | (k, v) :: rest => (literal k ++ ": " ++ literal v) :: pairLiterals rest
termination_by structural pairs => pairs

end

def isTruthy : Yaml → Bool
  | null => false
  | bool b => b
  | int n => n != 0
  | real x => !x.isZero
  | string s => s != ""
  | list items => !items.isEmpty
  | mapping pairs => !pairs.isEmpty

/-- The integer that the value equals as a number; true and false equal one and zero. -/
def numberValue? : Yaml → Option Int
  | bool b => some (if b then 1 else 0)
  | int n => some n
  | real x => x.toInt?
  | _ => none

/-- Whether two scalars are the same key: numbers are compared by their value. -/
def sameKey (a b : Yaml) : Bool :=
  match a.numberValue?, b.numberValue? with
  | some m, some n => m == n
  | none, none => a == b
  | _, _ => false

/-- Sets a pair: a key that is there keeps its place, a new one goes to the end. -/
def insert (pairs : List (Yaml × Yaml)) (key value : Yaml) : List (Yaml × Yaml) :=
  match pairs with
  | [] => [(key, value)]
  | (k, v) :: rest => if k.sameKey key then (k, value) :: rest else (k, v) :: insert rest key value

/-- The values that going through a value yields: the items of a list, the characters of a
string, the keys of a mapping. -/
def elements? : Yaml → Option (List Yaml)
  | list items => some items
  | string s => some (s.toList.map fun c => string (String.singleton c))
  | mapping pairs => some (pairs.map (·.1))
  | _ => none

end Yaml

end Avroc
