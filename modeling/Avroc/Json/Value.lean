import Avroc.Number.Binary64

/-!
# JSON values

The values that definitions are written in.  Whole numbers and floating point numbers are kept
apart, and an object keeps its members in order.

* `Members.get?` : a member of an object.
* `Json.kind` : the name of a value's kind in messages.
-/

namespace Avroc

/-- A JSON value. -/
inductive Json
  | null
  | bool (value : Bool)
  | int (value : Int)
  | real (value : Binary64)
  | string (value : String)
  | array (items : List Json)
  | object (members : List (String × Json))
deriving Repr, Inhabited

/-- The members of an object, or the attributes of a definition, in order. -/
abbrev Members := List (String × Json)

namespace Members

def get? (members : Members) (key : String) : Option Json :=
  members.lookup key

def has (members : Members) (key : String) : Bool :=
  (members.get? key).isSome

/-- Sets a member: a key that is there keeps its place, a new one goes to the end. -/
def insert (members : Members) (key : String) (value : Json) : Members :=
  match members with
  | [] => [(key, value)]
  | (k, v) :: rest => if k = key then (k, value) :: rest else (k, v) :: insert rest key value

/-- Adds the members whose keys are not there yet. -/
def withMissing (members extra : Members) : Members :=
  extra.foldl (fun ms (k, v) => if ms.has k then ms else ms.insert k v) members

/-- Sets every member of `extra`. -/
def update (members extra : Members) : Members :=
  extra.foldl (fun ms (k, v) => ms.insert k v) members

/-- The members without those of the given keys. -/
def without (members : Members) (keys : List String) : Members :=
  members.filter fun (k, _) => !keys.contains k

end Members

namespace Json

mutual

/-- Whether two values are the same, the members of objects in the same order. -/
def beq : Json → Json → Bool
  | null, null => true
  | bool a, bool b => a == b
  | int a, int b => a == b
  | real a, real b => a == b
  | string a, string b => a == b
  | array items, array others => beqItems items others
  | object members, object others => beqMembers members others
  | _, _ => false
termination_by structural v => v

def beqItems : List Json → List Json → Bool
  | [], [] => true
  | v :: items, other :: others => v.beq other && beqItems items others
  | _, _ => false
termination_by structural items => items

def beqMembers : List (String × Json) → List (String × Json) → Bool
  | [], [] => true
  | (key, v) :: members, (key', other) :: others =>
    key == key' && v.beq other && beqMembers members others
  | _, _ => false
termination_by structural members => members

end

instance : BEq Json := ⟨beq⟩

/-- Whether the value counts as present. -/
def isTruthy : Json → Bool
  | null => false
  | bool b => b
  | int n => n != 0
  | real x => !x.isZero
  | string s => s != ""
  | array items => !items.isEmpty
  | object members => !members.isEmpty

def kind : Json → String
  | null => "NoneType"
  | bool _ => "bool"
  | int _ => "int"
  | real _ => "float"
  | string _ => "str"
  | array _ => "list"
  | object _ => "dict"

/-- The whole number that the value counts as; true and false count as one and zero. -/
def wholeNumber? : Json → Option Int
  | int n => some n
  | bool b => some (if b then 1 else 0)
  | _ => none

/-- The integer that the value equals as a number. -/
def numberValue? : Json → Option Int
  | real x => x.toInt?
  | v => v.wholeNumber?

/-- The values that going through a value yields: the items of an array, the characters of a
string, the keys of an object. -/
def elements? : Json → Option (List Json)
  | array items => some items
  | string s => some (s.toList.map fun c => string (String.singleton c))
  | object members => some (members.map fun (k, _) => string k)
  | _ => none

end Json

end Avroc
