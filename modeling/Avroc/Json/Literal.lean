import Avroc.Json.Value
import Avroc.Number.Shortest
import Avroc.Text.Quoted

/-!
# Literals

The form in which messages and generated modules show a value: the literal that a Python module
would hold for it.

* `Json.literal` : the literal of a value.
-/

namespace Avroc

def literalDecimals : DecimalLayout := ⟨-4, 16, "nan", "inf"⟩

namespace Json

mutual

def literal : Json → String
  | null => "None"
  | bool b => if b then "True" else "False"
  | int n => toString n
  | real x => x.text literalDecimals
  | string s => Text.quote s
  | array items => "[" ++ ", ".intercalate (itemLiterals items) ++ "]"
  | object members => "\x7b" ++ ", ".intercalate (memberLiterals members) ++ "\x7d"
termination_by structural v => v

def itemLiterals : List Json → List String
  | [] => []
  | v :: rest => literal v :: itemLiterals rest
termination_by structural items => items

def memberLiterals : List (String × Json) → List String
  | [] => []
  | (k, v) :: rest => (Text.quote k ++ ": " ++ literal v) :: memberLiterals rest
termination_by structural members => members

end

/-- The value as running text. -/
def shown : Json → String
  | string s => s
  | v => v.literal

end Json

end Avroc
