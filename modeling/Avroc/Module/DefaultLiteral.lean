import Avroc.Json.Literal
import Avroc.Schema.Basic

/-!
# Literals of defaults

* `defaultLiteral` : the Python literal of a default.
* `isMutable` : whether every instance needs a copy of its own.
-/

namespace Avroc

/-- Whether a default can be changed in place. -/
def isMutable : Json → Bool
  | .array _ => true
  | .object _ => true
  | _ => false

/-- Whether a text stands for bytes at a type: bytes, a fixed type, or a union that starts with
one. -/
def holdsBytes (c : Catalog) (s : Schema) : Bool :=
  let first := match s with
    | .union (branch :: _) => branch
    | s => s
  match first with
  | .primitive .bytes _ => true
  | .named id =>
    match (c.definition id).body with
    | .fixed _ => true
    | _ => false
  | _ => false

def defaultLiteral (c : Catalog) (s : Schema) (value : Json) : String :=
  match value with
  | .string text => if holdsBytes c s then Text.quoteBytes text else value.literal
  | .real x => if x.isFinite then value.literal else "float(" ++ Text.quote value.literal ++ ")"
  | _ => value.literal

end Avroc
