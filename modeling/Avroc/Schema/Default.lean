import Avroc.Schema.Basic

/-!
# Default values

Which JSON values may stand as the default of a field.

The check follows the value: entering an array, a map or a record enters a part of it, so it ends
on recursive types as well.
-/

namespace Avroc

/-- A question about types. -/
abbrev TypeTest := Schema → Bool

namespace Schema

/-- The type that a default has to belong to: the first branch of a union, inside out. -/
def leading : Schema → Option Schema
  | union [] => none
  | union (branch :: _) => leading branch
  | s => some s

end Schema

namespace Json

def fitsPrimitive : Json → Primitive → Bool
  | null, .null => true
  | bool _, .boolean => true
  | int _, .int => true
  | int _, .long => true
  | int _, .float => true
  | int _, .double => true
  | real _, .float => true
  | real _, .double => true
  | string _, .bytes => true
  | string _, .string => true
  | _, _ => false

/-- Whether the members of an object give every field a value of its type or leave it its
default. -/
def fieldsFit (members : List (String × TypeTest)) (fields : List Field) : Bool :=
  fields.all fun field =>
    match members.lookup field.name with
    | some fits => fits field.type
    | none => field.default.isSome

/-- Whether a value belongs to a type that is no union; the parts of the value are given as tests
on types. -/
def fitsWith (c : Catalog) (v : Json) (items : List TypeTest)
    (members : List (String × TypeTest)) : Schema → Bool
  | .primitive kind _ => v.fitsPrimitive kind
  | .array type _ =>
    match v with
    | array _ => items.all fun fits => fits type
    | _ => false
  | .map type _ =>
    match v with
    | object _ => members.all fun (_, fits) => fits type
    | _ => false
  | .union _ => false
  | .named id =>
    match (c.definition id).body, v with
    | .fixed _, string _ => true
    | .enum symbols _, string s => symbols.contains s
    | .record _ fields, object _ => fieldsFit members fields
    | _, _ => false

mutual

/-- Whether a value belongs to a type. -/
def fits (c : Catalog) : Json → TypeTest
  | array items => fun s =>
    match s.leading with
    | some type => (array items).fitsWith c (itemTests c items) [] type
    | none => false
  | object members => fun s =>
    match s.leading with
    | some type => (object members).fitsWith c [] (memberTests c members) type
    | none => false
  | v => fun s =>
    match s.leading with
    | some type => v.fitsWith c [] [] type
    | none => false
termination_by structural v => v

/-- The items as tests on types. -/
def itemTests (c : Catalog) : List Json → List TypeTest
  | [] => []
  | v :: rest => fits c v :: itemTests c rest
termination_by structural items => items

def memberTests (c : Catalog) : List (String × Json) → List (String × TypeTest)
  | [] => []
  | (k, v) :: rest => (k, fits c v) :: memberTests c rest
termination_by structural members => members

end

end Json

end Avroc
