import Avroc.Error.Basic
import Avroc.Schema.Basic

/-!
# Documents of schemas

The JSON document of a type.  The first mention of a named type in a document gives its
definition, every later mention its full name alone.

* `Schema.document` : the document of a type.

A definition is spelled out at most once in a document, so the nesting of definitions is at most
as deep as the catalog is large, and that number bounds the recursion.
-/

namespace Avroc

/-- A step in writing a document, which knows the full names defined so far and may meet a value
of the wrong kind. -/
abbrev Documenting := StateT (List String) (Except Misuse)

/-- How a named type is mentioned. -/
abbrev Mention := TypeId → Documenting Json

namespace Schema

mutual

/-- The document of a type, with named types mentioned by `mention`. -/
def documentWith (mention : Mention) : Schema → Documenting Json
  | primitive kind props =>
    pure (if props.isEmpty then .string kind.name
      else .object (Members.withMissing [("type", .string kind.name)] props))
  | array items props => do
    let document ← documentWith mention items
    return .object (Members.withMissing [("type", .string "array"), ("items", document)] props)
  | map values props => do
    let document ← documentWith mention values
    return .object (Members.withMissing [("type", .string "map"), ("values", document)] props)
  | union branches => do
    return .array (← branchDocuments mention branches)
  | named id => mention id
termination_by structural s => s

def branchDocuments (mention : Mention) : List Schema → Documenting (List Json)
  | [] => pure []
  | branch :: rest => do
    let document ← documentWith mention branch
    let documents ← branchDocuments mention rest
    return document :: documents
termination_by structural branches => branches

end

end Schema

/-- A member for a text that is there and not empty. -/
def textMember (key : String) : Option String → Members
  | some s => if s = "" then [] else [(key, .string s)]
  | none => []

/-- The member for the aliases of a field. -/
def aliasesMember (aliases : Json) : Except Misuse Members :=
  if !aliases.isTruthy then .ok []
  else match aliases.elements? with
    | some items => .ok [("aliases", .array items)]
    | none => .error (.notIterable aliases.kind)

namespace Field

/-- The member for the order of a field; the usual order is left out. -/
def orderMember (order : Json) : Members :=
  match order with
  | .string "ascending" => []
  | order => if order.isTruthy then [("order", order)] else []

def documentWith (mention : Mention) (f : Field) : Documenting Json := do
  let type ← f.type.documentWith mention
  let members : Members := [("name", .string f.name), ("type", type)]
  let default : Members := (f.default.map fun v => ("default", v)).toList
  let aliases ← aliasesMember f.aliases
  return .object (Members.withMissing
    (members ++ textMember "doc" f.doc ++ default ++ orderMember f.order ++ aliases) f.props)

def documentsWith (mention : Mention) : List Field → Documenting (List Json)
  | [] => pure []
  | f :: rest => do
    let document ← f.documentWith mention
    let documents ← documentsWith mention rest
    return document :: documents

end Field

namespace Definition

/-- The members that every kind of definition starts with. -/
def attributes (d : Definition) : Members :=
  [("type", .string d.body.typeName), ("name", .string d.name)] ++
    textMember "namespace" d.space ++ textMember "doc" d.doc ++
    (if d.aliases.isEmpty then [] else [("aliases", .array d.aliases)])

/-- The members for what a definition consists of. -/
def bodyMembers (mention : Mention) : Body → Documenting Members
  | .record _ fields => do
    return [("fields", .array (← Field.documentsWith mention fields))]
  | .enum symbols default =>
    pure ([("symbols", .array (symbols.map .string))] ++
      (default.map fun s => ("default", Json.string s)).toList)
  | .fixed size => pure [("size", .int size)]

/-- The definition spelled out; from here on its full name is defined. -/
def documentWith (mention : Mention) (d : Definition) : Documenting Json := do
  modify (· ++ [d.fullName])
  let body ← bodyMembers mention d.body
  return .object (Members.withMissing (d.attributes ++ body) d.props)

end Definition

namespace Catalog

/-- A mention of a named type: its definition if the document has none yet, else its full name.
Definitions are nested at most `depth` deep. -/
def mention (c : Catalog) (depth : Nat) (id : TypeId) : Documenting Json := do
  let d := c.definition id
  if (← get).contains d.fullName then return .string d.fullName
  else match depth with
    | 0 => return .string d.fullName
    | depth + 1 => d.documentWith (c.mention depth)

/-- A mention of a named type in a document over the catalog. -/
def mentions (c : Catalog) : Mention :=
  c.mention c.size

end Catalog

namespace Schema

def document (c : Catalog) (s : Schema) : Except Misuse Json :=
  (s.documentWith c.mentions).run' []

def text (c : Catalog) (s : Schema) : Except Misuse String :=
  (s.document c).map Json.render

end Schema

end Avroc
