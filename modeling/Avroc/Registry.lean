import Avroc.Error.Fault
import Avroc.Schema.Basic

/-!
# Registries

The named types that a name can refer to, in the order in which they were added, together with
the two choices of how strictly definitions are read.
-/

namespace Avroc

/-- A registry of named types. -/
structure Registry where
  entries : List (String × TypeId)
  /-- Whether names are checked. -/
  checksNames : Bool
  /-- Whether default values are checked. -/
  checksDefaults : Bool
deriving Inhabited

namespace Registry

/-- The registry without types that checks everything. -/
def empty : Registry := ⟨[], true, true⟩

def names (r : Registry) : List String :=
  r.entries.map (·.1)

def types (r : Registry) : List TypeId :=
  r.entries.map (·.2)

/-- The type of a full name. -/
def get? (r : Registry) (fullName : String) : Option TypeId :=
  r.entries.lookup fullName

/-- Whether a full name has a type. -/
def contains (r : Registry) (fullName : String) : Bool :=
  (r.get? fullName).isSome

/-- The type of a name written inside a namespace.  A name with a dot is a full name; any other
is looked for in the namespace first and then outside all namespaces. -/
def resolve (r : Registry) (name : String) (space : Option String) : Option TypeId :=
  if name.toList.contains '.' then r.get? name
  else match space.bind spaceOf with
    | some s => (r.get? (s ++ "." ++ name)).or (r.get? name)
    | none => r.get? name

/-- The entries with a type set: a full name that is there keeps its place, a new one goes to the
end. -/
def insertEntry (fullName : String) (id : TypeId) :
    List (String × TypeId) → List (String × TypeId)
  | [] => [(fullName, id)]
  | (k, v) :: rest =>
    if k = fullName then (k, id) :: rest else (k, v) :: insertEntry fullName id rest

/-- Adds a type, or replaces the one of the same full name. -/
def add (r : Registry) (fullName : String) (id : TypeId) : Registry :=
  { r with entries := insertEntry fullName id r.entries }

/-- Adds a type whose full name is new. -/
def define (r : Registry) (fullName : String) (id : TypeId) : Except Fault Registry :=
  if r.contains fullName then .error (.redefined fullName) else .ok (r.add fullName id)

def addAll (r : Registry) (c : Catalog) (ids : List TypeId) : Registry :=
  ids.foldl (fun r id => r.add (c.fullName id) id) r

/-- The types that are not in an earlier state of the registry, in order. -/
def newTypes (r : Registry) (before : List String) : List TypeId :=
  (r.entries.filter fun (name, _) => !before.contains name).map (·.2)

end Registry

end Avroc
