import Avroc.Module.Naming
import Avroc.Schema.Basic

/-!
# Imports of a module

What a generated module imports.  Libraries get aliases that differ from every name the module's
class binds, and other generated types get local names.
-/

namespace Avroc

/-- The libraries that generated modules use, in the order of their names. -/
inductive Library
  | dataclasses
  | datetime
  | decimal
  | enum
  | json
  | typing
deriving DecidableEq, Repr, Inhabited

namespace Library

def name : Library → String
  | dataclasses => "dataclasses"
  | datetime => "datetime"
  | decimal => "decimal"
  | enum => "enum"
  | json => "json"
  | typing => "typing"

def all : List Library :=
  [dataclasses, datetime, decimal, enum, json, typing]

end Library

/-- The imports of a module. -/
structure ImportTable where
  /-- The full name of the type that the module defines, if it defines one. -/
  owner : Option String
  /-- The names that the module's class binds. -/
  reserved : List String
  /-- The aliases of the libraries in use. -/
  aliases : List (Library × String)
  /-- The libraries that are needed when the module runs. -/
  needed : List Library
  /-- The local names of types of other modules, by their full names. -/
  references : List (String × String)
  /-- The full names that local names stand for. -/
  locals : List (String × String)
deriving Inhabited

namespace ImportTable

/-- The table of a module that defines a type. -/
def ofType (d : Definition) (reserved : List String) : ImportTable :=
  ⟨some d.fullName, reserved, [], [], [], [(d.name, d.fullName)]⟩

/-- The table of a module that defines no type. -/
def ofNone (reserved : List String) : ImportTable :=
  ⟨none, reserved, [], [], [], []⟩

/-- The alias of a library. -/
def alias? (t : ImportTable) (library : Library) : Option String :=
  t.aliases.lookup library

/-- Whether a library is needed when the module runs. -/
def needs (t : ImportTable) (library : Library) : Bool :=
  t.needed.contains library

end ImportTable

/-- A word that is not taken: the given one with as many underscores after it as it takes. -/
def freshen (taken : List String) (word : String) : String :=
  if _h : word ∈ taken then freshen (taken.erase word) (word ++ "_") else word
termination_by taken.length
decreasing_by
  have := List.length_erase_of_mem _h
  have := List.length_pos_of_mem _h
  omega

namespace ImportTable

/-- The alias that a library would get. -/
def freshAlias (t : ImportTable) (library : Library) : String :=
  freshen (t.reserved ++ t.locals.map (·.1)) ("_" ++ library.name)

/-- The alias of a library, and the table that knows it.  A library may be needed by type hints
alone. -/
def withLibrary (t : ImportTable) (library : Library) (needed : Bool) : String × ImportTable :=
  let t := if needed && !t.needs library then { t with needed := t.needed ++ [library] } else t
  match t.alias? library with
  | some name => (name, t)
  | none =>
    let name := t.freshAlias library
    (name, { t with aliases := t.aliases ++ [(library, name)] })

/-- The local name that a type would get: its simple name, or its full name with underscores if
another type has taken that. -/
def freshLocal (t : ImportTable) (d : Definition) : String :=
  if (t.locals.lookup d.name).getD d.fullName = d.fullName then d.name
  else Text.replaceWord "." "_" d.fullName

def setLocal (name fullName : String) : List (String × String) → List (String × String)
  | [] => [(name, fullName)]
  | (k, v) :: rest =>
    if k = name then (k, fullName) :: rest else (k, v) :: setLocal name fullName rest

/-- The local name of a type, and the table that knows it. -/
def withReference (t : ImportTable) (d : Definition) : String × ImportTable :=
  if t.owner = some d.fullName then (d.name, t)
  else match t.references.lookup d.fullName with
    | some name => (name, t)
    | none =>
      let name := t.freshLocal d
      (name, { t with
        references := t.references ++ [(d.fullName, name)]
        locals := setLocal name d.fullName t.locals })

/-! ### Lines -/

def libraryLine (t : ImportTable) (library : Library) : List String :=
  match t.alias? library with
  | some name => ["import " ++ library.name ++ " as " ++ name]
  | none => []

/-- The lines for the libraries that are needed when the module runs. -/
def neededLines (t : ImportTable) : List String :=
  (Library.all.filter t.needs).flatMap t.libraryLine

/-- The line that imports a type of another module. -/
def referenceLine (fullName name : String) : String :=
  let last := lastName fullName
  "    from " ++ fullName ++ " import " ++ last ++ (if name = last then "" else " as " ++ name)

/-- The lines for what only type hints need. -/
def checkingLines (t : ImportTable) : List String :=
  let libraries :=
    ((Library.all.filter (!t.needs ·)).flatMap t.libraryLine).map ("    " ++ ·)
  let references := (t.references.mergeSort fun a b => a.1 ≤ b.1).map
    fun (fullName, name) => referenceLine fullName name
  libraries ++ (if libraries.isEmpty || references.isEmpty then [] else [""]) ++ references

/-- The lines that import everything, and the table after them: what only type hints need stands
under a test that itself needs a library. -/
def importLines (t : ImportTable) : List String × ImportTable :=
  match t.checkingLines with
  | [] => (t.neededLines, t)
  | lines =>
    let (typing, t) := t.withLibrary .typing true
    (t.neededLines ++ ["", "if " ++ typing ++ ".TYPE_CHECKING:"] ++ lines, t)

end ImportTable

end Avroc
