import Avroc.Error.Basic
import Avroc.Log
import Avroc.Registry
import Avroc.Schema.Default
import Avroc.Schema.Document

/-!
# Scopes

What reading a definition works on: the catalog of all definitions, the registry that names are
looked up in, and the log.  What was defined before a failure stays defined.

* `checkName`, `checkSpace`, `checkDefault` : the checks that a registry may ask for.
* `makeField`, `makeUnion`, `checkSymbols` : the rules that hold in either form of a definition.
-/

namespace Avroc

/-- The state of reading. -/
structure Scope where
  catalog : Catalog
  registry : Registry
  log : List LogRecord
deriving Inhabited

/-- A step of reading. -/
abbrev Reading := ExceptT Error (StateM Scope)

namespace Scope

/-- The state at the start, over a registry without types. -/
def initial (checksNames checksDefaults : Bool) : Scope :=
  ⟨.empty, ⟨[], checksNames, checksDefaults⟩, []⟩

def report (s : Scope) (record : LogRecord) : Scope :=
  { s with log := s.log ++ [record] }

end Scope

/-- Refuses a definition, at no particular place. -/
def refuse {α : Type} (fault : Fault) : Reading α :=
  throw (.parse fault none none)

/-- The result of a step that may meet a value of the wrong kind. -/
def orMisuse {α : Type} : Except Misuse α → Reading α
  | .ok value => pure value
  | .error cause => throw (.misuse cause)

/-- The document of a type in the current state. -/
def documentNow (s : Schema) : Reading Json := do
  orMisuse (s.document (← get).catalog)

/-- Enters a definition, unless its full name is taken. -/
def define (d : Definition) : Reading TypeId := do
  let scope ← get
  let (id, catalog) := scope.catalog.add d
  match scope.registry.define d.fullName id with
  | .error fault => refuse fault
  | .ok registry =>
    set ({ scope with catalog, registry }.report
      ⟨.registry, .debug, "Defined type " ++ d.fullName⟩)
    return id

/-- Adds a field to a record; a record has no two fields of one name. -/
def addField (id : TypeId) (field : Field) : Reading Unit := do
  let scope ← get
  let d := scope.catalog.definition id
  if d.body.fields.any (·.name = field.name) then
    refuse (.duplicateField field.name d.fullName)
  else set { scope with catalog := scope.catalog.modify id (·.addField field) }

def addFields (id : TypeId) : List Field → Reading Unit
  | [] => pure ()
  | field :: rest => do
    addField id field
    addFields id rest

/-! ### Checks -/

def checkName (name : String) : Reading Unit := do
  if (← get).registry.checksNames && !isLegalName name then refuse (.illegalName name)

def checkNames : List String → Reading Unit
  | [] => pure ()
  | name :: rest => do
    checkName name
    checkNames rest

def checkSpace : Option String → Reading Unit
  | some space => checkNames (Text.splitString '.' space)
  | none => pure ()

/-- Refuses a field whose default does not belong to its type. -/
def checkDefault (field : Field) : Reading Unit := do
  match field.default with
  | none => pure ()
  | some value =>
    let scope ← get
    if scope.registry.checksDefaults && !value.fits scope.catalog field.type then
      refuse (.badDefault field.name value (← documentNow field.type))

/-- A field whose default is checked. -/
def makeField (field : Field) : Reading Field := do
  checkDefault field
  return field

/-- Refuses branches that no union may have, given the keys of the branches before. -/
def checkBranches (keys : List String) : List Schema → Reading Unit
  | [] => pure ()
  | branch :: rest => do
    if branch.isUnion then refuse .nestedUnion
    else
      let key := branch.branchKey (← get).catalog
      if keys.contains key then refuse (.duplicateBranch key)
      else checkBranches (keys ++ [key]) rest

def makeUnion (branches : List Schema) : Reading Schema := do
  checkBranches [] branches
  return .union branches

/-- The symbols of an enum, which are names and pairwise different, given those before. -/
def checkSymbols (seen : List String) : List Json → Reading (List String)
  | [] => pure seen
  | .string symbol :: rest => do
    checkName symbol
    if seen.contains symbol then refuse (.duplicateSymbol symbol)
    else checkSymbols (seen ++ [symbol]) rest
  | v :: _ => refuse (.symbolNotText v)

/-- The default of an enum, which is one of its symbols. -/
def checkEnumDefault (symbols : List String) : Json → Reading (Option String)
  | .null => pure none
  | .string s =>
    if symbols.contains s then pure (some s) else refuse (.defaultNotSymbol (.string s) symbols)
  | v => refuse (.defaultNotSymbol v symbols)

def checkErrorType (s : Schema) : Reading TypeId := do
  match s with
  | .named id =>
    match ((← get).catalog.definition id).body with
    | .record true _ => pure id
    | _ => refuse (.notAnError (← documentNow s))
  | _ => refuse (.notAnError (← documentNow s))

end Avroc
