import Avroc.Error.Basic

/-!
# Cache entries

The record of a successful compilation of a directory: the stamps of its inputs, the modules found
afterwards, and the modules that it wrote.  The record is a JSON file, and what is read back from
one is kept as it stands.
-/

namespace Avroc

/-- How files are stamped. -/
inductive CacheStrategy
  | lastModified
  | hash
deriving DecidableEq, Repr, Inhabited

namespace CacheStrategy

def name : CacheStrategy → String
  | lastModified => "last_modified"
  | hash => "hash"

def ofName? : String → Option CacheStrategy
  | "last_modified" => some lastModified
  | "hash" => some hash
  | _ => none

/-- The strategy that a value names. -/
def ofJson (v : Json) : Except Error CacheStrategy :=
  match v with
  | .string s =>
    match ofName? s with
    | some strategy => .ok strategy
    | none => .error (.choice (.strategy v))
  | v => .error (.choice (.strategy v))

end CacheStrategy

/-- The record of a compilation. -/
structure CacheEntry where
  sourceDir : Json
  strategy : CacheStrategy
  inputs : List (Json × Json)
  outputs : List Json
  written : List Json
deriving Inhabited

/-! ### Reading -/

/-- Whether two keys are the same; a number is the same however it is written. -/
def sameKey (a b : Json) : Bool :=
  match a.numberValue?, b.numberValue? with
  | some m, some n => m = n
  | _, _ => a == b

/-- The pairs with one set: a key that is there keeps its place. -/
def setPair (key value : Json) : List (Json × Json) → List (Json × Json)
  | [] => [(key, value)]
  | (k, v) :: rest =>
    if sameKey k key then (k, value) :: rest else (k, v) :: setPair key value rest

/-- The parts of a value that can stand for a pair. -/
def pairParts? : Json → Option (List Json) :=
  Json.elements?

/-- The pairs of a list whose elements have two parts each, from an index on. -/
def pairsOf (index : Nat) (pairs : List (Json × Json)) :
    List Json → Except Misuse (List (Json × Json))
  | [] => .ok pairs
  | v :: rest =>
    match pairParts? v with
    | none => .error (.notAPair index)
    | some [.array items, _] => .error (.unhashable (Json.array items).kind)
    | some [.object members, _] => .error (.unhashable (Json.object members).kind)
    | some [key, value] => pairsOf (index + 1) (setPair key value pairs) rest
    | some parts => .error (.pairLength index parts.length)

/-- The pairs that a value holds: the members of an object, or a list of pairs. -/
def readPairs : Json → Except Misuse (List (Json × Json))
  | .object members => .ok (members.map fun (k, v) => (.string k, v))
  | v =>
    match v.elements? with
    | some items => pairsOf 0 [] items
    | none => .error (.notIterable v.kind)

/-- The elements that a value holds. -/
def readList (v : Json) : Except Misuse (List Json) :=
  match v.elements? with
  | some items => .ok items
  | none => .error (.notIterable v.kind)

def member (data : Json) (key : String) : Except Error Json :=
  match data with
  | .object members =>
    match Members.get? members key with
    | some v => .ok v
    | none => .error (.missingKey key)
  | .array _ => .error (.misuse .listIndex)
  | .string _ => .error (.misuse .textIndex)
  | v => .error (.misuse (.noSubscript v.kind))

/-- The result of a step that may meet a value of the wrong kind. -/
def orWrong {α : Type} : Except Misuse α → Except Error α
  | .ok value => .ok value
  | .error cause => .error (.misuse cause)

def CacheEntry.ofJson (data : Json) : Except Error CacheEntry := do
  let sourceDir ← member data "source_dir"
  let strategy ← CacheStrategy.ofJson (← member data "strategy")
  let rest : Members := match data with
    | .object members => members
    | _ => []
  let inputs ← orWrong (readPairs ((rest.get? "inputs").getD (.object [])))
  let outputs ← orWrong (readList ((rest.get? "outputs").getD (.array [])))
  let written ← orWrong (readList ((rest.get? "written").getD (.array [])))
  return ⟨sourceDir, strategy, inputs, outputs, written⟩

/-! ### Writing -/

def keyText : Json → String
  | .string s => s
  | v => v.render

/-- The version that records are marked with. -/
def cacheVersion : Int := 1

def CacheEntry.document (e : CacheEntry) : Json :=
  .object
    [("version", .int cacheVersion), ("source_dir", e.sourceDir),
     ("strategy", .string e.strategy.name),
     ("inputs", .object (e.inputs.map fun (k, v) => (keyText k, v))),
     ("outputs", .array e.outputs), ("written", .array e.written)]

/-- The text of the file that holds the record. -/
def CacheEntry.text (e : CacheEntry) : String :=
  e.document.sorted.renderIndented

end Avroc
