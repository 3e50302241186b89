import Avroc.Text.Split

/-!
# Paths

The paths of files: an optional leading slash, or exactly two of them, and the parts between
slashes.  Empty parts and single dots say nothing and are dropped; double dots stay.
-/

namespace Avroc

/-- A path. -/
structure Path where
  /-- The leading slashes: none, one or two. -/
  root : String
  parts : List String
deriving DecidableEq, Repr, Inhabited

namespace Path

/-- The leading slashes that count: exactly two, or else one of however many. -/
def rootOf : List Char → String
  | '/' :: '/' :: '/' :: _ => "/"
  | '/' :: '/' :: _ => "//"
  | '/' :: _ => "/"
  | _ => ""

/-- The path that a text spells. -/
def ofString (s : String) : Path :=
  ⟨rootOf s.toList, (Text.splitString '/' s).filter fun part => part != "" && part != "."⟩

/-- The text of a path; the path without parts is a single dot. -/
def text (p : Path) : String :=
  if p.root = "" && p.parts.isEmpty then "."
  else p.root ++ "/".intercalate p.parts

def isAbsolute (p : Path) : Bool :=
  p.root != ""

/-- The second path seen from the first. -/
def join (p q : Path) : Path :=
  if q.isAbsolute then q else ⟨p.root, p.parts ++ q.parts⟩

def parent (p : Path) : Path :=
  ⟨p.root, p.parts.dropLast⟩

def name (p : Path) : String :=
  p.parts.getLast?.getD ""

/-- A file name cut before its extension: a dot that is neither its first nor its last
character, and what follows. -/
def splitSuffix (name : List Char) : List Char × List Char :=
  match Text.splitAtLast? '.' name with
  | some (stem, extension) =>
    if stem.isEmpty || extension.isEmpty then (name, []) else (stem, '.' :: extension)
  | none => (name, [])

/-- The last part without its extension. -/
def stem (p : Path) : String :=
  String.ofList (splitSuffix p.name.toList).1

/-- The extension of the last part, with its dot. -/
def suffix (p : Path) : String :=
  String.ofList (splitSuffix p.name.toList).2

/-- Goes through the parts from a directory, a double dot leading to its parent. -/
def climb (parts : List String) (directory : List String) : List String :=
  parts.foldl (fun dir part => if part = ".." then dir.dropLast else dir ++ [part]) directory

/-- The absolute path, seen from the directory with parts `cwd`, without double dots. -/
def resolve (cwd : List String) (p : Path) : Path :=
  ⟨"/", climb p.parts (if p.isAbsolute then [] else cwd)⟩

/-- The parts of `p` below `base`, if it lies there. -/
def relativeTo? (base p : Path) : Option Path :=
  if p.root = base.root && base.parts.isPrefixOf p.parts then
    some ⟨"", p.parts.drop base.parts.length⟩
  else none

/-- The root, if there is one, and the parts. -/
def key (p : Path) : List String :=
  if p.isAbsolute then p.root :: p.parts else p.parts

/-- The order of paths: part by part. -/
def le (p q : Path) : Bool :=
  !q.key.lex p.key

end Path

end Avroc
