import Avroc.Text.Utf8

/-!
# File trees

A tree of directories and files, each with the time of its last change in nanoseconds.
-/

namespace Avroc

/-- What a file holds: a text, or bytes that spell no text.  A special file, such as a device, holds
nothing, but gives bytes to those who read it. -/
inductive Content
  | text (value : String)
  | bytes (value : List UInt8)
  | device (value : List UInt8)
deriving BEq, Repr, Inhabited

namespace Content

/-- The content that bytes make up. -/
def ofBytes (bs : List UInt8) : Content :=
  match Text.decodeUtf8 bs with
  | .ok s => text s
  | .error _ => bytes bs

def toBytes : Content → List UInt8
  | text s => Text.encodeUtf8 s
  | bytes bs | device bs => bs

def toText : Content → Except Text.Utf8Fault String
  | text s => .ok s
  | bytes bs | device bs => Text.decodeUtf8 bs

end Content

/-- A file or a directory. -/
inductive Node
  | file (content : Content) (time : Int)
  | directory (entries : List (String × Node)) (time : Int)
deriving Inhabited

namespace Node

def isDirectory : Node → Bool
  | directory .. => true
  | file .. => false

def time : Node → Int
  | file _ time => time
  | directory _ time => time

def withTime (time : Int) : Node → Node
  | file content _ => file content time
  | directory entries _ => directory entries time

/-- The entries of a directory; a file has none. -/
def entries : Node → List (String × Node)
  | directory entries _ => entries
  | file .. => []

/-- The node at the end of a list of names. -/
def at? (node : Node) : List String → Option Node
  | [] => some node
  | name :: rest =>
    match node.entries.lookup name with
    | some child => child.at? rest
    | none => none

def setEntry (name : String) (node : Node) : List (String × Node) → List (String × Node)
  | [] => [(name, node)]
  | (k, v) :: rest => if k = name then (k, node) :: rest else (k, v) :: setEntry name node rest

/-- The tree with a node put in place of the one at the end of a list of names, or added to its
directory.  The directory that gets a new entry changes at time `now`.  Where there is no such
directory nothing happens. -/
def set (now : Int) (new : Node) (node : Node) : List String → Node
  | [] => new
  | name :: rest =>
    match node with
    | file .. => node
    | directory entries time =>
      match entries.lookup name with
      | some child => directory (setEntry name (set now new child rest) entries) time
      | none =>
        if rest.isEmpty then directory (entries ++ [(name, new)]) now else node

/-- The tree without the node at the end of a list of names; its directory changes at time
`now`. -/
def erase (now : Int) (node : Node) : List String → Node
  | [] => node
  | name :: rest =>
    match node with
    | file .. => node
    | directory entries time =>
      match entries.lookup name with
      | none => node
      | some child =>
        if rest.isEmpty then directory (entries.filter (·.1 ≠ name)) now
        else directory (setEntry name (erase now child rest) entries) time

mutual

/-- The places of the files in a tree. -/
def filePlaces : Node → List (List String)
  | file .. => [[]]
  | directory entries _ => entryPlaces entries
termination_by structural node => node

/-- The places of the files below the entries of a directory. -/
def entryPlaces : List (String × Node) → List (List String)
  | [] => []
  | (name, node) :: rest => (filePlaces node).map (name :: ·) ++ entryPlaces rest
termination_by structural entries => entries

end

end Node

end Avroc
