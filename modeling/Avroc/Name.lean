import Avroc.Json.Literal
import Avroc.Text.Split

/-!
# Names

A named type has a simple name and a namespace, a dotted sequence of names; its full name is the
two joined by a dot.  A name that holds a dot carries its own namespace.
-/

namespace Avroc

/-- The namespace of a text; the empty text names none. -/
def spaceOf (s : String) : Option String :=
  if s = "" then none else some s

/-- The simple name and the namespace of a name written inside a namespace. -/
def splitName (name : String) (space : Option String) : String × Option String :=
  match Text.splitAtLast? '.' name.toList with
  | some (before, after) => (String.ofList after, spaceOf (String.ofList before))
  | none => (name, space.bind spaceOf)

/-- The full name of a simple name in a namespace. -/
def joinName (name : String) (space : Option String) : String :=
  match space.bind spaceOf with
  | some s => s ++ "." ++ name
  | none => name

/-- The simple name at the end of a full name. -/
def lastName (fullName : String) : String :=
  (splitName fullName none).1

def isNameStart (c : Char) : Bool :=
  ('A' ≤ c && c ≤ 'Z') || ('a' ≤ c && c ≤ 'z') || c = '_'

def isNamePart (c : Char) : Bool :=
  isNameStart c || ('0' ≤ c && c ≤ '9')

def isPlainName : List Char → Bool
  | [] => false
  | c :: rest => isNameStart c && rest.all isNamePart

/-- The text without one line feed at its end. -/
def dropFinalNewline (cs : List Char) : List Char :=
  if cs.getLast? = some '\n' then cs.dropLast else cs

/-- Whether a name is legal.  A line feed at its end is overlooked. -/
def isLegalName (name : String) : Bool :=
  isPlainName (dropFinalNewline name.toList)

/-- The namespace around a definition.  A protocol document may give as its namespace a value
that is no text: names are then joined to the text that shows the value. -/
inductive Space
  | root
  | named (name : String)
  | odd (value : Json)
deriving Inhabited

namespace Space

/-- The namespace that an attribute gives. -/
def ofJson : Json → Space
  | .string s => if s = "" then root else named s
  | v => if v.isTruthy then odd v else root

/-- The namespace of a definition as the one around its parts. -/
def ofName : Option String → Space
  | some s => if s = "" then root else named s
  | none => root

/-- The text that names are joined to. -/
def text? : Space → Option String
  | root => none
  | named s => some s
  | odd v => some v.shown

end Space

end Avroc
