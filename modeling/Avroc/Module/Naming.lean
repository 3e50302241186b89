import Avroc.File.Path

/-!
# Names in generated modules

* `keywords` : the words that Python reserves.
* `safeName` : a name that is no keyword.
* `modulePath` : where the module of a full name lies.
-/

namespace Avroc

/-- The reserved words of Python. -/
def keywords : List String :=
  ["False", "None", "True", "and", "as", "assert", "async", "await", "break", "class", "continue",
   "def", "del", "elif", "else", "except", "finally", "for", "from", "global", "if", "import",
   "in", "is", "lambda", "nonlocal", "not", "or", "pass", "raise", "return", "try", "while",
   "with", "yield"]

/-- The name, with an underscore after it if it is a keyword. -/
def safeName (name : String) : String :=
  if keywords.contains name then name ++ "_" else name

/-- The file of the module of a full name: its namespace gives the directories. -/
def modulePath (fullName : String) : Path :=
  let parts := Text.splitString '.' fullName
  let last := parts.getLast?.getD "" ++ ".py"
  (parts.dropLast ++ [last]).foldl (fun path part => path.join (.ofString part)) ⟨"", []⟩

end Avroc
