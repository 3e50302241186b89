import Avroc.Text.Blank
import Avroc.Text.Lines
import Avroc.Text.Split

/-!
# Documentation strings

* `docString` : the lines of a triple-quoted string that holds a text.
-/

namespace Avroc

def tripleQuote : String := "\x22\x22\x22"

/-- A text with backslashes and triple quotes escaped, and without the white space around it. -/
def docBody (text : String) : List Char :=
  let doubled := Text.replaceAll ['\\'] ['\\', '\\'] text.toList
  let escaped := Text.replaceAll ['\x22', '\x22', '\x22']
    ['\\', '\x22', '\\', '\x22', '\\', '\x22'] doubled
  Text.trim escaped

/-- The lines of a triple-quoted string that holds a text, each after an indent. -/
def docString (text indent : String) : List String :=
  match (Text.splitLines (docBody text)).map String.ofList with
  | [] => [indent ++ tripleQuote ++ tripleQuote]
  | [line] => [indent ++ tripleQuote ++ line ++ tripleQuote]
  | line :: rest =>
    [indent ++ tripleQuote ++ line] ++
      (rest.map fun line => if line = "" then "" else indent ++ line) ++ [indent ++ tripleQuote]

end Avroc
