import Avroc.Text.Blank
import Avroc.Text.Lines

/-!
# Documentation comments

* `cleanDoc` : the text of a documentation comment, without its delimiters, without the white
  space around its lines and without the star that may lead a line.
-/

namespace Avroc.Idl

/-- The part of a comment between its delimiters. -/
def commentBody (raw : List Char) : List Char :=
  (raw.take (raw.length - 2)).drop 3

/-- A line without the star, and one space after it, that may lead it. -/
def dropStar : List Char → List Char
  | '*' :: ' ' :: rest => rest
  | '*' :: rest => rest
  | line => line

/-- A line of a comment. -/
def cleanLine (line : List Char) : List Char :=
  Text.trimEnd (dropStar (Text.trim line))

/-- The text of a documentation comment. -/
def cleanDoc (raw : List Char) : String :=
  let lines := (Text.splitLines (commentBody raw)).map cleanLine
  String.ofList (Text.trim (List.intercalate ['\n'] lines))

end Avroc.Idl
