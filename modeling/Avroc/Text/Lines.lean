/-!
# Lines

A text is cut into lines at line feeds, carriage returns (a carriage return and the line feed
after it are one break), vertical tabs, form feeds, the separators U+001C to U+001E, next line
U+0085, and the line and paragraph separators.

* `countNewlines` : the number of line feeds.
-/

namespace Avroc.Text

def isLineBreak (c : Char) : Bool :=
  let n := c.toNat
  (0x0A ≤ n && n ≤ 0x0D) || (0x1C ≤ n && n ≤ 0x1E) || n == 0x85 || n == 0x2028 || n == 0x2029

/-- The lines of a text, without their breaks. -/
def splitLines : List Char → List (List Char)
  | [] => []
  | '\r' :: '\n' :: rest => [] :: splitLines rest
  | c :: rest =>
    if isLineBreak c then [] :: splitLines rest
    else match splitLines rest with
      | [] => [[c]]
      | line :: lines => (c :: line) :: lines

def linesOf (s : String) : List String :=
  (splitLines s.toList).map String.ofList

/-- The text with one spelling of the end of a line. -/
def unifyNewlines : List Char → List Char
  | [] => []
  | '\r' :: '\n' :: rest => '\n' :: unifyNewlines rest
  | c :: rest => (if c = '\r' then '\n' else c) :: unifyNewlines rest

def countNewlines (cs : List Char) : Nat :=
  cs.count '\n'

end Avroc.Text
