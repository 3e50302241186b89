import Avroc.Text.Blank
import Avroc.Text.Split
import Avroc.Yaml.Scalar

/-!
# Lines and scalars

A project file is read line by line.  Lines that are empty or hold only a comment say nothing;
of any other line the indentation counts.
-/

namespace Avroc.Yaml

/-- What is wrong with a text that is no YAML. -/
inductive Fault
  /-- A mark is not allowed where it stands, or is none at all. -/
  | lexical
  /-- The marks are in an order that no document has. -/
  | grammatical
deriving DecidableEq, Repr, Inhabited

/-- A line that says something: the number of blanks before it, and the text after them. -/
structure Line where
  indent : Nat
  text : List Char
deriving DecidableEq, Repr, Inhabited

/-- The line of a text, if it says something. -/
def Line.ofText? (cs : List Char) : Option Line :=
  let text := cs.dropWhile (· = ' ')
  match text with
  | [] => none
  | '#' :: _ => none
  | _ => some ⟨cs.length - text.length, text⟩

/-- A place in a document: the rest of a line and the lines after it. -/
structure Place where
  rest : List Char
  lines : List Line
deriving Inhabited

/-- The text after blanks; a comment counts as nothing. -/
def skipBlanks (cs : List Char) : List Char :=
  match cs.dropWhile (· = ' ') with
  | '#' :: _ => []
  | rest => rest

/-- The next place where something stands. -/
def skipGap (cs : List Char) : List Line → Place
  | [] => ⟨skipBlanks cs, []⟩
  | line :: lines =>
    match skipBlanks cs with
    | [] => skipGap line.text lines
    | rest => ⟨rest, line :: lines⟩

/-- The marks of lists and mappings in brackets. -/
def isBracketMark (c : Char) : Bool :=
  c = ',' || c = '[' || c = ']' || c = '\x7b' || c = '\x7d'

/-- Whether nothing, a blank or a tab comes next; between brackets also one of their marks. -/
def endsWord (inBrackets : Bool) : List Char → Bool
  | [] => true
  | c :: _ => c = ' ' || c = '\t' || (inBrackets && isBracketMark c)

/-- What follows a mark between documents on its line, if the line starts with one. -/
def Line.afterMark? (mark : String) (line : Line) : Option (List Char) :=
  let rest := line.text.drop mark.length
  if line.indent = 0 && mark.toList.isPrefixOf line.text && endsWord false rest then
    some (skipBlanks rest)
  else none

/-- The lines of a text that say something, up to the mark that ends a document. -/
def linesOf (text : String) : List Line :=
  ((Text.splitAtEach '\n' text.toList).filterMap Line.ofText?).takeWhile
    fun line => (line.afterMark? "...").isNone

/-- The marks that no plain scalar starts with. -/
def isMark (c : Char) : Bool :=
  isBracketMark c || c = '\t' || c = ' ' || c = '#' || c = '&' || c = '*' || c = '!' || c = '|' ||
    c = '>' || c = '\x27' || c = '\x22' || c = '%' || c = '@' || c = '\x60'

/-- Whether a plain scalar starts here. -/
def opensPlain (inBrackets : Bool) : List Char → Bool
  | [] => false
  | c :: rest =>
    if c = '-' then !endsWord false rest
    else if c = '?' || c = ':' then !inBrackets && !endsWord false rest
    else !isMark c

/-- The characters of a plain scalar and what follows them on the line: a colon that ends a key, a
comment, or between brackets one of their marks.  Blanks before that still belong to the
characters. -/
def splitPlain (inBrackets afterBlank : Bool) : List Char → List Char × List Char
  | [] => ([], [])
  | c :: rest =>
    if (c = ':' && endsWord inBrackets rest) || (c = '#' && afterBlank) ||
        (inBrackets && (isBracketMark c || c = '?')) then ([], c :: rest)
    else
      let (more, after) := splitPlain inBrackets (c = ' ') rest
      (c :: more, after)

/-- The text without the blanks at its end. -/
def dropBlanksEnd (cs : List Char) : List Char :=
  (cs.reverse.dropWhile fun c => c = ' ' || c = '\t').reverse

/-- The characters of a scalar in single quotes up to its end, with the text after it. -/
def singleQuoted : List Char → Option (List Char × List Char)
  | '\x27' :: '\x27' :: rest => (singleQuoted rest).map fun (cs, after) => ('\x27' :: cs, after)
  | c :: rest =>
    if c = '\x27' then some ([], rest)
    else (singleQuoted rest).map fun (cs, after) => (c :: cs, after)
  | [] => none

/-- The number that hexadecimal digits spell. -/
def hexadecimal? (cs : List Char) : Option Nat :=
  cs.foldlM (fun n c => (Json.hexValue? c).map (16 * n + ·)) 0

/-- The character of an escape with a number of hexadecimal digits. -/
def numericEscape (count : Nat) (cs : List Char) : Except Fault (Char × Nat) :=
  match hexadecimal? (cs.take count) with
  | some n => if cs.length < count then .error .lexical else .ok (Char.ofNat n, count + 1)
  | none => .error .lexical

/-- The character of an escape, and the number of characters after the backslash that it takes. -/
def escape : List Char → Except Fault (Char × Nat)
  | '0' :: _ => .ok ('\x00', 1)
  | 'a' :: _ => .ok ('\x07', 1)
  | 'b' :: _ => .ok ('\x08', 1)
  | 't' :: _ | '\t' :: _ => .ok ('\t', 1)
  | 'n' :: _ => .ok ('\n', 1)
  | 'v' :: _ => .ok ('\x0b', 1)
  | 'f' :: _ => .ok ('\x0c', 1)
  | 'r' :: _ => .ok ('\r', 1)
  | 'e' :: _ => .ok ('\x1b', 1)
  | ' ' :: _ => .ok (' ', 1)
  | '\x22' :: _ => .ok ('\x22', 1)
  | '\\' :: _ => .ok ('\\', 1)
  | '/' :: _ => .ok ('/', 1)
  | 'N' :: _ => .ok ('\u0085', 1)
  | '_' :: _ => .ok ('\u00a0', 1)
  | 'L' :: _ => .ok ('\u2028', 1)
  | 'P' :: _ => .ok ('\u2029', 1)
  | 'x' :: rest => numericEscape 2 rest
  | 'u' :: rest => numericEscape 4 rest
  | 'U' :: rest => numericEscape 8 rest
  | _ => .error .lexical

/-- The characters of a scalar in double quotes up to its end, with the text after it; the next
`taken` characters belong to an escape that has been read. -/
def doubleQuoted (taken : Nat) : List Char → Except Fault (Option (List Char × List Char))
  | [] => .ok none
  | c :: rest =>
    match taken with
    | left + 1 => doubleQuoted left rest
    | 0 =>
      if c = '\x22' then .ok (some ([], rest))
      else if c = '\\' then
        match escape rest with
        | .error e => .error e
        | .ok (value, used) =>
          (doubleQuoted used rest).map (·.map fun (cs, after) => (value :: cs, after))
      else (doubleQuoted 0 rest).map (·.map fun (cs, after) => (c :: cs, after))

/-- Reads a quoted scalar after its first quote; where it goes on, the lines are joined by a
blank. -/
def readQuoted (double : Bool) (cs : List Char) (lines : List Line) :
    Except Fault (List Char × Place) := do
  let found ← if double then doubleQuoted 0 cs else .ok (singleQuoted cs)
  match found, lines with
  | some (value, after), lines => return (value, ⟨after, lines⟩)
  | none, [] => .error .lexical
  | none, line :: lines => readQuoted double (dropBlanksEnd cs ++ ' ' :: line.text) lines

end Avroc.Yaml
