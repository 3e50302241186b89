import Avroc.Error.Basic
import Avroc.Idl.DocComment
import Avroc.Idl.Token
import Avroc.Name
import Avroc.Text.Digit

/-!
# Lexemes

A text is cut into lexemes: white space, comments, and the words that become tokens.  At each
place the lexeme is that of the first class that has one there.
-/

namespace Avroc.Idl

/-- The classes of lexemes. -/
inductive LexemeKind
  | blank
  | doc
  | comment
  | prop
  | string
  | number
  | escaped
  | ident
  | punct
deriving DecidableEq, Repr, Inhabited

/-- A lexeme. -/
structure Lexeme where
  kind : LexemeKind
  text : List Char
deriving DecidableEq, Repr, Inhabited

/-! ### Lengths

The number of characters that a class takes at the start of a text, zero if none. -/

def blankLength (cs : List Char) : Nat :=
  (cs.takeWhile Text.isBlank).length

/-- The characters up to the end of a block comment. -/
def blockLength : List Char → Option Nat
  | [] => none
  | '*' :: '/' :: _ => some 2
  | _ :: rest => (blockLength rest).map (· + 1)

/-- A documentation comment.  An empty block comment is none. -/
def docLength : List Char → Nat
  | '/' :: '*' :: '*' :: rest =>
    if rest.head? = some '/' then 0
    else match blockLength rest with
      | some n => n + 3
      | none => 0
  | _ => 0

/-- A comment to the end of the line, or a block comment. -/
def commentLength : List Char → Nat
  | '/' :: '/' :: rest => (rest.takeWhile (· ≠ '\n')).length + 2
  | '/' :: '*' :: rest =>
    match blockLength rest with
    | some n => n + 2
    | none => 0
  | _ => 0

/-- Whether the character may continue the name of a property. -/
def isPropPart (c : Char) : Bool :=
  isNamePart c || c = '.' || c = '-'

/-- The name of a property, after an at sign. -/
def propLength : List Char → Nat
  | '@' :: c :: rest => if isNameStart c then (rest.takeWhile isPropPart).length + 2 else 0
  | _ => 0

/-- The characters up to the closing quote of a string; a backslash takes the next character with
it, and a line feed is only allowed there. -/
def quotedLength : List Char → Option Nat
  | [] => none
  | '\x22' :: _ => some 1
  | ['\\'] => none
  | '\\' :: _ :: rest => (quotedLength rest).map (· + 2)
  | c :: rest => if c = '\n' then none else (quotedLength rest).map (· + 1)

def stringLength : List Char → Nat
  | '\x22' :: rest =>
    match quotedLength rest with
    | some n => n + 1
    | none => 0
  | _ => 0

def digitsLength (cs : List Char) : Nat :=
  (cs.takeWhile Text.isDecimal).length

/-- An exponent: its mark, an optional sign and at least one digit. -/
def exponentLength : List Char → Nat
  | c :: rest =>
    if c = 'e' || c = 'E' then
      let sign := match rest with
        | '+' :: _ => 1
        | '-' :: _ => 1
        | _ => 0
      let digits := digitsLength (rest.drop sign)
      if digits = 0 then 0 else digits + sign + 1
    else 0
  | [] => 0

/-- Digits with an optional point among, after or before them. -/
def decimalLength (cs : List Char) : Nat :=
  let whole := digitsLength cs
  match cs.drop whole with
  | '.' :: rest =>
    let fraction := digitsLength rest
    if whole = 0 && fraction = 0 then 0 else whole + fraction + 1
  | _ => whole

/-- A number: an optional minus sign, a decimal and an optional exponent. -/
def numberLength (cs : List Char) : Nat :=
  let sign := match cs with
    | '-' :: _ => 1
    | _ => 0
  let size := decimalLength (cs.drop sign)
  if size = 0 then 0 else sign + size + exponentLength (cs.drop (sign + size))

/-- An identifier between backticks. -/
def escapedLength : List Char → Nat
  | '\x60' :: c :: rest =>
    let part := rest.takeWhile isNamePart
    if isNameStart c && (rest.drop part.length).head? = some '\x60' then part.length + 3 else 0
  | _ => 0

/-- What continues an identifier: the characters of names, and dots that a name follows. -/
def identTail : List Char → Nat
  | [] => 0
  | '.' :: c :: rest => if isNameStart c then identTail rest + 2 else 0
  | c :: rest => if isNamePart c then identTail rest + 1 else 0

/-- An identifier: names joined by dots. -/
def identLength : List Char → Nat
  | c :: rest => if isNameStart c then identTail rest + 1 else 0
  | [] => 0

/-- The marks of the language. -/
def punctMarks : List Char :=
  ['\x7b', '\x7d', '(', ')', '[', ']', '<', '>', ';', ',', '=', '?', ':']

def punctLength : List Char → Nat
  | c :: _ => if punctMarks.contains c then 1 else 0
  | [] => 0

/-! ### Lexemes -/

/-- The classes in the order in which they are tried, with their lengths. -/
def classes : List (LexemeKind × (List Char → Nat)) :=
  [(.blank, blankLength), (.doc, docLength), (.comment, commentLength), (.prop, propLength),
   (.string, stringLength), (.number, numberLength), (.escaped, escapedLength),
   (.ident, identLength), (.punct, punctLength)]

/-- The class of the lexeme at the start of a text, and its number of characters less one. -/
def lexeme? (cs : List Char) : Option (LexemeKind × Nat) :=
  classes.findSome? fun (kind, length) =>
    match length cs with
    | 0 => none
    | n + 1 => some (kind, n)

/-- The lexemes of a text, and what is left from where none starts; the next `taken` characters
belong to a lexeme that has been cut off. -/
def lexemesFrom (taken : Nat) : List Char → List Lexeme × List Char
  | [] => ([], [])
  | c :: rest =>
    match taken with
    | left + 1 => lexemesFrom left rest
    | 0 =>
      match lexeme? (c :: rest) with
      | none => ([], c :: rest)
      | some (kind, more) =>
        let (found, left) := lexemesFrom more rest
        (⟨kind, c :: rest.take more⟩ :: found, left)

/-- The lexemes of a text, and what is left from where none starts. -/
def lexemes (cs : List Char) : List Lexeme × List Char :=
  lexemesFrom 0 cs

/-! ### Tokens -/

/-- The kind of token that a lexeme becomes. -/
def LexemeKind.token? : LexemeKind → Option TokenKind
  | blank | doc | comment => none
  | prop => some .prop
  | string => some .string
  | number => some .number
  | escaped => some .ident
  | ident => some .ident
  | punct => some .punct

/-- The value of a token: the lexeme without its backticks. -/
def Lexeme.value (l : Lexeme) : String :=
  String.ofList (if l.kind = .escaped then (l.text.drop 1).dropLast else l.text)

/-- The tokens of lexemes, from a line on and with the documentation read since the last token. -/
def tokensOf (line : Nat) (doc : Option String) : List Lexeme → List Token
  | [] => [.eof line]
  | l :: rest =>
    let next := line + Text.countNewlines l.text
    match l.kind.token? with
    | some kind =>
      ⟨kind, l.value, line, doc, l.kind = .escaped⟩ :: tokensOf next none rest
    | none => tokensOf next (if l.kind = .doc then some (cleanDoc l.text) else doc) rest

/-- The tokens of a text. -/
def tokenize (path : Option Path) (text : String) : Except Error (List Token) :=
  match lexemes text.toList with
  | (found, []) => .ok (tokensOf 1 none found)
  | (found, c :: _) =>
    let line := found.foldl (fun line l => line + Text.countNewlines l.text) 1
    .error (.parse (.unexpectedCharacter c) path (some line))

end Avroc.Idl
