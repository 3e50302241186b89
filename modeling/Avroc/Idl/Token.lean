/-!
# Tokens

The words of the definition language.
-/

namespace Avroc.Idl

/-- The kinds of tokens. -/
inductive TokenKind
  | ident
  | prop
  | string
  | number
  | punct
  | eof
deriving DecidableEq, Repr, Inhabited

def TokenKind.name : TokenKind → String
  | ident => "ident"
  | prop => "prop"
  | string => "string"
  | number => "number"
  | punct => "punct"
  | eof => "eof"

/-- A token.  An identifier in backticks is escaped: its value lacks them, and it is never a
keyword. -/
structure Token where
  kind : TokenKind
  value : String
  line : Nat
  doc : Option String
  escaped : Bool
deriving DecidableEq, Repr, Inhabited

namespace Token

/-- The token that ends a text. -/
def eof (line : Nat) : Token :=
  ⟨.eof, "", line, none, false⟩

/-- What a message says was found: the word, or nothing at the end of the text. -/
def found (t : Token) : Option String :=
  if t.kind = .eof then none else some t.value

def isPunct (t : Token) (mark : String) : Bool :=
  t.kind = .punct && t.value = mark

def isKeyword (t : Token) (word : String) : Bool :=
  t.kind = .ident && !t.escaped && t.value = word

end Token

end Avroc.Idl
