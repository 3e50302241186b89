import Avroc.Idl.Token
import Avroc.Protocol.Basic
import Avroc.Schema.Scope

/-!
# Cursors

Going through the tokens of a file.  The last token marks the end of the text, and the cursor
never moves past it.

* `expectPunct`, `expectKeyword`, `identifier` : a token of a certain kind.
-/

namespace Avroc.Idl

/-- What is shared by a file and the files it imports. -/
structure Session where
  scope : Scope
  /-- The files read so far, in the order of reading. -/
  imported : List Path
deriving Inhabited

/-- The state of going through a file. -/
structure Cursor where
  session : Session
  /-- The file, if the text is that of one. -/
  path : Option Path
  /-- The tokens ahead. -/
  tokens : List Token
  /-- The messages declared so far. -/
  messages : List Message
deriving Inhabited

/-- A step on the session. -/
abbrev Loading := ExceptT Error (StateM Session)

/-- A step on a cursor. -/
abbrev Parsing := ExceptT Error (StateM Cursor)

/-- A step of reading on the scope of a session. -/
def onScope {α : Type} (step : Reading α) : Loading α := fun session =>
  let (result, scope) := step.run session.scope
  (result, { session with scope })

/-- A step on the session of a cursor. -/
def onSession {α : Type} (step : Loading α) : Parsing α := fun cursor =>
  let (result, session) := step.run cursor.session
  (result, { cursor with session })

/-- A step of reading on the scope of a cursor. -/
def reading {α : Type} (step : Reading α) : Parsing α :=
  onSession (onScope step)

/-! ### Tokens ahead -/

/-- The token ahead. -/
def peek : Parsing Token := do
  return (← get).tokens.headD (.eof 1)

/-- The token ahead, moving on to the next one; the cursor stays at the end of the text. -/
def next : Parsing Token := do
  let cursor ← get
  match cursor.tokens with
  | [] => return .eof 1
  | token :: rest =>
    if token.kind ≠ .eof then set { cursor with tokens := rest }
    return token

def atPunct (mark : String) : Parsing Bool := do
  return (← peek).isPunct mark

def atKeyword (word : String) : Parsing Bool := do
  return (← peek).isKeyword word

/-! ### Refusals -/

/-- Refuses the text at the line of a token. -/
def failAt {α : Type} (token : Token) (fault : Fault) : Parsing α := do
  throw (.parse fault (← get).path (some token.line))

/-- Refuses the text at the line of the token ahead. -/
def failHere {α : Type} (fault : Fault) : Parsing α := do
  failAt (← peek) fault

/-- A step whose refusals are placed at the line of a token. -/
def locating {α : Type} (token : Token) (step : Reading α) : Parsing α :=
  tryCatch (reading step) fun e =>
    match e with
    | .parse fault _ _ => failAt token fault
    | e => throw e

/-! ### Expected tokens -/

def expectPunct (mark : String) : Parsing Unit := do
  let token ← peek
  if token.isPunct mark then discard next
  else failHere (.expected mark token.found)

def expectKeyword (word : String) : Parsing Unit := do
  let token ← peek
  if token.isKeyword word then discard next
  else failHere (.expected word token.found)

def identifier : Parsing String := do
  let token ← peek
  if token.kind ≠ .ident then failHere (.expectedIdentifier token.found)
  else
    discard next
    return token.value

def simpleIdentifier : Parsing String := do
  let token ← peek
  if token.kind ≠ .ident then failHere (.expectedIdentifier token.found)
  else if token.value.toList.contains '.' then failHere (.expectedSimpleName token.value)
  else
    discard next
    return token.value

/-! ### Repetition -/

/-- The parts up to the end of a list, at most `bound` of them. -/
def manyWithin {α : Type} (atEnd : Parsing Bool) (part : Parsing α) : Nat → Parsing (List α)
  | 0 => pure []
  | bound + 1 => do
    if ← atEnd then return []
    else
      let first ← part
      let rest ← manyWithin atEnd part bound
      return first :: rest

/-- The parts up to the end of a list.  A part takes at least one token, so there are no more
parts than tokens. -/
def many {α : Type} (atEnd : Parsing Bool) (part : Parsing α) : Parsing (List α) := do
  manyWithin atEnd part (← get).tokens.length

/-- A part of a list, and the comma that follows it unless the list ends. -/
def listItem {α : Type} (closing : String) (part : Parsing α) : Parsing α := do
  let value ← part
  unless ← atPunct closing do expectPunct ","
  return value

/-- The parts up to a closing mark, with commas between them; a comma may follow the last. -/
def listUntil {α : Type} (closing : String) (part : Parsing α) : Parsing (List α) :=
  many (atPunct closing) (listItem closing part)

/-- A part and those that follow it after commas. -/
def commaList {α : Type} (part : Parsing α) : Parsing (List α) := do
  let first ← part
  let rest ← many (return !(← atPunct ",")) do
    discard next
    part
  return first :: rest

end Avroc.Idl
