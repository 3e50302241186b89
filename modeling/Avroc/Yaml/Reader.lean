import Avroc.Yaml.Line

/-!
# Reading YAML

The value of a project file: mappings and lists by indentation or in brackets, plain and quoted
scalars.  A key that occurs twice keeps its first place and its last value.
-/

namespace Avroc.Yaml

/-! ### Values in brackets -/

mutual

/-- Reads a value between brackets. -/
def bracketed : Nat → Place → Except Fault (Yaml × Place)
  | 0, _ => .error .grammatical
  | fuel + 1, here => do
    let here := skipGap here.rest here.lines
    match here.rest with
    | '[' :: rest => bracketItems fuel [] ⟨rest, here.lines⟩
    | '\x7b' :: rest => bracketPairs fuel [] ⟨rest, here.lines⟩
    | '\x22' :: rest =>
      let (value, after) ← readQuoted true rest here.lines
      return (string (String.ofList value), after)
    | '\x27' :: rest =>
      let (value, after) ← readQuoted false rest here.lines
      return (string (String.ofList value), after)
    | cs =>
      if opensPlain true cs then
        let (plain, after) := splitPlain true false cs
        return (ofPlain (dropBlanksEnd plain), ⟨after, here.lines⟩)
      else
        match cs with
        | [] => .error .grammatical
        | ':' :: _ | '?' :: _ => .error .grammatical
        | c :: _ => .error (if isBracketMark c then .grammatical else .lexical)

/-- Reads the rest of a list in brackets, after the given items. -/
def bracketItems : Nat → List Yaml → Place → Except Fault (Yaml × Place)
  | 0, _, _ => .error .grammatical
  | fuel + 1, items, here => do
    let here := skipGap here.rest here.lines
    match here.rest with
    | ']' :: rest => return (list items, ⟨rest, here.lines⟩)
    | _ =>
      let (item, after) ← bracketed fuel here
      let after := skipGap after.rest after.lines
      match after.rest with
      | ']' :: rest => return (list (items ++ [item]), ⟨rest, after.lines⟩)
      | ',' :: rest => bracketItems fuel (items ++ [item]) ⟨rest, after.lines⟩
      | ':' :: rest =>
        let (value, after) ← bracketValue fuel ⟨rest, after.lines⟩
        let items := items ++ [mapping [(item, value)]]
        match after.rest with
        | ']' :: rest => return (list items, ⟨rest, after.lines⟩)
        | ',' :: rest => bracketItems fuel items ⟨rest, after.lines⟩
        | _ => .error .grammatical
      | _ => .error .grammatical

/-- Reads the rest of a mapping in brackets, after the given pairs. -/
def bracketPairs : Nat → List (Yaml × Yaml) → Place → Except Fault (Yaml × Place)
  | 0, _, _ => .error .grammatical
  | fuel + 1, pairs, here => do
    let here := skipGap here.rest here.lines
    match here.rest with
    | '\x7d' :: rest => return (mapping pairs, ⟨rest, here.lines⟩)
    | _ =>
      let (key, after) ← bracketed fuel here
      let after := skipGap after.rest after.lines
      let (value, after) ← match after.rest with
        | ':' :: rest => bracketValue fuel ⟨rest, after.lines⟩
        | _ => pure (null, after)
      let pairs := insert pairs key value
      match after.rest with
      | '\x7d' :: rest => return (mapping pairs, ⟨rest, after.lines⟩)
      | ',' :: rest => bracketPairs fuel pairs ⟨rest, after.lines⟩
      | _ => .error .grammatical

/-- Reads the value after a colon between brackets; it may be left out. -/
def bracketValue : Nat → Place → Except Fault (Yaml × Place)
  | 0, _ => .error .grammatical
  | fuel + 1, here => do
    let here := skipGap here.rest here.lines
    match here.rest with
    | ',' :: _ | ']' :: _ | '\x7d' :: _ => return (null, here)
    | _ =>
      let (value, after) ← bracketed fuel here
      return (value, skipGap after.rest after.lines)

end

/-! ### Values by indentation -/

/-- Whether a list item starts here. -/
def opensItem : List Char → Bool
  | '-' :: rest => endsWord false rest
  | _ => false

/-- The key that a line starts with, and what follows its colon. -/
def splitKey? (cs : List Char) : Option (Yaml × List Char) :=
  let quoted? := match cs with
    | '\x22' :: rest => (doubleQuoted 0 rest).toOption.join
    | '\x27' :: rest => singleQuoted rest
    | _ => none
  match quoted? with
  | some (key, after) =>
    match skipBlanks after with
    | ':' :: rest => if endsWord false rest then some (string (String.ofList key), rest) else none
    | _ => none
  | none =>
    if opensPlain false cs then
      match splitPlain false false cs with
      | (key, ':' :: rest) => some (ofPlain (dropBlanksEnd key), rest)
      | _ => none
    else none

/-- The lines that continue a plain scalar: those indented more than what it belongs to. -/
def continuePlain (parent : Int) (before : List Char) :
    List Line → Except Fault (List Char × List Line)
  | [] => .ok (before, [])
  | line :: lines =>
    if parent < line.indent then
      let (more, after) := splitPlain false false line.text
      let whole := before ++ ' ' :: dropBlanksEnd more
      match after with
      | ':' :: _ => .error .lexical
      | [] => continuePlain parent whole lines
      | _ => .ok (whole, lines)
    else .ok (before, line :: lines)

/-- The lines after a value that ends on this line; only a comment may follow it there. -/
def afterValue (here : Place) : Except Fault (List Line) :=
  match skipBlanks here.rest with
  | [] => .ok here.lines
  | ':' :: rest => .error (if endsWord false rest then .lexical else .grammatical)
  | _ => .error .grammatical

/-- Reads a value that starts on this line and belongs to something indented by `parent`. -/
def inlineValue (fuel : Nat) (parent : Int) (cs : List Char) (lines : List Line) :
    Except Fault (Yaml × List Line) := do
  match cs with
  | '[' :: _ | '\x7b' :: _ =>
    let (value, after) ← bracketed fuel ⟨cs, lines⟩
    return (value, ← afterValue after)
  | '\x22' :: rest =>
    let (value, after) ← readQuoted true rest lines
    return (string (String.ofList value), ← afterValue after)
  | '\x27' :: rest =>
    let (value, after) ← readQuoted false rest lines
    return (string (String.ofList value), ← afterValue after)
  | _ =>
    if opensPlain false cs then
      let (plain, after) := splitPlain false false cs
      let plain := dropBlanksEnd plain
      match after with
      | ':' :: _ => .error .lexical
      | [] =>
        let (whole, lines) ← continuePlain parent plain lines
        return (ofPlain whole, lines)
      | _ => return (ofPlain plain, lines)
    else
      match cs with
      | c :: _ => .error (if isBracketMark c then .grammatical else .lexical)
      | [] => .error .grammatical

mutual

/-- Reads the value that starts with the first line and belongs to something indented by
`parent`. -/
def block : Nat → Int → List Line → Except Fault (Yaml × List Line)
  | 0, _, _ => .error .grammatical
  | _, _, [] => .ok (null, [])
  | fuel + 1, parent, first :: lines =>
    if opensItem first.text then blockItems fuel first.indent [] (first :: lines)
    else
      match splitKey? first.text with
      | some _ => blockPairs fuel first.indent [] (first :: lines)
      | none => inlineValue fuel parent first.text lines

/-- Reads the items of a list whose dashes are indented by `indent`, after the given items. -/
def blockItems : Nat → Nat → List Yaml → List Line → Except Fault (Yaml × List Line)
  | 0, _, _, _ => .error .grammatical
  | _, _, items, [] => .ok (list items, [])
  | fuel + 1, indent, items, line :: lines => do
    if line.indent = indent && opensItem line.text then
      let content := line.text.drop 1
      let (item, lines) ← match skipBlanks content with
        | [] => blockBelow fuel indent lines
        | text =>
          let blanks := (content.takeWhile (· = ' ')).length
          block fuel indent (⟨indent + 1 + blanks, text⟩ :: lines)
      blockItems fuel indent (items ++ [item]) lines
    else return (list items, line :: lines)

/-- Reads the pairs of a mapping whose keys are indented by `indent`, after the given pairs. -/
def blockPairs : Nat → Nat → List (Yaml × Yaml) → List Line → Except Fault (Yaml × List Line)
  | 0, _, _, _ => .error .grammatical
  | _, _, pairs, [] => .ok (mapping pairs, [])
  | fuel + 1, indent, pairs, line :: lines => do
    if line.indent < indent then return (mapping pairs, line :: lines)
    else if indent < line.indent then .error .grammatical
    else
      match splitKey? line.text with
      | none => .error (if opensItem line.text then .grammatical else .lexical)
      | some (key, after) =>
        let (value, lines) ← match skipBlanks after with
          | [] =>
            match lines with
            | next :: _ =>
              if next.indent = indent && opensItem next.text then blockItems fuel indent [] lines
              else blockBelow fuel indent lines
            | [] => pure (null, [])
          | text => inlineValue fuel indent text lines
        blockPairs fuel indent (insert pairs key value) lines

/-- Reads the value on the lines indented by more than `indent`, null if there are none. -/
def blockBelow : Nat → Nat → List Line → Except Fault (Yaml × List Line)
  | 0, _, _ => .error .grammatical
  | _, _, [] => .ok (null, [])
  | fuel + 1, indent, next :: lines =>
    if indent < next.indent then block fuel indent (next :: lines)
    else .ok (null, next :: lines)

end

/-- Reads the value of a document.  A mark may stand before it, and a value that is neither a list
nor a mapping by indentation may follow the mark on its line. -/
def document (fuel : Nat) : List Line → Except Fault (Yaml × List Line)
  | [] => .ok (null, [])
  | first :: lines =>
    match first.afterMark? "---" with
    | none => block fuel (-1) (first :: lines)
    | some [] => block fuel (-1) lines
    | some text => inlineValue fuel (-1) text lines

/-- The value of a text. -/
def parse (text : String) : Except Fault Yaml := do
  -- every step that reads a part takes a character at least, and a few steps share one
  let (value, lines) ← document (4 * text.length + 4) (linesOf text)
  if lines.isEmpty then return value else .error .grammatical

end Avroc.Yaml
