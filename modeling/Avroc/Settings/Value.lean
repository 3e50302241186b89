import Avroc.Settings.Basic
import Avroc.Text.Blank

/-!
# Values of settings

Which values a setting takes.  Values from the environment are always strings, so numbers and
truth values are taken in their written forms as well.

* `Yaml.toBool`, `Yaml.toWhole`, `Yaml.toText`, `Yaml.toPath` : values by kind.
* `Yaml.toStringType`, `Yaml.toVisibility`, `Yaml.toStrategy`, `Yaml.toLogFormat` : values by
  choice.
-/

namespace Avroc

/-- The truth value that a word spells, in letters of either case. -/
def truthOf? (word : String) : Option Bool :=
  match String.ofList (word.toList.map Char.toLower) with
  | "0" | "f" | "n" | "no" | "off" | "false" => some false
  | "1" | "t" | "y" | "yes" | "on" | "true" => some true
  | _ => none

/-- A text without a point and zeros at its end. -/
def dropZeroFraction (cs : List Char) : List Char :=
  let whole := cs.takeWhile (· ≠ '.')
  if (cs.drop whole.length).drop 1 |>.all (· = '0') then whole else cs

/-- The whole number that a text spells: an optional sign and plain digits, with underscores
between them and zeros after a point allowed. -/
def wholeOf? (cs : List Char) : Option Int :=
  let (negative, size) := splitAnySign cs
  readGrouped? Json.isPlainDigit negative (dropZeroFraction size)

/-- Whether a number fits into 64 bits with a sign. -/
def isWord (n : Int) : Bool :=
  -Int.pow 2 63 ≤ n && n < Int.pow 2 63

namespace Yaml

def toBool : Yaml → Except IssueCause Bool
  | bool b => .ok b
  | string s =>
    match truthOf? s with
    | some b => .ok b
    | none => .error .unreadableBool
  | v =>
    match v.numberValue? with
    | some 0 => .ok false
    | some 1 => .ok true
    | some n => .error (if isWord n then .unreadableBool else .noBool)
    | none => .error .noBool

def toWhole : Yaml → Except IssueCause Int
  | bool b => .ok (if b then 1 else 0)
  | int n => .ok n
  | real x =>
    match x.toInt? with
    | some n => if isWord n then .ok n else .error .oversized
    | none => .error (if x.isFinite then .fractional else .infinite)
  | string s =>
    let digits := Text.trim s.toList
    if maxDigits < digits.length then .error .oversized
    else
      match wholeOf? digits with
      | some n => .ok n
      | none => .error .unreadableWhole
  | _ => .error .noWhole

/-- A whole number that is at least one. -/
def toPositive (v : Yaml) : Except IssueCause Int := do
  let n ← v.toWhole
  if n < 1 then .error (.tooSmall 1) else .ok n

def toText : Yaml → Except IssueCause String
  | string s => .ok s
  | _ => .error .noText

def toPath : Yaml → Except IssueCause Path
  | string s => .ok (.ofString s)
  | _ => .error .noPath

/-- The representation of strings; a word has to spell one of the choices. -/
def toStringType : Yaml → Except IssueCause StringType
  | string s =>
    match StringType.ofName s with
    | .ok type => .ok type
    | .error _ => .error (.choice (.stringType s))
  | _ => .error (.noneOf ["CharSequence", "String", "Utf8"])

/-- The visibility of fields; a word has to spell one of the choices. -/
def toVisibility : Yaml → Except IssueCause FieldVisibility
  | string s =>
    match FieldVisibility.ofName s with
    | .ok visibility => .ok visibility
    | .error _ => .error (.choice (.visibility s))
  | _ => .error (.noneOf ["private", "public", "public_deprecated"])

def toStrategy (v : Yaml) : Except IssueCause CacheStrategy :=
  let refused := .error (.noneOf ["last_modified", "hash"])
  match v with
  | string s => (CacheStrategy.ofName? s).elim refused .ok
  | _ => refused

def toLogFormat (v : Yaml) : Except IssueCause LogFormat := do
  match LogFormat.ofName (← v.toText) with
  | .ok format => .ok format
  | .error fault => .error (.choice fault)

/-- The paths of a list, and an issue for every item that is none. -/
def pathsFrom (key : String) (index : Nat) : List Yaml → List Path × List Issue
  | [] => ([], [])
  | item :: rest =>
    let (paths, issues) := pathsFrom key (index + 1) rest
    match item.toPath with
    | .ok path => (path :: paths, issues)
    | .error cause => (paths, ⟨key, some index, cause, item⟩ :: issues)

end Yaml

end Avroc
