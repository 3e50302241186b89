/-!
# Splitting

* `splitAtEach` : a text cut at every occurrence of a character.
* `splitString` : the same on strings.
* `splitAtWord` : a text cut at every occurrence of a word.
* `splitAtLast?` : a text cut at the last occurrence of a character.
* `replaceAll` : a text with every occurrence of a word replaced.
-/

namespace Avroc.Text

/-- A character put in front of the first part. -/
def consFirst (c : Char) : List (List Char) → List (List Char)
  | [] => [[c]]
  | part :: parts => (c :: part) :: parts

/-- The parts of a text between the occurrences of a character. -/
def splitAtEach (mark : Char) : List Char → List (List Char)
  | [] => [[]]
  | c :: rest =>
    if c = mark then [] :: splitAtEach mark rest else consFirst c (splitAtEach mark rest)

/-- The parts of a string between the occurrences of a character. -/
def splitString (mark : Char) (s : String) : List String :=
  (splitAtEach mark s.toList).map String.ofList

/-- The parts before and after the last occurrence of a character. -/
def splitAtLast? (mark : Char) : List Char → Option (List Char × List Char)
  | [] => none
  | c :: rest =>
    match splitAtLast? mark rest with
    | some (before, after) => some (c :: before, after)
    | none => if c = mark then some ([], rest) else none

/-- The parts between the occurrences of a word, from left to right; the next `taken` characters
belong to an occurrence. -/
def splitAtWordFrom (word : List Char) (taken : Nat) : List Char → List (List Char)
  | [] => [[]]
  | c :: rest =>
    match taken with
    | left + 1 => splitAtWordFrom word left rest
    | 0 =>
      if !word.isEmpty && word.isPrefixOf (c :: rest) then
        [] :: splitAtWordFrom word (word.length - 1) rest
      else consFirst c (splitAtWordFrom word 0 rest)

/-- The parts of a string between the occurrences of a word. -/
def splitAtWord (word s : String) : List String :=
  (splitAtWordFrom word.toList 0 s.toList).map String.ofList

/-- Replaces the occurrences of a word, from left to right; the next `taken` characters belong to
an occurrence that has been replaced. -/
def replaceFrom (word replacement : List Char) (taken : Nat) : List Char → List Char
  | [] => []
  | c :: rest =>
    match taken with
    | left + 1 => replaceFrom word replacement left rest
    | 0 =>
      if !word.isEmpty && word.isPrefixOf (c :: rest) then
        replacement ++ replaceFrom word replacement (word.length - 1) rest
      else c :: replaceFrom word replacement 0 rest

/-- The text with every occurrence of a word replaced. -/
def replaceAll (word replacement : List Char) (cs : List Char) : List Char :=
  replaceFrom word replacement 0 cs

def replaceWord (word replacement s : String) : String :=
  String.ofList (replaceAll word.toList replacement.toList s.toList)

end Avroc.Text
