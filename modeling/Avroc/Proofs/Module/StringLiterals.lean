import Avroc.Json.Reader

/-!
# String literals

How the string and bytes literals of a Python program are read: up to the first closing mark that no
backslash takes, with escapes for what they stand for.  Escapes by the name of a character are left
out.
-/

namespace Avroc.Literal

open List

/-- The escapes of one character; an escaped line feed stands for nothing. -/
def shortEscapes : List (Char × List Char) :=
  [('\n', []), ('\\', ['\\']), ('\x27', ['\x27']), ('\x22', ['\x22']), ('a', ['\x07']),
   ('b', ['\x08']), ('f', ['\x0c']), ('n', ['\n']), ('r', ['\r']), ('t', ['\t']), ('v', ['\x0b'])]

/-- The number that hexadecimal digits spell. -/
def hexNumber? (cs : List Char) : Option Nat :=
  cs.foldlM (fun n c => (Json.hexValue? c).map (16 * n + ·)) 0

/-- The character whose number is spelled by the given number of hexadecimal digits. -/
def hexEscape? (width : Nat) (cs : List Char) : Option (List Char × Nat) :=
  if cs.length < width then none
  else match hexNumber? (cs.take width) with
    | some n => if n.isValidChar then some ([Char.ofNat n], width + 1) else none
    | none => none

/-- Whether the character is an octal digit. -/
def isOctal (c : Char) : Bool :=
  '0' ≤ c && c ≤ '7'

/-- The character whose number is spelled by at most three octal digits; a byte has eight bits. -/
def octalEscape (bytes : Bool) (cs : List Char) : List Char × Nat :=
  let digits := (cs.take 3).takeWhile isOctal
  let n := digits.foldl (fun n c => 8 * n + (c.toNat - 48)) 0
  ([Char.ofNat (if bytes then n % 256 else n)], digits.length)

/-- What the escape at the start of a text stands for, and the number of its characters after the
backslash.  A backslash that starts no escape stands for itself. -/
def escape? (bytes : Bool) : List Char → Option (List Char × Nat)
  | [] => none
  | c :: rest =>
    match shortEscapes.lookup c with
    | some meant => some (meant, 1)
    | none =>
      if isOctal c then some (octalEscape bytes (c :: rest))
      else if c = 'x' then hexEscape? 2 rest
      else if !bytes && c = 'u' then hexEscape? 4 rest
      else if !bytes && c = 'U' then hexEscape? 8 rest
      else if !bytes && c = 'N' then none
      else some (['\\', c], 1)

/-- The value of a literal after its opening mark, and what follows the closing mark; the next
`taken` characters belong to an escape.  A line feed needs a closing mark of three quotes, and bytes
are written in ASCII. -/
def readBody (bytes : Bool) (closing : List Char) (taken : Nat) :
    List Char → Option (List Char × List Char)
  | [] => none
  | c :: rest =>
    match taken with
    | left + 1 => readBody bytes closing left rest
    | 0 =>
      if closing.isPrefixOf (c :: rest) then some ([], (c :: rest).drop closing.length)
      else if c = '\\' then
        match escape? bytes rest with
        | some (meant, used) =>
          (readBody bytes closing used rest).map fun r => (meant ++ r.1, r.2)
        | none => none
      else if c = '\n' && closing.length = 1 || bytes && 0x80 ≤ c.toNat then none
      else (readBody bytes closing 0 rest).map fun r => (c :: r.1, r.2)

/-- A value with characters in front of it. -/
def before (cs : List Char) (r : Option (List Char × List Char)) : Option (List Char × List Char) :=
  r.map fun r => (cs ++ r.1, r.2)

@[simp] theorem before_nil (r : Option (List Char × List Char)) : before [] r = r := by
  cases r <;> rfl

@[simp] theorem before_before (cs ds : List Char) (r : Option (List Char × List Char)) :
    before cs (before ds r) = before (cs ++ ds) r := by
  cases r <;> simp [before]

variable {bytes : Bool} {closing : List Char}

theorem readBody_taken (used rest : List Char) :
    readBody bytes closing used.length (used ++ rest) = readBody bytes closing 0 rest := by
  induction used with
  | nil => rfl
  | cons c used ih => exact ih

/-- A character that is neither a backslash nor the start of a closing mark stands for itself. -/
theorem readBody_plain {c : Char} {rest : List Char} (hslash : c ≠ '\\')
    (hclosing : ¬ closing <+: c :: rest)
    (hplain : (c = '\n' && closing.length = 1 || bytes && 0x80 ≤ c.toNat) = false) :
    readBody bytes closing 0 (c :: rest) = before [c] (readBody bytes closing 0 rest) := by
  rw [readBody, if_neg (fun h => hclosing (List.isPrefixOf_iff_prefix.mp h)), if_neg hslash, hplain,
    if_neg Bool.false_ne_true]
  rfl

/-- An escape stands for what it means. -/
theorem readBody_escape {meant used rest : List Char} (hclosing : closing.head? ≠ some '\\')
    (hne : closing ≠ []) (h : escape? bytes (used ++ rest) = some (meant, used.length)) :
    readBody bytes closing 0 ('\\' :: (used ++ rest)) =
      before meant (readBody bytes closing 0 rest) := by
  obtain ⟨c, cs, rfl⟩ := exists_cons_of_ne_nil hne
  have hprefix : ¬ (c :: cs).isPrefixOf ('\\' :: (used ++ rest)) = true := by
    intro hp
    rw [List.isPrefixOf_iff_prefix] at hp
    exact hclosing (by rw [(cons_prefix_cons.mp hp).1]; rfl)
  rw [readBody, if_neg hprefix, if_pos rfl, h]
  dsimp only
  rw [readBody_taken]
  rfl

end Avroc.Literal
