/-!
# UTF-8

Decoding of byte sequences.  A sequence that is no UTF-8 is refused at its first bad place, and
the refusal says which bytes are to blame and why.
-/

namespace Avroc.Text

/-- Why bytes are no UTF-8. -/
inductive Utf8Reason
  | startByte
  | continuationByte
  | endOfData
deriving BEq, Repr, Inhabited

/-- Bytes from `first` on, `count` of them, are no UTF-8; `byte` is the first of them. -/
structure Utf8Fault where
  byte : UInt8
  first : Nat
  count : Nat
  reason : Utf8Reason
deriving BEq, Repr, Inhabited

/-- The wording of a reason. -/
def Utf8Reason.message : Utf8Reason → String
  | .startByte => "invalid start byte"
  | .continuationByte => "invalid continuation byte"
  | .endOfData => "unexpected end of data"

/-- The number in two hexadecimal digits. -/
private def byteHex (n : Nat) : String :=
  String.ofList ((if n < 16 then ['0'] else []) ++ Nat.toDigits 16 n)

/-- The wording of a fault. -/
def Utf8Fault.message (fault : Utf8Fault) : String :=
  let place :=
    if fault.count = 1 then
      "byte 0x" ++ byteHex fault.byte.toNat ++ " in position " ++ toString fault.first
    else
      "bytes in position " ++ toString fault.first ++ "-" ++
        toString (fault.first + fault.count - 1)
  "'utf-8' codec can't decode " ++ place ++ ": " ++ fault.reason.message

/-- Whether the byte continues a character. -/
def isContinuation (b : UInt8) : Bool :=
  0x80 ≤ b && b ≤ 0xBF

/-- The number of bytes in a character that starts with the byte, if one does. -/
def sequenceLength? (b : UInt8) : Option Nat :=
  if b < 0x80 then some 1
  else if b < 0xC2 then none
  else if b < 0xE0 then some 2
  else if b < 0xF0 then some 3
  else if b < 0xF5 then some 4
  else none

/-- Whether the second byte may follow the first: it continues a character, and the two start
neither an overlong form nor a surrogate nor a character beyond the last plane. -/
def mayFollow (first second : UInt8) : Bool :=
  isContinuation second &&
    !(first == 0xE0 && second < 0xA0) && !(first == 0xED && second ≥ 0xA0) &&
    !(first == 0xF0 && second < 0x90) && !(first == 0xF4 && second ≥ 0x90)

/-- The number of bytes of `tail`, at most `wanted`, that rightly continue a character begun by
`first`. -/
def goodTail (first : UInt8) (wanted : Nat) (tail : List UInt8) : Nat :=
  match tail.take wanted with
  | [] => 0
  | second :: more =>
    if mayFollow first second then 1 + (more.takeWhile isContinuation).length else 0

/-- The code point that the low six bits of the bytes extend `high` to. -/
def extendCode (high : Nat) (tail : List UInt8) : Nat :=
  tail.foldl (fun n b => n * 64 + (b.toNat - 0x80)) high

/-- The bits of the first byte that belong to the code point. -/
def leadBits (length : Nat) (b : UInt8) : Nat :=
  match length with
  | 1 => b.toNat
  | 2 => b.toNat - 0xC0
  | 3 => b.toNat - 0xE0
  | _ => b.toNat - 0xF0

/-- Decodes the bytes that stand `place` bytes from the start; `skip` bytes belong to the
character before them. -/
def decodeFrom (place : Nat) (skip : Nat) : List UInt8 → Except Utf8Fault (List Char)
  | [] => .ok []
  | b :: rest =>
    match skip with
    | left + 1 => decodeFrom (place + 1) left rest
    | 0 =>
      match sequenceLength? b with
      | none => .error ⟨b, place, 1, .startByte⟩
      | some length =>
        let good := goodTail b (length - 1) rest
        if good = length - 1 then
          (Char.ofNat (extendCode (leadBits length b) (rest.take good)) :: ·) <$>
            decodeFrom (place + 1) good rest
        else if good = rest.length then .error ⟨b, place, good + 1, .endOfData⟩
        else .error ⟨b, place, good + 1, .continuationByte⟩

/-- The text that the bytes spell in UTF-8. -/
def decodeUtf8 (bytes : List UInt8) : Except Utf8Fault String :=
  String.ofList <$> decodeFrom 0 0 bytes

/-- The UTF-8 spelling of a text. -/
def encodeUtf8 (s : String) : List UInt8 :=
  s.toUTF8.toList

end Avroc.Text
