import Avroc.Json.Printer
import Avroc.Json.Reader

/-!
# Strings and whole numbers are read back

* `Json.scanString_renderString` : **a string is read back**, whatever its characters.
* `Json.scanNumber_toString` : **a whole number is read back**, if nothing follows that could
  continue it.
-/

namespace Avroc.Json

open List

variable {c x a b d : Char} {rest more : List Char} {n position start k : Nat} {after : Place}

/-! ### Hexadecimal digits -/

theorem hexValue?_digitChar : ∀ {d : Nat}, d < 16 → hexValue? (Nat.digitChar d) = some d := by
  decide

theorem hex_four (h : n < 0x10000) :
    Text.hex 4 n = [Nat.digitChar (n / 4096), Nat.digitChar (n / 256 % 16),
      Nat.digitChar (n / 16 % 16), Nat.digitChar (n % 16)] := by
  rw [Text.hex]
  rcases Nat.lt_or_ge n 16 with h₁ | h₁
  · rw [Nat.toDigits_of_lt_base h₁]
    simp [List.replicate, show n / 4096 = 0 by omega, show n / 256 = 0 by omega,
      show n / 16 = 0 by omega, show n % 16 = n by omega]
  rw [Nat.toDigits_of_base_le (by omega) h₁]
  rcases Nat.lt_or_ge n 256 with h₂ | h₂
  · rw [Nat.toDigits_of_lt_base (show n / 16 < 16 by omega)]
    simp [List.replicate, show n / 4096 = 0 by omega, show n / 256 = 0 by omega,
      show n / 16 % 16 = n / 16 by omega]
  rw [Nat.toDigits_of_base_le (by omega) (show 16 ≤ n / 16 by omega), Nat.div_div_eq_div_mul]
  rcases Nat.lt_or_ge n 4096 with h₃ | h₃
  · rw [Nat.toDigits_of_lt_base (show n / (16 * 16) < 16 by omega)]
    simp [show n / 4096 = 0 by omega,
      show n / 256 % 16 = n / 256 by omega]
  · rw [Nat.toDigits_of_base_le (by omega) (show 16 ≤ n / (16 * 16) by omega),
      Nat.div_div_eq_div_mul, Nat.toDigits_of_lt_base (show n / (16 * 16 * 16) < 16 by omega)]
    simp

/-- Four digits are read back as the number they were written for. -/
theorem exists_hex_four (h : n < 0x10000) :
    ∃ a b c d, Text.hex 4 n = [a, b, c, d] ∧ hexUnit? a b c d = some n := by
  refine ⟨_, _, _, _, hex_four h, ?_⟩
  rw [hexUnit?, hexValue?_digitChar (by omega), hexValue?_digitChar (by omega),
    hexValue?_digitChar (by omega), hexValue?_digitChar (by omega)]
  simp only [Option.pure_def, Option.bind_eq_bind, Option.bind_some, Option.some.injEq]
  omega

/-! ### Strings -/

/-- The rest of a string after the characters of an escape. -/
theorem scanString_taken (start position : Nat) (used rest : List Char) :
    scanString start position used.length (used ++ rest) =
      scanString start (position + used.length) 0 rest := by
  induction used generalizing position with
  | nil => rfl
  | cons c used ih =>
    rw [cons_append, length_cons, scanString, ih]
    congr 1
    omega

/-- An escape that is read back goes in front of the rest of the string. -/
theorem scanString_escape {used : List Char}
    (h : escape start position (used ++ rest) = .ok (c, used.length))
    (hr : scanString start (position + 1 + used.length) 0 rest = .ok (more, after)) :
    scanString start position 0 ('\\' :: (used ++ rest)) = .ok (c :: more, after) := by
  rw [scanString]
  simp only [show ('\\' : Char) ≠ '\x22' by decide, if_false, if_true, h, scanString_taken, hr]

/-- An escape of one unit. -/
theorem unicodeEscape_unit (h : hexUnit? a b c d = some n) (hn : n < 0xD800 ∨ 0xE000 ≤ n) :
    unicodeEscape position (a :: b :: c :: d :: x :: rest) = .ok (Char.ofNat n, 5) := by
  have hhigh : ¬ (0xD800 ≤ n && n < 0xDC00) = true := by
    rw [Bool.and_eq_true, decide_eq_true_eq, decide_eq_true_eq]
    omega
  have hlow : ¬ (0xDC00 ≤ n && n < 0xE000) = true := by
    rw [Bool.and_eq_true, decide_eq_true_eq, decide_eq_true_eq]
    omega
  rw [unicodeEscape, h]
  dsimp only
  rw [if_neg hhigh, if_neg hlow]

/-- The character of two units, from the first one and what the second one is. -/
def pairEscape (position high : Nat) : Option Nat → Except JsonError (Char × Nat)
  | none => refuse .badUnicodeEscape (position + 6)
  | some low =>
    if 0xDC00 ≤ low && low < 0xE000 then
      .ok (Char.ofNat (0x10000 + (high - 0xD800) * 0x400 + (low - 0xDC00)), 11)
    else .ok ('\ufffd', 5)

/-- An escape of two units. -/
theorem unicodeEscape_pair {high low : Nat} {e f g h : Char} (hhigh : hexUnit? a b c d = some high)
    (hlow : hexUnit? e f g h = some low) (hh : 0xD800 ≤ high ∧ high < 0xDC00)
    (hl : 0xDC00 ≤ low ∧ low < 0xE000) :
    unicodeEscape position (a :: b :: c :: d :: '\\' :: 'u' :: e :: f :: g :: h :: x :: rest) =
      .ok (Char.ofNat (0x10000 + (high - 0xD800) * 0x400 + (low - 0xDC00)), 11) := by
  have hh' : (0xD800 ≤ high && high < 0xDC00) = true := by
    rw [Bool.and_eq_true, decide_eq_true_eq, decide_eq_true_eq]
    exact hh
  have hl' : (0xDC00 ≤ low && low < 0xE000) = true := by
    rw [Bool.and_eq_true, decide_eq_true_eq, decide_eq_true_eq]
    exact hl
  rw [unicodeEscape, hhigh]
  dsimp only
  rw [if_pos hh']
  show pairEscape position high (hexUnit? e f g h) = _
  rw [hlow]
  exact if_pos hl'

theorem escape_unit (h : n < 0x10000) (hn : n < 0xD800 ∨ 0xE000 ≤ n) :
    escape start position (('u' :: Text.hex 4 n) ++ x :: rest) =
      .ok (Char.ofNat n, ('u' :: Text.hex 4 n).length) := by
  obtain ⟨a, b, c, d, hhex, hunit⟩ := exists_hex_four h
  rw [hhex]
  exact unicodeEscape_unit hunit hn

theorem escape_pair (h : n < 0x100000) :
    escape start position
        (('u' :: Text.hex 4 (0xD800 + n / 0x400) ++ unitEscape (0xDC00 + n % 0x400)) ++ x :: rest) =
      .ok (Char.ofNat (0x10000 + n),
        ('u' :: Text.hex 4 (0xD800 + n / 0x400) ++ unitEscape (0xDC00 + n % 0x400)).length) := by
  obtain ⟨a, b, c, d, hhex, hunit⟩ := exists_hex_four (show 0xD800 + n / 0x400 < 0x10000 by omega)
  obtain ⟨e, f, g, i, hhex', hunit'⟩ :=
    exists_hex_four (show 0xDC00 + n % 0x400 < 0x10000 by omega)
  rw [unitEscape, hhex, hhex', show 0x10000 + n = 0x10000 + (0xD800 + n / 0x400 - 0xD800) * 0x400 +
    (0xDC00 + n % 0x400 - 0xDC00) by omega]
  show unicodeEscape (position + 1)
    (a :: b :: c :: d :: '\\' :: 'u' :: e :: f :: g :: i :: x :: rest) = _
  exact unicodeEscape_pair hunit hunit' (by omega) (by omega)

/-- Characters are no surrogates. -/
theorem toNat_cases (c : Char) : c.toNat < 0xD800 ∨ 0xE000 ≤ c.toNat ∧ c.toNat < 0x110000 :=
  c.valid

/-- How a character is written: by a short escape, as itself, by one unit or by two. -/
theorem escapeChar_cases (c : Char) :
    (∃ d, escapeChar c = ['\\', d] ∧
      ∀ start position rest, escape start position ([d] ++ rest) = .ok (c, [d].length)) ∨
    (escapeChar c = [c] ∧ c ≠ '\x22' ∧ c ≠ '\\' ∧ 0x20 ≤ c.toNat) ∨
    (escapeChar c = unitEscape c.toNat ∧ c.toNat < 0x10000) ∨
    ∃ n, n < 0x100000 ∧ c.toNat = 0x10000 + n ∧
      escapeChar c = unitEscape (0xD800 + n / 0x400) ++ unitEscape (0xDC00 + n % 0x400) := by
  generalize hwritten : escapeChar c = written
  rw [escapeChar] at hwritten
  split at hwritten
  · exact .inl ⟨'\x22', hwritten.symm, fun _ _ _ => by subst c; rfl⟩
  split at hwritten
  · exact .inl ⟨'\\', hwritten.symm, fun _ _ _ => by subst c; rfl⟩
  split at hwritten
  · exact .inl ⟨'n', hwritten.symm, fun _ _ _ => by subst c; rfl⟩
  split at hwritten
  · exact .inl ⟨'r', hwritten.symm, fun _ _ _ => by subst c; rfl⟩
  split at hwritten
  · exact .inl ⟨'t', hwritten.symm, fun _ _ _ => by subst c; rfl⟩
  split at hwritten
  · exact .inl ⟨'b', hwritten.symm, fun _ _ _ => by subst c; rfl⟩
  split at hwritten
  · exact .inl ⟨'f', hwritten.symm, fun _ _ _ => by subst c; rfl⟩
  split at hwritten
  · rename_i hquote hslash _ _ _ _ _ hplain
    rw [Bool.and_eq_true, decide_eq_true_eq, decide_eq_true_eq] at hplain
    exact .inr (.inl ⟨hwritten.symm, hquote, hslash, hplain.1⟩)
  split at hwritten
  · exact .inr (.inr (.inl ⟨hwritten.symm, by omega⟩))
  · have hmax := toNat_cases c
    exact .inr (.inr (.inr ⟨c.toNat - 0x10000, by omega, by omega, hwritten.symm⟩))

/-- A character is read back in front of the rest of the string, which has an end at least. -/
theorem scanString_escapeChar (hne : rest ≠ [])
    (h : scanString start (position + (escapeChar c).length) 0 rest = .ok (more, after)) :
    scanString start position 0 (escapeChar c ++ rest) = .ok (c :: more, after) := by
  obtain ⟨x, rest, rfl⟩ := exists_cons_of_ne_nil hne
  rcases escapeChar_cases c with ⟨d, hc, hd⟩ | ⟨hc, hquote, hslash, hplain⟩ | ⟨hc, hlt⟩ |
      ⟨n, hn, hcn, hc⟩
  · rw [hc] at h ⊢
    exact scanString_escape (hd start position (x :: rest)) h
  · rw [hc] at h ⊢
    rw [singleton_append, scanString, if_neg hquote, if_neg hslash, if_neg (by omega)]
    exact h ▸ rfl
  · rw [hc] at h ⊢
    have hescape : escape start position (('u' :: Text.hex 4 c.toNat) ++ x :: rest) = _ :=
      escape_unit hlt ((toNat_cases c).imp_right And.left)
    rw [Char.ofNat_toNat] at hescape
    refine scanString_escape hescape ?_
    rw [← h]
    congr 1
    simp [unitEscape]
    omega
  · rw [hc] at h ⊢
    have hescape : escape start position (('u' :: Text.hex 4 (0xD800 + n / 0x400) ++
        unitEscape (0xDC00 + n % 0x400)) ++ x :: rest) = _ := escape_pair hn
    rw [← hcn, Char.ofNat_toNat] at hescape
    refine scanString_escape hescape ?_
    rw [← h]
    congr 1
    simp [unitEscape]
    omega

/-- **A string is read back**, whatever its characters. -/
theorem scanString_renderString (start position : Nat) (s : String) (rest : List Char) :
    scanString start position 0 (s.toList.flatMap escapeChar ++ '\x22' :: rest) =
      .ok (s.toList, ⟨position + (s.toList.flatMap escapeChar).length + 1, rest⟩) := by
  generalize s.toList = cs
  induction cs generalizing position with
  | nil => rfl
  | cons c cs ih =>
    rw [flatMap_cons, append_assoc]
    refine scanString_escapeChar (by simp) ?_
    rw [ih]
    simp [Nat.add_assoc]

/-! ### Whole numbers -/

/-- No number goes on with the text. -/
def Ends (rest : List Char) : Prop :=
  ∀ c ∈ rest.head?, isPlainDigit c = false ∧ c ≠ '.' ∧ c ≠ 'e' ∧ c ≠ 'E'

theorem Ends.takeWhile_eq_nil (h : Ends rest) : rest.takeWhile isPlainDigit = [] := by
  cases rest with
  | nil => rfl
  | cons c rest =>
    rw [takeWhile_cons, (h c rfl).1]
    rfl

theorem Ends.fractionLength_eq (h : Ends rest) : fractionLength rest = 0 := by
  rw [fractionLength.eq_def]
  split
  · exact absurd rfl (h _ rfl).2.1
  · rfl

theorem Ends.exponentLength_eq (h : Ends rest) : exponentLength rest = 0 := by
  cases rest with
  | nil => rfl
  | cons c rest =>
    obtain ⟨-, -, he, hE⟩ := h c rfl
    simp [exponentLength, he, hE]

theorem isPlainDigit_of_mem (h : c ∈ Nat.toDigits 10 n) : isPlainDigit c = true :=
  Nat.isDigit_of_mem_toDigits (by decide) (by decide) h

theorem toNat_of_isPlainDigit (h : isPlainDigit c = true) : 48 ≤ c.toNat ∧ c.toNat ≤ 57 := by
  rw [isPlainDigit, Bool.and_eq_true, decide_eq_true_eq, decide_eq_true_eq] at h
  exact h

/-- The plain digits are the first run of digits. -/
theorem digitValue?_of_isPlainDigit (h : isPlainDigit c = true) :
    Text.digitValue? c = some (c.toNat - 48) := by
  obtain ⟨hlow, hhigh⟩ := toNat_of_isPlainDigit h
  rw [Text.digitValue?, Text.zeroDigits, find?_cons_of_pos (by simp [hlow, hhigh])]
  rfl

theorem decimalValue_toDigits (n : Nat) : Text.decimalValue (Nat.toDigits 10 n) = n := by
  have hfold : ∀ (cs : List Char) (start : Nat), (∀ c ∈ cs, isPlainDigit c = true) →
      cs.foldl (fun n c => 10 * n + (Text.digitValue? c).getD 0) start =
        Nat.ofDigitChars 10 cs start := by
    intro cs
    induction cs with
    | nil => intro start _; rfl
    | cons c cs ih =>
      intro start hcs
      rw [foldl_cons, ih _ fun d hd => hcs d (mem_cons_of_mem c hd),
        digitValue?_of_isPlainDigit (hcs c mem_cons_self), Nat.ofDigitChars_cons]
      rfl
  rw [Text.decimalValue, hfold _ 0 fun c => isPlainDigit_of_mem, Nat.ofDigitChars_ten_toDigits]

/-- Only zero starts with the digit zero. -/
theorem head?_toDigits_ne_zero (h : 0 < n) : (Nat.toDigits 10 n).head? ≠ some '0' := by
  induction n using Nat.strongRecOn with
  | ind n ih =>
    rcases Nat.lt_or_ge n 10 with hlt | hge
    · rw [Nat.toDigits_of_lt_base hlt]
      simpa using Nat.pos_iff_ne_zero.mp h
    · obtain ⟨d, ds, hd⟩ := exists_cons_of_ne_nil (Nat.toDigits_ne_nil (n := n / 10) (b := 10))
      have hhead := ih (n / 10) (by omega) (by omega)
      rw [hd] at hhead
      rw [Nat.toDigits_of_base_le (by decide) hge, hd]
      exact hhead

theorem wholeLength_toDigits (n : Nat) (h : Ends rest) :
    wholeLength (Nat.toDigits 10 n ++ rest) = (Nat.toDigits 10 n).length := by
  rcases Nat.eq_zero_or_pos n with rfl | hpos
  · rfl
  · have hhead := head?_toDigits_ne_zero hpos
    rw [wholeLength.eq_def]
    split
    · rename_i heq
      obtain ⟨d, ds, hd⟩ := exists_cons_of_ne_nil (Nat.toDigits_ne_nil (n := n) (b := 10))
      rw [hd, cons_append, List.cons.injEq] at heq
      rw [hd, heq.1] at hhead
      exact absurd rfl hhead
    · rw [takeWhile_append_of_pos fun c => isPlainDigit_of_mem, h.takeWhile_eq_nil,
        append_nil]

theorem splitSign_toDigits (n : Nat) (rest : List Char) :
    splitSign (Nat.toDigits 10 n ++ rest) = (false, Nat.toDigits 10 n ++ rest) := by
  obtain ⟨d, ds, hd⟩ := exists_cons_of_ne_nil (Nat.toDigits_ne_nil (n := n) (b := 10))
  have hdigit := toNat_of_isPlainDigit (isPlainDigit_of_mem (hd ▸ mem_cons_self))
  rw [hd, cons_append, splitSign.eq_def]
  split
  · rename_i heq
    rw [List.cons.injEq] at heq
    rw [heq.1] at hdigit
    exact absurd hdigit.1 (by decide)
  · rfl

theorem length_toDigits_le (hk : 0 < k) (hn : n < Nat.pow 10 k) :
    (Nat.toDigits 10 n).length ≤ k :=
  (Nat.length_toDigits_le_iff (by decide) hk).mpr hn

theorem lt_pow_of_lt_ten (hk : 0 < k) (hn : n < 10) : n < Nat.pow 10 k :=
  Nat.lt_of_lt_of_le hn (Nat.le_self_pow (Nat.ne_of_gt hk) 10)

/-- Digits, with a minus sign in front of them or without. -/
theorem scanNumber_digits (hn : n < Nat.pow 10 maxDigits) (position : Nat) {sign : List Char}
    (hsign : sign = [] ∨ sign = ['-']) (h : Ends rest) :
    scanNumber ⟨position, sign ++ Nat.toDigits 10 n ++ rest⟩ =
      .ok (int (readWhole (sign ++ Nat.toDigits 10 n)),
        ⟨position + (sign ++ Nat.toDigits 10 n).length, rest⟩) := by
  have hlength : (if (splitSign (sign ++ (Nat.toDigits 10 n ++ rest))).1 = true then 1 else 0) =
      sign.length := by
    rcases hsign with rfl | rfl
    · rw [nil_append, splitSign_toDigits]
      rfl
    · rfl
  have hdigits : (Nat.toDigits 10 n).length ≤ maxDigits := length_toDigits_le (by decide) hn
  have hpos := Nat.length_toDigits_pos (b := 10) (n := n)
  rw [scanNumber, append_assoc]
  simp only [hlength, drop_left, wholeLength_toDigits n h, h.fractionLength_eq,
    h.exponentLength_eq, Nat.add_zero]
  rw [if_neg (by omega), if_pos trivial, if_neg (by omega), ← append_assoc, ← length_append,
    take_left, Place.skip, drop_left]

/-- A whole number is written with its digits, after a minus sign if it is negative. -/
theorem exists_sign_toString (n : Int) : ∃ sign, (sign = [] ∨ sign = ['-']) ∧
    (toString n).toList = sign ++ Nat.toDigits 10 n.natAbs ∧
    readWhole (sign ++ Nat.toDigits 10 n.natAbs) = n := by
  cases n with
  | ofNat m =>
    refine ⟨[], .inl rfl, ?_, ?_⟩
    · show (Nat.repr m).toList = [] ++ Nat.toDigits 10 m
      simp [Nat.repr_eq_ofList_toDigits]
    · have hsplit := splitSign_toDigits m []
      rw [append_nil] at hsplit
      show readWhole (Nat.toDigits 10 m) = _
      simp [readWhole, hsplit, decimalValue_toDigits]
  | negSucc m =>
    refine ⟨['-'], .inr rfl, ?_, ?_⟩
    · show ("-" ++ Nat.repr (m + 1)).toList = ['-'] ++ Nat.toDigits 10 (m + 1)
      simp [Nat.repr_eq_ofList_toDigits]
    · show -(Text.decimalValue (Nat.toDigits 10 (m + 1)) : Int) = _
      rw [decimalValue_toDigits]
      rfl

/-- **A whole number is read back**, if nothing follows that could continue it. -/
theorem scanNumber_toString {n : Int} (hn : n.natAbs < Nat.pow 10 maxDigits) (position : Nat)
    (h : Ends rest) :
    scanNumber ⟨position, (toString n).toList ++ rest⟩ =
      .ok (int n, ⟨position + (toString n).toList.length, rest⟩) := by
  obtain ⟨sign, hsign, htext, hvalue⟩ := exists_sign_toString n
  rw [htext, scanNumber_digits hn position hsign h, hvalue]

end Avroc.Json
