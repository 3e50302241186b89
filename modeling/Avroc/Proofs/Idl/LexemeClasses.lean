import Avroc.Proofs.Idl.Lexer
import Mathlib.Data.List.TakeWhile

/-!
# The classes of lexemes

The classes of lexemes as sets of texts, said apart from how they are found, and how far a lexeme
goes: it is as long as possible, but a block comment ends at the first end mark.

* `measures_of_mem` : **every class is measured.**
-/

namespace Avroc.Idl

open List

variable {cs ds exponent text : List Char} {n : Nat} {c : Char}

/-! ### Classes -/

/-- The inside of a string: a backslash takes the next character with it. -/
inductive QuotedBody : List Char → Prop
  | nil : QuotedBody []
  | plain {c : Char} {cs : List Char} :
      c ≠ '\x22' → c ≠ '\\' → c ≠ '\n' → QuotedBody cs → QuotedBody (c :: cs)
  | escape (c : Char) {cs : List Char} : QuotedBody cs → QuotedBody ('\\' :: c :: cs)

/-- Decimal digits only. -/
def Digits (cs : List Char) : Prop :=
  ∀ c ∈ cs, Text.isDecimal c = true

/-- Digits, with a point after them, among them or before them. -/
inductive Decimal : List Char → Prop
  | whole {ds : List Char} : ds ≠ [] → Digits ds → Decimal ds
  | point {ds fs : List Char} : ds ≠ [] → Digits ds → Digits fs → Decimal (ds ++ '.' :: fs)
  | fraction {fs : List Char} : fs ≠ [] → Digits fs → Decimal ('.' :: fs)

/-- The signs that an exponent may have. -/
def IsSign (sign : List Char) : Prop :=
  sign = [] ∨ sign = ['+'] ∨ sign = ['-']

/-- Nothing, or a mark, an optional sign and digits. -/
inductive Exponent : List Char → Prop
  | none : Exponent []
  | some {mark : Char} {sign ds : List Char} : mark = 'e' ∨ mark = 'E' → IsSign sign →
      ds ≠ [] → Digits ds → Exponent (mark :: (sign ++ ds))

/-- The texts of a class of lexemes. -/
def LexemeKind.Spells : LexemeKind → List Char → Prop
  | blank, cs => cs ≠ [] ∧ ∀ c ∈ cs, Text.isBlank c = true
  | doc, cs => ∃ body, body.head? ≠ some '/' ∧ cs = '/' :: '*' :: '*' :: (body ++ ['*', '/'])
  | comment, cs => (∃ body, '\n' ∉ body ∧ cs = '/' :: '/' :: body) ∨
      ∃ body, cs = '/' :: '*' :: (body ++ ['*', '/'])
  | prop, cs => ∃ c rest, isNameStart c = true ∧ (∀ d ∈ rest, isPropPart d = true) ∧
      cs = '@' :: c :: rest
  | string, cs => ∃ body, QuotedBody body ∧ cs = '\x22' :: (body ++ ['\x22'])
  | number, cs => ∃ sign ds exponent, (sign = [] ∨ sign = ['-']) ∧ Decimal ds ∧ Exponent exponent ∧
      cs = sign ++ (ds ++ exponent)
  | escaped, cs => ∃ name, isPlainName name = true ∧ cs = '\x60' :: (name ++ ['\x60'])
  | ident, cs => Dotted cs
  | punct, cs => ∃ c ∈ punctMarks, cs = [c]

/-- Whether a text opens a block comment. -/
def opensBlock (cs : List Char) : Bool :=
  ['/', '*'].isPrefixOf cs

/-- The first text is chosen before the second: block comments are as short as possible, and all
else is as long as possible. -/
def ChosenOver (found other : List Char) : Prop :=
  if opensBlock found then found.length ≤ other.length else other.length ≤ found.length

/-- The length is that of the text of the class that is chosen, and zero if there is none. -/
structure Measures (kind : LexemeKind) (length : List Char → Nat) : Prop where
  spelled : ∀ cs, 0 < length cs → kind.Spells (cs.take (length cs))
  chosen : ∀ cs text, text <+: cs → kind.Spells text →
    0 < length cs ∧ ChosenOver (cs.take (length cs)) text

theorem chosenOver_take (hc : c ≠ '/') (hp : text <+: c :: cs) (hle : text.length ≤ n) :
    ChosenOver ((c :: cs).take n) text := by
  have hopens : opensBlock ((c :: cs).take n) = false := by
    cases n with
    | zero => rfl
    | succ n => simp [opensBlock, List.isPrefixOf, Ne.symm hc]
  have hlength := hp.length_le
  rw [ChosenOver, hopens, if_neg Bool.false_ne_true, length_take]
  omega

theorem chosenOver_block (hle : n + 2 ≤ text.length) :
    ChosenOver (('/' :: '*' :: cs).take (n + 2)) text := by
  rw [ChosenOver, if_pos (by rfl), length_take]
  omega

/-! ### First characters -/

/-- Ranges of code points that hold the first characters of a class. -/
def LexemeKind.firstCodes : LexemeKind → List (Nat × Nat)
  | blank => [(9, 13), (28, 32), (133, 133), (160, 160), (5760, 5760), (8192, 8287), (12288, 12288)]
  | doc => [(47, 47)]
  | comment => [(47, 47)]
  | prop => [(64, 64)]
  | string => [(34, 34)]
  | number => [(45, 46), (48, 57), (1632, 4249), (6112, 7257), (42528, 0x10FFFF)]
  | escaped => [(96, 96)]
  | ident => [(65, 90), (95, 95), (97, 122)]
  | punct => [(40, 41), (44, 44), (58, 63), (91, 91), (93, 93), (123, 123), (125, 125)]

/-- The character is in one of the ranges of the class. -/
def LexemeKind.Opens (kind : LexemeKind) (c : Char) : Prop :=
  ∃ r ∈ kind.firstCodes, r.1 ≤ c.toNat ∧ c.toNat ≤ r.2

instance (kind : LexemeKind) (c : Char) : Decidable (kind.Opens c) :=
  inferInstanceAs (Decidable (∃ r ∈ _, _ ∧ _))

theorem opens_blank (h : Text.isBlank c = true) : LexemeKind.blank.Opens c := by
  simp only [Text.isBlank, Bool.or_eq_true, Bool.and_eq_true, decide_eq_true_eq, beq_iff_eq] at h
  simp only [LexemeKind.Opens, LexemeKind.firstCodes, mem_cons, not_mem_nil, or_false,
    exists_eq_or_imp, exists_eq_left]
  omega

theorem opens_number (h : Text.isDecimal c = true) : LexemeKind.number.Opens c := by
  have hstarts : ∀ start ∈ Text.zeroDigits, ∃ r ∈ LexemeKind.number.firstCodes,
      r.1 ≤ start ∧ start + 9 ≤ r.2 := by decide
  rw [Text.isDecimal, Text.digitValue?, Option.isSome_map, find?_isSome] at h
  obtain ⟨start, hmem, hrange⟩ := h
  rw [Bool.and_eq_true, decide_eq_true_eq, decide_eq_true_eq] at hrange
  obtain ⟨r, hr, hlow, hhigh⟩ := hstarts start hmem
  exact ⟨r, hr, Nat.le_trans hlow hrange.1, Nat.le_trans hrange.2 hhigh⟩

theorem opens_ident (h : isNameStart c = true) : LexemeKind.ident.Opens c := by
  simp only [isNameStart, Bool.or_eq_true, Bool.and_eq_true, decide_eq_true_eq, Char.le_def,
    UInt32.le_iff_toNat_le] at h
  rcases h with (h | h) | rfl
  · exact ⟨(65, 90), by decide, h⟩
  · exact ⟨(97, 122), by decide, h⟩
  · exact ⟨(95, 95), by decide, by decide⟩

/-- A digit or a point comes next. -/
def Continues (cs : List Char) : Prop :=
  ∃ c, cs.head? = some c ∧ (Text.isDecimal c = true ∨ c = '.')

theorem Decimal.head (h : Decimal ds) : Continues ds := by
  cases h with
  | whole hne hd =>
    obtain ⟨d, ds, rfl⟩ := exists_cons_of_ne_nil hne
    exact ⟨d, rfl, .inl (hd d mem_cons_self)⟩
  | point hne hd hf =>
    obtain ⟨d, ds, rfl⟩ := exists_cons_of_ne_nil hne
    exact ⟨d, rfl, .inl (hd d mem_cons_self)⟩
  | fraction hne hf => exact ⟨'.', rfl, .inr rfl⟩

/-- What may continue an identifier: characters of names, and dots that a name follows. -/
inductive NameTail : List Char → Prop
  | nil : NameTail []
  | part {c : Char} {cs : List Char} : isNamePart c = true → NameTail cs → NameTail (c :: cs)
  | dot {c : Char} {cs : List Char} :
      isNameStart c = true → NameTail cs → NameTail ('.' :: c :: cs)

/-- The second part says the same of a text that starts with a name. -/
theorem nameTail_of_splitAtEach {first : List Char} {others : List (List Char)}
    (h : Text.splitAtEach '.' cs = first :: others)
    (hothers : ∀ part ∈ others, isPlainName part = true) :
    (first.all isNamePart = true → NameTail cs) ∧
    (isPlainName first = true → ∃ c rest,
      cs = c :: rest ∧ isNameStart c = true ∧ NameTail rest) := by
  induction cs generalizing first others with
  | nil =>
    cases h
    exact ⟨fun _ => .nil, fun he => nomatch he⟩
  | cons c cs ih =>
    obtain ⟨part, parts, hsplit⟩ := exists_cons_of_ne_nil (Text.splitAtEach_ne_nil '.' cs)
    rw [Text.splitAtEach] at h
    by_cases hdot : c = '.'
    · subst hdot
      cases h
      rw [hsplit] at hothers
      obtain ⟨hpart, hparts⟩ := forall_mem_cons.mp hothers
      obtain ⟨d, rest, rfl, hd, hrest⟩ := (ih hsplit hparts).2 hpart
      exact ⟨fun _ => .dot hd hrest, fun he => nomatch he⟩
    · rw [if_neg hdot, hsplit, Text.consFirst] at h
      cases h
      rw [all_cons, isPlainName, Bool.and_eq_true, Bool.and_eq_true]
      exact ⟨fun hc => .part hc.1 ((ih hsplit hothers).1 hc.2),
        fun hc => ⟨c, cs, rfl, hc.1, (ih hsplit hothers).1 hc.2⟩⟩

theorem nameTail_of_dotted (h : Dotted cs) :
    ∃ c rest, cs = c :: rest ∧ isNameStart c = true ∧ NameTail rest := by
  obtain ⟨part, parts, hsplit⟩ := exists_cons_of_ne_nil (Text.splitAtEach_ne_nil '.' cs)
  have hall : ∀ p ∈ part :: parts, isPlainName p = true := hsplit ▸ h
  obtain ⟨hpart, hparts⟩ := forall_mem_cons.mp hall
  exact (nameTail_of_splitAtEach hsplit hparts).2 hpart

theorem opens_of_spells {kind : LexemeKind} (h : kind.Spells cs) :
    ∃ c rest, cs = c :: rest ∧ kind.Opens c := by
  cases kind with
  | blank =>
    obtain ⟨c, rest, rfl⟩ := exists_cons_of_ne_nil h.1
    exact ⟨c, rest, rfl, opens_blank (h.2 c mem_cons_self)⟩
  | doc =>
    obtain ⟨body, -, rfl⟩ := h
    exact ⟨_, _, rfl, (47, 47), by decide⟩
  | comment =>
    rcases h with ⟨body, -, rfl⟩ | ⟨body, rfl⟩ <;> exact ⟨_, _, rfl, (47, 47), by decide⟩
  | prop =>
    obtain ⟨c, rest, -, -, rfl⟩ := h
    exact ⟨_, _, rfl, (64, 64), by decide⟩
  | string =>
    obtain ⟨body, -, rfl⟩ := h
    exact ⟨_, _, rfl, (34, 34), by decide⟩
  | number =>
    obtain ⟨sign, ds, exponent, rfl | rfl, hd, -, rfl⟩ := h
    · obtain ⟨c, hc, hdigit | rfl⟩ := hd.head <;> obtain ⟨ds, rfl⟩ := head?_eq_some_iff.mp hc
      · exact ⟨c, _, rfl, opens_number hdigit⟩
      · exact ⟨_, _, rfl, (45, 46), by decide⟩
    · exact ⟨_, _, rfl, (45, 46), by decide⟩
  | escaped =>
    obtain ⟨name, -, rfl⟩ := h
    exact ⟨_, _, rfl, (96, 96), by decide⟩
  | ident =>
    obtain ⟨c, rest, rfl, hc, -⟩ := nameTail_of_dotted h
    exact ⟨c, rest, rfl, opens_ident hc⟩
  | punct =>
    have hmarks : punctMarks.all (fun c => LexemeKind.punct.firstCodes.any fun r =>
        r.1 ≤ c.toNat && c.toNat ≤ r.2) = true := by decide
    obtain ⟨c, hc, rfl⟩ := h
    exact ⟨c, [], rfl, by simpa [LexemeKind.Opens] using all_eq_true.mp hmarks c hc⟩

/-- A class whose texts start with no slash is measured by a length that none of them exceeds. -/
theorem measures_of_length_le {kind : LexemeKind} {length : List Char → Nat}
    (hslash : ¬ kind.Opens '/') (hspelled : ∀ cs, 0 < length cs → kind.Spells (cs.take (length cs)))
    (hle : ∀ text after, kind.Spells text → text.length ≤ length (text ++ after)) :
    Measures kind length where
  spelled := hspelled
  chosen cs text hp hs := by
    obtain ⟨after, rfl⟩ := hp
    obtain ⟨c, rest, rfl, hc⟩ := opens_of_spells hs
    have hlength := hle _ after hs
    refine ⟨Nat.lt_of_lt_of_le (Nat.succ_pos _) hlength,
      chosenOver_take ?_ (prefix_append _ after) hlength⟩
    rintro rfl
    exact hslash hc

/-! ### Classes of single characters -/

theorem length_le_takeWhile {p : Char → Bool} (hall : ∀ c ∈ text, p c = true) (after : List Char) :
    text.length ≤ ((text ++ after).takeWhile p).length := by
  rw [takeWhile_append_of_pos hall, length_append]
  omega

theorem take_length_takeWhile (p : Char → Bool) (cs : List Char) :
    cs.take (cs.takeWhile p).length = cs.takeWhile p :=
  (prefix_iff_eq_take.mp (List.takeWhile_prefix p)).symm

theorem measures_blank : Measures .blank blankLength := by
  refine measures_of_length_le (by decide) (fun cs h => ?_) fun text after h =>
    length_le_takeWhile h.2 after
  rw [blankLength] at h ⊢
  rw [take_length_takeWhile]
  exact ⟨ne_nil_of_length_pos h, fun c hc => mem_takeWhile_imp hc⟩

theorem measures_prop : Measures .prop propLength := by
  refine measures_of_length_le (by decide) (fun cs => ?_) ?_
  · fun_cases propLength cs with
    | case1 c rest hc =>
      intro _
      rw [take_succ_cons, take_succ_cons, take_length_takeWhile]
      exact ⟨c, _, hc, fun d hd => mem_takeWhile_imp hd, rfl⟩
    | case2 | case3 => simp
  · rintro _ after ⟨c, rest, hc, hrest, rfl⟩
    simpa [propLength, hc] using length_le_takeWhile hrest after

theorem measures_punct : Measures .punct punctLength := by
  refine measures_of_length_le (by decide) (fun cs => ?_) ?_
  · fun_cases punctLength cs with
    | case1 c rest hc => exact fun _ => ⟨c, contains_iff_mem.mp hc, rfl⟩
    | case2 | case3 => simp
  · rintro _ after ⟨c, hc, rfl⟩
    rw [cons_append, punctLength, if_pos (contains_iff_mem.mpr hc)]
    exact Nat.le_refl 1

/-! ### Comments -/

/-- A block ends with an end mark. -/
theorem take_blockLength (h : blockLength cs = some n) :
    ∃ body, cs.take n = body ++ ['*', '/'] := by
  fun_induction blockLength cs generalizing n with
  | case1 => cases h
  | case2 rest =>
    cases h
    exact ⟨[], rfl⟩
  | case3 c rest _ ih =>
    obtain ⟨m, hm, rfl⟩ := Option.map_eq_some_iff.mp h
    obtain ⟨body, hbody⟩ := ih hm
    exact ⟨c :: body, by rw [take_succ_cons, hbody]; rfl⟩

theorem blockLength_cons (c : Char) (cs : List Char) : blockLength (c :: cs) = some 2 ∨
    blockLength (c :: cs) = (blockLength cs).map (· + 1) := by
  rw [blockLength.eq_def]
  grind

/-- It ends at the first of them. -/
theorem blockLength_le (body after : List Char) :
    ∃ n, blockLength (body ++ ['*', '/'] ++ after) = some n ∧ n ≤ body.length + 2 := by
  induction body with
  | nil => exact ⟨2, rfl, Nat.le_refl _⟩
  | cons c body ih =>
    obtain ⟨n, hn, hle⟩ := ih
    rcases blockLength_cons c (body ++ ['*', '/'] ++ after) with h | h
    · exact ⟨2, h, by simp⟩
    · exact ⟨n + 1, by rw [cons_append, cons_append, h, hn]; rfl, by simpa using hle⟩

theorem measures_doc : Measures .doc docLength where
  spelled cs := by
    fun_cases docLength cs with
    | case2 rest hslash n hn =>
      intro _
      obtain ⟨body, hbody⟩ := take_blockLength hn
      refine ⟨body, fun hhead => hslash ?_, by simp [hbody]⟩
      obtain ⟨after, rfl⟩ : body ++ ['*', '/'] <+: rest := hbody ▸ take_prefix n rest
      rw [append_assoc, head?_append, hhead, Option.some_or]
    | case1 | case3 | case4 => simp
  chosen cs text hp hs := by
    obtain ⟨body, hbody, rfl⟩ := hs
    obtain ⟨after, rfl⟩ := hp
    obtain ⟨n, hn, hle⟩ := blockLength_le body after
    have hslash : (body ++ ['*', '/'] ++ after).head? ≠ some '/' := by
      cases body with
      | nil => simp
      | cons c body => simpa using hbody
    simp only [cons_append, docLength, if_neg hslash, hn]
    exact ⟨by omega, chosenOver_block (by simp; omega)⟩

theorem measures_comment : Measures .comment commentLength where
  spelled cs := by
    fun_cases commentLength cs with
    | case1 rest =>
      intro _
      rw [take_succ_cons, take_succ_cons, take_length_takeWhile]
      refine .inl ⟨_, fun hm => ?_, rfl⟩
      simpa using mem_takeWhile_imp hm
    | case2 rest n hn =>
      intro _
      obtain ⟨body, hbody⟩ := take_blockLength hn
      exact .inr ⟨body, by simp [hbody]⟩
    | case3 | case4 => simp
  chosen cs text hp hs := by
    obtain ⟨after, rfl⟩ := hp
    rcases hs with ⟨body, hline, rfl⟩ | ⟨body, rfl⟩
    · have hle := length_le_takeWhile (p := (· ≠ '\n'))
        (fun c hc => decide_eq_true fun he => hline (he ▸ hc)) after
      simp only [cons_append, commentLength, take_succ_cons]
      refine ⟨by omega, ?_⟩
      rw [ChosenOver, if_neg (by simp [opensBlock]), take_length_takeWhile]
      simpa using hle
    · obtain ⟨n, hn, hle⟩ := blockLength_le body after
      simp only [cons_append, commentLength, hn]
      exact ⟨by omega, chosenOver_block (by simp; omega)⟩

/-! ### Strings -/

/-- A string ends at its first quote that no backslash takes. -/
theorem quotedLength_append {body : List Char} (h : QuotedBody body) (rest : List Char) :
    quotedLength (body ++ ['\x22'] ++ rest) = some (body.length + 1) := by
  induction h with
  | nil => rfl
  | plain hquote hslash hline _ ih =>
    rw [cons_append, cons_append, quotedLength, if_neg hline, ih]
    · rfl
    · exact fun he => hquote he
    · exact fun he _ => hslash he
    · exact fun _ _ he _ => hslash he
  | escape c _ ih =>
    simp only [cons_append, quotedLength, ih]
    rfl

theorem take_quotedLength (h : quotedLength cs = some n) :
    ∃ body, QuotedBody body ∧ cs.take n = body ++ ['\x22'] := by
  fun_induction quotedLength cs generalizing n with
  | case1 => cases h
  | case2 rest =>
    cases h
    exact ⟨[], .nil, rfl⟩
  | case3 => cases h
  | case4 c rest ih =>
    obtain ⟨m, hm, rfl⟩ := Option.map_eq_some_iff.mp h
    obtain ⟨body, hbody, htake⟩ := ih hm
    exact ⟨_, .escape c hbody, by simp [htake]⟩
  | case5 => cases h
  | case6 c rest hquote hone hslash hline ih =>
    obtain ⟨m, hm, rfl⟩ := Option.map_eq_some_iff.mp h
    obtain ⟨body, hbody, htake⟩ := ih hm
    refine ⟨_, .plain (fun he => hquote he) ?_ hline hbody, by simp [htake]⟩
    rintro rfl
    cases rest with
    | nil => exact hone rfl rfl
    | cons d rest => exact hslash d rest rfl rfl

theorem measures_string : Measures .string stringLength := by
  refine measures_of_length_le (by decide) (fun cs => ?_) ?_
  · fun_cases stringLength cs with
    | case1 rest n hn =>
      intro _
      obtain ⟨body, hbody, htake⟩ := take_quotedLength hn
      exact ⟨body, hbody, by simp [htake]⟩
    | case2 | case3 => simp
  · rintro _ after ⟨body, hbody, rfl⟩
    simp only [cons_append, stringLength, quotedLength_append hbody]
    simp

/-! ### Numbers -/

theorem digitsLength_append (h : Digits ds) (after : List Char) :
    digitsLength (ds ++ after) = ds.length + digitsLength after := by
  rw [digitsLength, takeWhile_append_of_pos h, length_append, digitsLength]

theorem digits_take (cs : List Char) : Digits (cs.take (digitsLength cs)) := by
  rw [digitsLength, take_length_takeWhile]
  exact fun c hc => mem_takeWhile_imp hc

theorem length_take_digitsLength (cs : List Char) :
    (cs.take (digitsLength cs)).length = digitsLength cs := by
  rw [digitsLength, take_length_takeWhile]

theorem continues_of_digitsLength (h : digitsLength cs ≠ 0) : Continues cs := by
  cases cs with
  | nil => exact absurd rfl h
  | cons c cs =>
    refine ⟨c, rfl, .inl ?_⟩
    by_contra hc
    exact h (by rw [digitsLength, takeWhile_cons_of_neg hc]; rfl)

/-- Digits and a point are as long as possible: a longer text goes on with one of them. -/
theorem decimalLength_append (h : Decimal ds) (after : List Char) :
    decimalLength (ds ++ after) = ds.length ∨
      ds.length ≤ decimalLength (ds ++ after) ∧ Continues after := by
  have hpoint : ∀ cs, digitsLength ('.' :: cs) = 0 := fun cs => rfl
  have hdigits : decimalLength (ds ++ after) = ds.length + digitsLength after →
      decimalLength (ds ++ after) = ds.length ∨
        ds.length ≤ decimalLength (ds ++ after) ∧ Continues after := by
    intro hlength
    by_cases hmore : digitsLength after = 0
    · exact .inl (by omega)
    · exact .inr ⟨by omega, continues_of_digitsLength hmore⟩
  cases h with
  | whole hne hd =>
    rw [decimalLength, digitsLength_append hd, drop_length_add_append] at hdigits ⊢
    split at hdigits
    · next rest hdrop =>
      dsimp only
      rw [if_neg (by simp [hne])]
      refine .inr ⟨by omega, ?_⟩
      by_cases hmore : digitsLength after = 0
      · rw [hmore, drop_zero] at hdrop
        exact ⟨'.', by rw [hdrop]; rfl, .inr rfl⟩
      · exact continues_of_digitsLength hmore
    · exact hdigits rfl
  | point hne hd hf =>
    refine hdigits ?_
    rw [append_assoc, decimalLength, digitsLength_append hd, cons_append, hpoint]
    simp [digitsLength_append hf, hne]
    omega
  | fraction hne hf =>
    refine hdigits ?_
    rw [cons_append, decimalLength, hpoint]
    simp [digitsLength_append hf, hne]
    omega

theorem decimal_take : 0 < decimalLength cs → Decimal (cs.take (decimalLength cs)) := by
  have hwhole := length_take_digitsLength cs
  fun_cases decimalLength cs with
  | case1 => simp
  | case2 whole rest hdrop fraction hsome =>
    intro _
    have hfraction := length_take_digitsLength rest
    rw [Nat.add_assoc, take_add, hdrop, take_succ_cons]
    by_cases hnil : cs.take (digitsLength cs) = []
    · rw [hnil] at hwhole ⊢
      refine .fraction (fun he => ?_) (digits_take rest)
      rw [he] at hfraction
      simp [whole, fraction, ← hwhole, ← hfraction] at hsome
    · exact .point hnil (digits_take cs) (digits_take rest)
  | case3 whole =>
    refine fun h => .whole (fun he => ?_) (digits_take cs)
    rw [he] at hwhole
    exact absurd hwhole (Nat.ne_of_lt h)

theorem exponent_digits {mark : Char} {sign : List Char} (hmark : mark = 'e' ∨ mark = 'E')
    (hsign : IsSign sign) (cs : List Char) : Exponent ((mark :: (sign ++ cs)).take
      (if digitsLength cs = 0 then 0 else digitsLength cs + sign.length + 1)) := by
  have hlength := length_take_digitsLength cs
  by_cases hsome : digitsLength cs = 0
  · rw [if_pos hsome]
    exact .none
  · rw [if_neg hsome, take_succ_cons, Nat.add_comm, take_length_add_append]
    refine .some hmark hsign (fun he => hsome ?_) (digits_take cs)
    rw [← hlength, he, length_nil]

theorem exponent_take (cs : List Char) : Exponent (cs.take (exponentLength cs)) := by
  unfold exponentLength
  cases cs with
  | nil => exact .none
  | cons c cs =>
    by_cases hmark : (c = 'e' || c = 'E') = true
    · dsimp only
      rw [if_pos hmark]
      rw [Bool.or_eq_true, decide_eq_true_iff, decide_eq_true_iff] at hmark
      split
      · exact exponent_digits hmark (.inr (.inl rfl)) _
      · exact exponent_digits hmark (.inr (.inr rfl)) _
      · exact exponent_digits hmark (.inl rfl) _
    · dsimp only
      rw [if_neg hmark]
      exact .none

theorem exponentLength_append (h : Exponent exponent) (after : List Char) :
    exponent.length ≤ exponentLength (exponent ++ after) := by
  cases h with
  | none => exact Nat.zero_le _
  | @some mark sign ds hmark hsign hne hd =>
    have hlength := digitsLength_append hd after
    have hpos := length_pos_iff.mpr hne
    have hmark' : (decide (mark = 'e') || decide (mark = 'E')) = true := by simpa using hmark
    suffices exponentLength (mark :: (sign ++ (ds ++ after))) =
        digitsLength (ds ++ after) + sign.length + 1 by
      rw [cons_append, append_assoc, this, length_cons, length_append]
      omega
    unfold exponentLength
    dsimp only
    rw [if_pos hmark']
    rcases hsign with rfl | rfl | rfl
    · obtain ⟨d, ds, rfl⟩ := exists_cons_of_ne_nil hne
      have hdigit := hd d mem_cons_self
      have hplus : d ≠ '+' := by
        rintro rfl
        cases hdigit
      have hminus : d ≠ '-' := by
        rintro rfl
        cases hdigit
      simp_all
    · exact if_neg (show ¬ digitsLength (ds ++ after) = 0 by omega)
    · exact if_neg (show ¬ digitsLength (ds ++ after) = 0 by omega)

theorem Continues.ne (h : Continues cs) (hc : Text.isDecimal c = false) (hp : c ≠ '.') :
    cs.head? ≠ some c := by
  obtain ⟨d, hd, hdigit | rfl⟩ := h
  · rintro he
    rw [he] at hd
    cases hd
    rw [hc] at hdigit
    cases hdigit
  · rw [hd]
    exact fun he => hp (Option.some.inj he).symm

/-- An exponent does not go on with a digit or a point. -/
theorem Exponent.eq_nil {after : List Char} (h : Exponent exponent)
    (hc : Continues (exponent ++ after)) : exponent = [] := by
  cases h with
  | none => rfl
  | some hmark =>
    rcases hmark with rfl | rfl
    · exact absurd rfl (hc.ne (by decide) (by decide))
    · exact absurd rfl (hc.ne (by decide) (by decide))

theorem numberLength_minus (cs : List Char) : numberLength ('-' :: cs) =
    if decimalLength cs = 0 then 0
    else 1 + decimalLength cs + exponentLength (cs.drop (decimalLength cs)) := by
  rw [numberLength]
  simp only [Nat.add_comm 1, drop_succ_cons, drop_zero]

theorem numberLength_plain (h : cs.head? ≠ some '-') : numberLength cs =
    if decimalLength cs = 0 then 0
    else decimalLength cs + exponentLength (cs.drop (decimalLength cs)) := by
  unfold numberLength
  split
  · exact absurd rfl h
  · simp only [drop_zero, Nat.zero_add]

theorem take_number (h : decimalLength cs ≠ 0) : ∃ ds exponent, Decimal ds ∧
    Exponent exponent ∧
    cs.take (decimalLength cs + exponentLength (cs.drop (decimalLength cs))) = ds ++ exponent :=
  ⟨_, _, decimal_take (Nat.pos_of_ne_zero h), exponent_take _, take_add⟩

/-- A decimal and an exponent are as long as possible. -/
theorem length_le_number (hd : Decimal ds) (he : Exponent exponent) (after : List Char) :
    let cs := ds ++ (exponent ++ after)
    decimalLength cs ≠ 0 ∧ ds.length + exponent.length ≤
      decimalLength cs + exponentLength (cs.drop (decimalLength cs)) := by
  have hpos : ds.length ≠ 0 := by
    obtain ⟨c, hc, -⟩ := hd.head
    cases ds with
    | nil => cases hc
    | cons => simp
  rcases decimalLength_append hd (exponent ++ after) with hlength | ⟨hle, hnext⟩
  · have hexp := exponentLength_append he after
    dsimp only
    rw [hlength, drop_left]
    exact ⟨hpos, Nat.add_le_add_left hexp _⟩
  · rw [he.eq_nil hnext] at hle ⊢
    exact ⟨by omega, by simp only [length_nil]; omega⟩

theorem measures_number : Measures .number numberLength := by
  refine measures_of_length_le (by decide) (fun cs h => ?_) ?_
  · by_cases hsign : cs.head? = some '-'
    · obtain ⟨rest, rfl⟩ := head?_eq_some_iff.mp hsign
      rw [numberLength_minus] at h ⊢
      have hsome : decimalLength rest ≠ 0 := fun he => by simp [he] at h
      obtain ⟨ds, exponent, hd, he, htake⟩ := take_number hsome
      refine ⟨['-'], ds, exponent, .inr rfl, hd, he, ?_⟩
      rw [if_neg hsome, Nat.add_assoc, Nat.add_comm, take_succ_cons, htake]
      rfl
    · rw [numberLength_plain hsign] at h ⊢
      have hsome : decimalLength cs ≠ 0 := fun he => by simp [he] at h
      obtain ⟨ds, exponent, hd, he, htake⟩ := take_number hsome
      exact ⟨[], ds, exponent, .inl rfl, hd, he, by rw [if_neg hsome, htake]; rfl⟩
  · rintro _ after ⟨sign, ds, exponent, hsign, hd, he, rfl⟩
    obtain ⟨hsome, hle⟩ := length_le_number hd he after
    rcases hsign with rfl | rfl
    · have hminus : (ds ++ (exponent ++ after)).head? ≠ some '-' := by
        obtain ⟨c, hc, -⟩ := hd.head
        rw [head?_append, hc, Option.some_or, ← hc]
        exact hd.head.ne (by decide) (by decide)
      rw [nil_append, append_assoc, numberLength_plain hminus, if_neg hsome, length_append]
      exact hle
    · rw [cons_append, nil_append, cons_append, append_assoc, numberLength_minus, if_neg hsome,
        length_cons, length_append]
      omega

/-! ### Names -/

theorem escapedLength_append {name : List Char} (h : isPlainName name = true) (after : List Char) :
    escapedLength ('\x60' :: (name ++ '\x60' :: after)) = name.length + 2 := by
  cases name with
  | nil => cases h
  | cons c rest =>
    rw [isPlainName, Bool.and_eq_true] at h
    have htake : (rest ++ '\x60' :: after).takeWhile isNamePart = rest := by
      rw [takeWhile_append_of_pos (all_eq_true.mp h.2), takeWhile_cons_of_neg (by decide),
        append_nil]
    simp [escapedLength, htake, h.1]

theorem measures_escaped : Measures .escaped escapedLength := by
  refine measures_of_length_le (by decide) (fun cs => ?_) ?_
  · fun_cases escapedLength cs with
    | case1 c rest taken hc =>
      intro _
      rw [Bool.and_eq_true, decide_eq_true_eq] at hc
      obtain ⟨after, hdrop⟩ := head?_eq_some_iff.mp hc.2
      have hrest : rest = rest.takeWhile isNamePart ++ '\x60' :: after := by
        rw [← hdrop]
        exact prefix_iff_eq_append.mp (List.takeWhile_prefix isNamePart) |>.symm
      generalize hpart : rest.takeWhile isNamePart = part at hrest
      subst hrest
      refine ⟨c :: part, ?_, ?_⟩
      · rw [isPlainName, hc.1, ← hpart, all_takeWhile, Bool.and_self]
      · simp [taken, hpart, take_append, take_of_length_le]
    | case2 | case3 => simp
  · rintro _ after ⟨name, hname, rfl⟩
    simp [escapedLength_append hname]

/-- What continues an identifier is as long as possible. -/
theorem length_le_identTail (h : NameTail text) (after : List Char) :
    text.length ≤ identTail (text ++ after) := by
  induction h with
  | nil => exact Nat.zero_le _
  | part hc _ ih =>
    rw [cons_append, identTail, if_pos hc]
    · exact Nat.succ_le_succ ih
    · rintro _ _ rfl
      cases hc
  | dot hc _ ih => simpa [identTail, hc] using ih

theorem measures_ident : Measures .ident identLength := by
  refine measures_of_length_le (by decide) (fun cs h => ?_) fun text after h => ?_
  · cases cs with
    | nil => cases h
    | cons c rest =>
      obtain ⟨more, hmore⟩ := Nat.exists_eq_succ_of_ne_zero (Nat.ne_of_gt h)
      rw [hmore, take_succ_cons]
      exact dotted_ident hmore
  · obtain ⟨c, rest, rfl, hc, hrest⟩ := nameTail_of_dotted h
    simpa [identLength, hc] using length_le_identTail hrest after

/-! ### All classes -/

theorem measures_of_mem {kind : LexemeKind} {length : List Char → Nat}
    (h : (kind, length) ∈ classes) : Measures kind length := by
  simp only [classes, mem_cons, Prod.mk.injEq, not_mem_nil, or_false] at h
  rcases h with ⟨rfl, rfl⟩ | ⟨rfl, rfl⟩ | ⟨rfl, rfl⟩ | ⟨rfl, rfl⟩ | ⟨rfl, rfl⟩ | ⟨rfl, rfl⟩ |
    ⟨rfl, rfl⟩ | ⟨rfl, rfl⟩ | ⟨rfl, rfl⟩
  exacts [measures_blank, measures_doc, measures_comment, measures_prop, measures_string,
    measures_number, measures_escaped, measures_ident, measures_punct]

end Avroc.Idl
