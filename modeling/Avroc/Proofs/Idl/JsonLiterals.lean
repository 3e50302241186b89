import Avroc.Proofs.Idl.Textual
import Avroc.Proofs.Idl.Words
import Avroc.Proofs.Json.Text

/-!
# JSON values as literals

The text of a JSON value is a literal of the definition language: its tokens are those of a value,
and reading them gives the value back.

* `jsonValue_render` : **the text of a value is read back as that value, up to the end of the
  text.**
-/

namespace Avroc

open List

variable {v : Json} {text : Json → List Char} {t : Token} {w : Word} {cs digits : List Char}
  {c : Char} {x : Binary64} {ts ts' : List Token} {closing : String}

/-- A value that has a literal: its whole numbers are not too long, its floating point numbers are
finite and read back from their texts, and no object has a key twice. -/
inductive Json.Expressible : Json → Prop
  | null : Expressible .null
  | bool (b : Bool) : Expressible (.bool b)
  | int {n : Int} : n.natAbs < Nat.pow 10 maxDigits → Expressible (.int n)
  | real {x : Binary64} : x.isFinite = true → readDecimal (x.text jsonDecimals).toList = x →
      Expressible (.real x)
  | string (s : String) : Expressible (.string s)
  | array {items : List Json} : (∀ v ∈ items, Expressible v) → Expressible (.array items)
  | object {members : List (String × Json)} : (members.map (·.1)).Nodup →
      (∀ m ∈ members, Expressible m.2) → Expressible (.object members)

namespace Idl

/-! ### Strings -/

theorem QuotedBody.append {ds : List Char} (h : QuotedBody cs) (h' : QuotedBody ds) :
    QuotedBody (cs ++ ds) := by
  induction h with
  | nil => exact h'
  | plain hquote hslash hline _ ih => exact .plain hquote hslash hline ih
  | escape c _ ih => exact .escape c ih

theorem quotedBody_unitEscape {n : Nat} (h : n < 0x10000) : QuotedBody (Json.unitEscape n) := by
  have hdigit : ∀ d < 16, Nat.digitChar d ≠ '\x22' ∧ Nat.digitChar d ≠ '\\' ∧
      Nat.digitChar d ≠ '\n' := by decide
  have hplain : ∀ {d : Nat} {cs : List Char}, d < 16 → QuotedBody cs →
      QuotedBody (Nat.digitChar d :: cs) :=
    fun hd hcs => .plain (hdigit _ hd).1 (hdigit _ hd).2.1 (hdigit _ hd).2.2 hcs
  rw [Json.unitEscape, Json.hex_four h]
  exact .escape 'u' (hplain (by omega) (hplain (by omega) (hplain (by omega)
    (hplain (by omega) .nil))))

theorem quotedBody_escapeChar (c : Char) : QuotedBody (Json.escapeChar c) := by
  rcases Json.escapeChar_cases c with ⟨d, hc, -⟩ | ⟨hc, hquote, hslash, hlow⟩ | ⟨hc, hlt⟩ |
      ⟨n, hn, -, hc⟩ <;> rw [hc]
  · exact .escape d .nil
  · refine .plain hquote hslash ?_ .nil
    rintro rfl
    exact absurd hlow (by decide)
  · exact quotedBody_unitEscape hlt
  · exact (quotedBody_unitEscape (by omega)).append (quotedBody_unitEscape (by omega))

theorem spells_renderString (s : String) :
    LexemeKind.string.Spells (Json.renderString s).toList := by
  refine ⟨s.toList.flatMap Json.escapeChar, ?_, by simp [Json.renderString]⟩
  induction s.toList with
  | nil => exact .nil
  | cons c cs ih => exact (quotedBody_escapeChar c).append ih

/-! ### Numbers -/

theorem digits_toDigits (n : Nat) : Digits (Nat.toDigits 10 n) := by
  intro c hc
  rw [Text.isDecimal, Json.digitValue?_of_isPlainDigit (Json.isPlainDigit_of_mem hc)]
  rfl

theorem spells_toString (n : Int) : LexemeKind.number.Spells (toString n).toList := by
  obtain ⟨sign, hsign, htext, -⟩ := Json.exists_sign_toString n
  exact ⟨sign, _, [], hsign, .whole Nat.toDigits_ne_nil (digits_toDigits _), .none,
    by simpa using htext⟩

/-- A point or an exponent makes a number no whole one. -/
theorem isWhole_eq_false (hc : c ∈ cs) (hsign : c ≠ '-') (hd : Text.isDecimal c = false) :
    isWhole cs = false := by
  have hmem : c ∈ (splitSign cs).2 := by
    unfold splitSign
    split
    · exact mem_of_ne_of_mem hsign hc
    · exact hc
  rw [isWhole, Bool.and_eq_false_iff]
  refine .inr (all_eq_false.mpr ⟨c, hmem, ?_⟩)
  rw [hd]
  exact Bool.false_ne_true

/-- Digits with a point among them, and maybe an exponent, or one digit with an exponent. -/
structure IsReal (cs : List Char) : Prop where
  spelled : ∃ ds exponent, Decimal ds ∧ Exponent exponent ∧ cs = ds ++ exponent
  marked : ∃ c ∈ cs, c = '.' ∨ c = 'e'

theorem isReal_positional (hd : Digits digits) (place : Int) :
    IsReal (DecimalLayout.positional digits place) := by
  have hzeros : ∀ n, Digits (List.replicate n '0') := by
    intro n c hc
    rw [eq_of_mem_replicate hc]
    rfl
  have happend : ∀ {cs ds : List Char}, Digits cs → Digits ds → Digits (cs ++ ds) :=
    fun h h' => forall_mem_append.mpr ⟨h, h'⟩
  have hpoint : ∀ {cs ds : List Char}, cs ≠ [] → Digits cs → Digits ds →
      IsReal (cs ++ '.' :: ds) := fun hne h h' =>
    ⟨⟨_, [], .point hne h h', .none, by simp⟩, '.', by simp, .inl rfl⟩
  unfold DecimalLayout.positional
  split
  · exact hpoint (cons_ne_nil '0' []) (hzeros 1) (happend (hzeros _) hd)
  · rename_i hpos
    split
    · refine hpoint (fun he => ?_) (happend hd (hzeros _)) (hzeros 1)
      have hlength := congrArg List.length he
      simp only [length_append, length_replicate, length_nil] at hlength
      omega
    · rename_i hlt
      rw [append_assoc]
      refine hpoint (fun he => ?_) (fun c hc => hd c (mem_of_mem_take hc))
        fun c hc => hd c (mem_of_mem_drop hc)
      have hlength := congrArg List.length he
      simp only [length_take, length_nil] at hlength
      omega

theorem isReal_scientific (hd : Digits digits) (hne : digits ≠ []) (power : Int) :
    IsReal (DecimalLayout.scientific digits power) := by
  have hexponent : Exponent ('e' :: DecimalLayout.exponentText power) := by
    have hdigits : ∀ {ds : List Char}, ds ≠ [] → Digits ds →
        Exponent ('e' :: (if power < 0 then '-' else '+') :: ds) := by
      intro ds hne hds
      split
      · exact .some (.inl rfl) (show IsSign ['-'] from .inr (.inr rfl)) hne hds
      · exact .some (.inl rfl) (show IsSign ['+'] from .inr (.inl rfl)) hne hds
    have hpower := digits_toDigits power.natAbs
    refine hdigits ?_ ?_
    · split
      · exact cons_ne_nil _ _
      · exact Nat.toDigits_ne_nil
    · split
      · exact forall_mem_cons.mpr ⟨by rfl, hpower⟩
      · exact hpower
  have hmantissa : ∀ ds, Decimal ds → IsReal (ds ++ ['e'] ++ DecimalLayout.exponentText power) := by
    intro ds hds
    rw [append_assoc]
    exact ⟨⟨ds, _, hds, hexponent, rfl⟩, 'e', by simp, .inr rfl⟩
  cases digits with
  | nil => exact absurd rfl hne
  | cons d rest =>
    obtain ⟨hfirst, hrest⟩ := forall_mem_cons.mp hd
    have hone : Digits [d] := forall_mem_singleton.mpr hfirst
    cases rest with
    | nil => exact hmantissa [d] (.whole (cons_ne_nil _ _) hone)
    | cons d' rest =>
      exact hmantissa ([d] ++ '.' :: d' :: rest) (.point (cons_ne_nil _ _) hone hrest)

theorem digits_significant (n : Nat) :
    Digits (((Nat.toDigits 10 n).reverse.dropWhile (· = '0')).reverse) := fun c hc =>
  digits_toDigits n c (mem_reverse.mp
    ((dropWhile_suffix _).subset (mem_reverse.mp hc)))

theorem isReal_decimal {layout : DecimalLayout} {digits : Nat} {power : Int}
    (h : ∀ rest, layout.decimal digits power ≠ 'e' :: rest) :
    IsReal (layout.decimal digits power) := by
  unfold DecimalLayout.decimal at h ⊢
  dsimp only at h ⊢
  split
  · exact isReal_positional (digits_significant digits) _
  · rename_i hplace
    refine isReal_scientific (digits_significant digits) (fun hnil => ?_) _
    rw [if_neg hplace, hnil] at h
    exact h _ rfl

/-- An exponent alone is read as zero. -/
theorem exists_readDecimal_exponent {sign : List Char} (hsign : sign = [] ∨ sign = ['-'])
    (rest : List Char) : ∃ negative, readDecimal (sign ++ 'e' :: rest) = .finite negative 0 0 := by
  have htake : ('e' :: rest).takeWhile Text.isDecimal = [] :=
    takeWhile_cons_of_neg (by decide)
  have hsize : (splitSign (sign ++ 'e' :: rest)).2 = 'e' :: rest := by
    rcases hsign with rfl | rfl <;> rfl
  refine ⟨(splitSign (sign ++ 'e' :: rest)).1, ?_⟩
  simp [readDecimal, hsize, htake, Text.decimalValue, Binary64.ofDecimal]

theorem exists_sign_text (negative : Bool) (mantissa : Nat) (exponent : Int) :
    ∃ sign digits power, (sign = [] ∨ sign = ['-']) ∧
      ((Binary64.finite negative mantissa exponent).text jsonDecimals).toList =
        sign ++ if mantissa = 0 then "0.0".toList else jsonDecimals.decimal digits power := by
  rcases hdigits : Binary64.shortestDigits mantissa exponent with ⟨digits, power⟩
  refine ⟨if negative then ['-'] else [], digits, power, ?_, ?_⟩
  · split
    · exact .inr rfl
    · exact .inl rfl
  · rw [Binary64.text, hdigits, String.toList_append]
    congr 1
    · cases negative <;> rfl
    · split
      · rfl
      · exact String.toList_ofList

/-- A finite number that is read back from its text has some digits, so that its text is a
number. -/
theorem spells_text (hf : x.isFinite = true) (h : readDecimal (x.text jsonDecimals).toList = x) :
    LexemeKind.number.Spells (x.text jsonDecimals).toList ∧
      isWhole (x.text jsonDecimals).toList = false := by
  cases x with
  | nan => cases hf
  | infinity => cases hf
  | finite negative mantissa exponent =>
    obtain ⟨sign, digits, power, hsign, htext⟩ := exists_sign_text negative mantissa exponent
    rw [htext] at h ⊢
    have hreal : IsReal
        (if mantissa = 0 then "0.0".toList else jsonDecimals.decimal digits power) := by
      split
      · exact isReal_positional (show Digits [] from forall_mem_nil _) 1
      · rename_i hsome
        refine isReal_decimal fun rest hrest => ?_
        obtain ⟨negative', hzero⟩ := exists_readDecimal_exponent hsign rest
        rw [if_neg hsome, hrest, hzero] at h
        exact hsome (Binary64.finite.inj h).2.1.symm
    generalize (if mantissa = 0 then "0.0".toList else jsonDecimals.decimal digits power) = size
      at hreal ⊢
    obtain ⟨⟨ds, exponent, hd, he, rfl⟩, c, hc, hmark⟩ := hreal
    refine ⟨⟨sign, ds, exponent, hsign, hd, he, rfl⟩, ?_⟩
    have hmem : c ∈ sign ++ (ds ++ exponent) := mem_append_right _ hc
    rcases hmark with rfl | rfl
    · exact isWhole_eq_false hmem (by decide) (by rfl)
    · exact isWhole_eq_false hmem (by decide) (by rfl)

/-! ### Reading words -/

/-- The word of a mark. -/
def Word.mark (text : String) : Word :=
  ⟨.punct, text, false⟩

/-- Whether the word closes a list. -/
def Word.closes (w : Word) : Bool :=
  w.kind = .punct && (w.value = "]" || w.value = "\x7d")

theorem words?_mark (hc : c ∈ punctMarks) (rest : List Char) :
    words? (c :: rest) = (words? rest).map (.mark (String.ofList [c]) :: ·) :=
  words?_append (l := ⟨.punct, [c]⟩) ⟨c, hc, rfl⟩ rfl (.inl rfl)

theorem isPunct_of_word (h : t.word = w) (mark : String) :
    t.isPunct mark = (w.kind = .punct && w.value = mark) := by
  rw [← h]
  rfl

theorem reads_peek (t : Token) (ts : List Token) : Reads peek (t :: ts) t (t :: ts) :=
  ⟨.refl _, fun c hc => yields_peek.mpr ⟨by rw [hc]; rfl, by rw [← hc]⟩⟩

/-- A word is passed. -/
theorem reads_next (h : t.word = w) (hw : w.kind ≠ .eof) (ts : List Token) :
    Reads next (t :: ts) t ts := by
  have hkind : t.kind ≠ .eof := by
    rw [← h] at hw
    exact hw
  refine ⟨⟨[t], rfl, forall_mem_singleton.mpr hkind⟩, fun c hc => ?_⟩
  exact yields_next.mpr ⟨by rw [hc]; rfl, by rw [hc, advance, if_neg hkind]⟩

theorem reads_atPunct (h : t.word = w) (mark : String) (ts : List Token) :
    Reads (atPunct mark) (t :: ts) (w.kind = .punct && w.value = mark) (t :: ts) :=
  (reads_peek t ts).bind (isPunct_of_word h mark ▸ .pure _ _)

theorem reads_expectPunct {mark : String} (h : t.word = .mark mark) (ts : List Token) :
    Reads (expectPunct mark) (t :: ts) ⟨⟩ ts := by
  refine (reads_peek t ts).bind ?_
  rw [isPunct_of_word h, if_pos (by simp [Word.mark])]
  exact (reads_next h (by simp [Word.mark]) ts).discard

theorem reads_stringLiteral {s : String} (h : t.word = ⟨.string, Json.renderString s, false⟩)
    (ts : List Token) : Reads stringLiteral (t :: ts) s ts := by
  have hkind : t.kind = .string := congrArg Word.kind h
  have hvalue : t.value = Json.renderString s := congrArg Word.value h
  have hparse := Json.parse_renderIndented (.string s)
  rw [Json.renderIndented, Json.renderAt.eq_def] at hparse
  refine (reads_next h (by simp) ts).bind ?_
  rw [if_neg (not_not.mpr hkind), hvalue, show Json.parse (Json.renderString s) = _ from hparse]
  exact .pure _ _

/-! ### Values -/

/-- The text is that of the words, and the step reads them as the result `a`, wherever they
stand.  The words do not start with one that closes a list. -/
structure Conveys {α : Type} (part : Nat → Parsing α) (a : α) (text : List Char)
    (ws : List Word) : Prop where
  opens : ∃ w rest, ws = w :: rest ∧ w.closes = false
  words : ∀ rest, Breaks rest → words? (text ++ rest) = (words? rest).map (ws ++ ·)
  reads : ∀ depth, ws.length ≤ depth → ∀ ts ts', ts.map Token.word = ws →
    Reads (part depth) (ts ++ ts') a ts'

/-- A value of one word. -/
theorem conveys_word {l : LexemeKind} {kind : TokenKind} {text : String} (hs : l.Spells text.toList)
    (hl : l ≠ .escaped) (hk : l.token? = some kind) (hkind : kind ≠ .punct)
    (h : ∀ depth t ts, t.word = ⟨kind, text, false⟩ →
      Reads (jsonValueWithin (depth + 1)) (t :: ts) v ts) :
    Conveys jsonValueWithin v text.toList [⟨kind, text, false⟩] where
  opens := ⟨_, [], rfl, by simp [Word.closes, hkind]⟩
  words rest hr := by
    have hword : (Lexeme.mk l text.toList).word? = some ⟨kind, text, false⟩ := by
      simp only [Lexeme.word?, Lexeme.value, hk, hl, if_false, String.ofList_toList]
      rfl
    exact words?_append hs hword (.inr hr)
  reads depth hd ts ts' hts := by
    obtain ⟨t, rfl, ht⟩ := map_eq_singleton_iff.mp hts
    obtain ⟨depth, rfl⟩ : ∃ n, depth = n + 1 := ⟨depth - 1, (Nat.sub_add_cancel hd).symm⟩
    exact h depth t ts' ht

theorem conveys_string (s : String) : Conveys jsonValueWithin (.string s)
    (Json.renderString s).toList [⟨.string, Json.renderString s, false⟩] := by
  refine conveys_word (spells_renderString s) (by decide) rfl (by decide) fun depth t ts ht => ?_
  refine (reads_peek t _).bind ?_
  rw [show t.kind = .string from congrArg Word.kind ht]
  exact (reads_stringLiteral ht ts).bind (.pure _ _)

theorem conveys_number {text : String} (hs : LexemeKind.number.Spells text.toList)
    (h : ∀ ts, Reads (numberValue text.toList) ts v ts) :
    Conveys jsonValueWithin v text.toList [⟨.number, text, false⟩] := by
  refine conveys_word hs (by decide) rfl (by decide) fun depth t ts ht => ?_
  refine (reads_peek t _).bind ?_
  rw [show t.kind = .number from congrArg Word.kind ht,
    show t.value = text from congrArg Word.value ht]
  exact (reads_next ht (by simp) ts).discard.bind (h ts)

theorem conveys_name (text : String) (hs : isPlainName text.toList = true)
    (hv : wordValue? text = some v) :
    Conveys jsonValueWithin v text.toList [⟨.ident, text, false⟩] := by
  refine conveys_word (l := .ident) (dotted_of_isPlainName hs) (by decide) rfl (by decide)
    fun depth t ts ht => ?_
  refine (reads_peek t _).bind ?_
  rw [show t.kind = .ident from congrArg Word.kind ht,
    show t.value = text from congrArg Word.value ht, hv]
  exact (reads_next ht (by simp) ts).discard.bind (.pure _ _)

theorem conveys_int {n : Int} (hn : n.natAbs < Nat.pow 10 maxDigits) :
    Conveys jsonValueWithin (.int n) (toString n).toList [⟨.number, toString n, false⟩] := by
  refine conveys_number (spells_toString n) fun ts => ?_
  obtain ⟨sign, hsign, htext, hread⟩ := Json.exists_sign_toString n
  have hsplit : (splitSign (toString n).toList).2 = Nat.toDigits 10 n.natAbs := by
    have hplain := congrArg Prod.snd (Json.splitSign_toDigits n.natAbs [])
    rw [append_nil] at hplain
    rw [htext]
    rcases hsign with rfl | rfl
    · exact hplain
    · rfl
  have hcount : ¬ (Nat.toDigits 10 n.natAbs).length > maxDigits :=
    Nat.not_lt.mpr (Json.length_toDigits_le (by decide) hn)
  have hwhole : isWhole (toString n).toList = true := by
    rw [isWhole, hsplit, Bool.and_eq_true, all_eq_true]
    exact ⟨by simp [Nat.toDigits_ne_nil], digits_toDigits _⟩
  rw [numberValue, if_pos hwhole, wholeNumber, hsplit, if_neg hcount, htext, hread]
  exact (Reads.pure n ts).bind (.pure _ _)

theorem conveys_real (hf : x.isFinite = true) (h : readDecimal (x.text jsonDecimals).toList = x) :
    Conveys jsonValueWithin (.real x)
      (x.text jsonDecimals).toList [⟨.number, x.text jsonDecimals, false⟩] := by
  obtain ⟨hs, hwhole⟩ := spells_text hf h
  refine conveys_number hs fun ts => ?_
  rw [numberValue, hwhole, if_neg Bool.false_ne_true, h]
  exact .pure _ _

/-! ### Lists -/

section
variable {α : Type} {part : Nat → Parsing α}

/-- After an item the closing mark stays ahead. -/
theorem reads_listItem_last {x : Parsing α} {a : α} (h : Reads x ts a (t :: ts'))
    (ht : t.word = .mark closing) :
    Reads (listItem closing x) ts a (t :: ts') := by
  refine h.bind ((reads_atPunct ht closing ts').bind ?_)
  rw [if_pos (by simp [Word.mark])]
  exact .pure _ _

/-- After an item a comma is passed. -/
theorem reads_listItem_comma {x : Parsing α} {a : α} (hc : closing ≠ ",")
    (h : Reads x ts a (t :: ts')) (ht : t.word = .mark ",") :
    Reads (listItem closing x) ts a ts' := by
  refine h.bind ((reads_atPunct ht closing ts').bind ?_)
  rw [if_neg (by simp [Word.mark, hc.symm])]
  exact (reads_expectPunct ht ts').bind (.pure _ _)

/-- The list is read as the results `as`, up to its closing mark. -/
def ReadsItems (closing : String) (part : Nat → Parsing α) (as : List α) (ws : List Word) : Prop :=
  ∀ depth bound, ws.length ≤ depth → ws.length ≤ bound → ∀ ts t ts', ts.map Token.word = ws →
    t.word = .mark closing →
    Reads (manyWithin (atPunct closing) (listItem closing (part depth)) bound)
      (ts ++ t :: ts') as (t :: ts')

theorem readsItems_nil (closing : String) : ReadsItems closing part [] [] := by
  intro depth bound _ _ ts t ts' hts ht
  cases map_eq_nil_iff.mp hts
  cases bound with
  | zero => exact .pure _ _
  | succ bound =>
    refine (reads_atPunct ht closing ts').bind ?_
    rw [if_pos (by simp [Word.mark])]
    exact .pure _ _

/-- A list starts with its first item, for no item starts with a closing mark. -/
theorem Conveys.reads_items {a : α} {as : List α} {text : List Char} {ws : List Word}
    (h : Conveys part a text ws) {closing : String} (hc : closing = "]" ∨ closing = "\x7d")
    {depth bound : Nat} {ts ts₁ ts₂ ts' : List Token} (hts : ts.map Token.word = ws)
    (hitem : Reads (listItem closing (part depth)) (ts ++ ts₁) a ts₂)
    (hrest : Reads (manyWithin (atPunct closing) (listItem closing (part depth)) bound)
      ts₂ as ts') :
    Reads (manyWithin (atPunct closing) (listItem closing (part depth)) (bound + 1)) (ts ++ ts₁)
      (a :: as) ts' := by
  obtain ⟨w, rest, rfl, hw⟩ := h.opens
  obtain ⟨t, ts, rfl, ht, -⟩ := map_eq_cons_iff.mp hts
  have hopen : (decide (w.kind = .punct) && decide (w.value = closing)) = false := by
    rcases hc with rfl | rfl <;> revert hw <;> simp +contextual [Word.closes]
  refine (reads_atPunct ht closing _).bind ?_
  rw [hopen, if_neg Bool.false_ne_true]
  exact hitem.bind (hrest.bind (.pure _ _))

/-- The words of a list are the words of its items with commas between them, and reading them up to
the closing mark gives the items. -/
theorem exists_words_items {text : α → List Char} {closing : Char} (hmark : closing ∈ punctMarks)
    (hc : String.ofList [closing] = "]" ∨ String.ofList [closing] = "\x7d") {as : List α}
    (h : ∀ a ∈ as, ∃ ws, Conveys part a (text a) ws) : ∃ ws,
      (∀ rest, words? ([',', ' '].intercalate (as.map text) ++ closing :: rest) =
        (words? rest).map (ws ++ .mark (String.ofList [closing]) :: ·)) ∧
      ReadsItems (String.ofList [closing]) part as ws := by
  have hbreaks : ∀ c ∈ punctMarks, ∀ rest, Breaks (c :: rest) := by
    rintro c hc rest d ⟨⟩
    have hmarks : punctMarks.all (!isInner ·) = true := by decide
    simpa using all_eq_true.mp hmarks c hc
  induction as with
  | nil => exact ⟨[], fun rest => words?_mark hmark rest, readsItems_nil _⟩
  | cons a as ih =>
    obtain ⟨wa, ha⟩ := h a mem_cons_self
    obtain ⟨ws, hws, hreads⟩ := ih fun b hb => h b (mem_cons_of_mem _ hb)
    cases as with
    | nil =>
      refine ⟨wa, fun rest => ?_, fun depth bound hd hb ts t ts' hts ht => ?_⟩
      · rw [map_singleton, intercalate_singleton, ha.words _ (hbreaks _ hmark rest),
          words?_mark hmark, Option.map_map]
        rfl
      · obtain ⟨bound, rfl⟩ : ∃ n, bound = n + 1 := by
          obtain ⟨w, rest, rfl, -⟩ := ha.opens
          exact ⟨bound - 1, by simp at hb; omega⟩
        exact ha.reads_items hc hts (reads_listItem_last (ha.reads depth hd ts _ hts) ht)
          (readsItems_nil _ depth bound (Nat.zero_le _) (Nat.zero_le _) [] t ts' rfl ht)
    | cons b bs =>
      refine ⟨wa ++ .mark "," :: ws, fun rest => ?_, fun depth bound hd hb ts t ts' hts ht => ?_⟩
      · rw [map_cons, map_cons, intercalate_cons_cons, ← map_cons,
          append_assoc, append_assoc, cons_append, ha.words _ (hbreaks ',' (by decide) _),
          words?_mark (by decide),
          cons_append, words?_blank rfl, nil_append, hws, Option.map_map, Option.map_map]
        simp [Function.comp_def]
      · simp only [length_append, length_cons] at hd hb
        obtain ⟨bound, rfl⟩ : ∃ n, bound = n + 1 := ⟨bound - 1, by omega⟩
        obtain ⟨ts₁, ts₂, rfl, hts₁, hts₂⟩ := map_eq_append_iff.mp hts
        obtain ⟨comma, ts₃, rfl, hcomma, hts₃⟩ := map_eq_cons_iff.mp hts₂
        rw [append_assoc]
        refine ha.reads_items hc hts₁
          (reads_listItem_comma ?_ (ha.reads depth (by omega) ts₁ _ hts₁)
          hcomma) (hreads depth bound (by omega) (by omega) ts₃ t ts' hts₃ ht)
        rcases hc with hc | hc <;> rw [hc] <;> decide

end

/-! ### Arrays and objects -/

/-- A value is read from its items between two marks, if it is made of the items that are read up
to the closing one. -/
theorem exists_conveys_items {α : Type} {part : Nat → Parsing α} {text : α → List Char}
    {opening closing : Char} (hopening : opening ∈ punctMarks)
    (hopen : (Word.mark (String.ofList [opening])).closes = false) (hclosing : closing ∈ punctMarks)
    (hc : String.ofList [closing] = "]" ∨ String.ofList [closing] = "\x7d") {as : List α}
    (h : ∀ a ∈ as, ∃ ws, Conveys part a (text a) ws) {v : Json}
    (hv : ∀ depth t ts u ts', t.word = .mark (String.ofList [opening]) →
      u.word = .mark (String.ofList [closing]) →
      Reads (listUntil (String.ofList [closing]) (part depth)) ts as (u :: ts') →
      Reads (jsonValueWithin (depth + 1)) (t :: ts) v ts') :
    ∃ ws, Conveys jsonValueWithin v
      (opening :: ([',', ' '].intercalate (as.map text) ++ [closing])) ws := by
  obtain ⟨ws, hwords, hreads⟩ := exists_words_items hclosing hc h
  refine ⟨.mark _ :: (ws ++ [.mark (String.ofList [closing])]), ⟨_, _, rfl, hopen⟩,
    fun rest _ => ?_, fun depth hd ts ts' hts => ?_⟩
  · rw [cons_append, words?_mark hopening, append_assoc, singleton_append, hwords,
      Option.map_map]
    simp [Function.comp_def]
  · obtain ⟨t, ts, rfl, ht, hts⟩ := map_eq_cons_iff.mp hts
    obtain ⟨ts, last, rfl, hitems, hlast⟩ := map_eq_append_iff.mp hts
    obtain ⟨u, rfl, hu⟩ := map_eq_singleton_iff.mp hlast
    simp only [length_cons, length_append] at hd
    obtain ⟨depth, rfl⟩ : ∃ n, depth = n + 1 := ⟨depth - 1, by omega⟩
    rw [cons_append, append_assoc]
    refine hv depth t _ u ts' ht hu (Reads.fromTokens (f := fun ts => manyWithin _ _ ts.length) ?_)
    refine hreads depth _ (by omega) ?_ ts u ts' hitems hu
    simp [← hitems]

theorem exists_conveys_array {items : List Json}
    (h : ∀ v ∈ items, ∃ ws, Conveys jsonValueWithin v (text v) ws) :
    ∃ ws, Conveys jsonValueWithin (.array items)
      ('[' :: ([',', ' '].intercalate (items.map text) ++ [']'])) ws := by
  refine exists_conveys_items (by decide) (by decide) (by decide) (.inl rfl) h ?_
  intro depth t ts u ts' ht hu hitems
  refine (reads_peek t ts).bind ?_
  rw [show t.kind = .punct from congrArg Word.kind ht]
  dsimp only
  rw [isPunct_of_word ht, if_pos (by simp [Word.mark])]
  exact (reads_next ht (by simp [Word.mark]) ts).discard.bind (hitems.bind
    ((reads_next hu (by simp [Word.mark]) ts').discard.bind (.pure _ _)))

theorem conveys_member {m : String × Json} {ws : List Word}
    (h : Conveys jsonValueWithin m.2 (text m.2) ws) :
    Conveys (fun depth => jsonMember (jsonValueWithin depth)) m (Json.memberText text m)
      (⟨.string, Json.renderString m.1, false⟩ :: .mark ":" :: ws) where
  opens := ⟨_, _, rfl, rfl⟩
  words rest hr := by
    have hkey := (conveys_string m.1).words (':' :: ' ' :: (text m.2 ++ rest))
      (by rintro c ⟨⟩; decide)
    rw [Json.memberText, append_assoc, cons_append, cons_append, hkey,
      words?_mark (by decide), words?_blank rfl, h.words rest hr, Option.map_map, Option.map_map]
    rfl
  reads depth hd ts ts' hts := by
    obtain ⟨t, ts, rfl, ht, hts⟩ := map_eq_cons_iff.mp hts
    obtain ⟨u, ts, rfl, hu, hts⟩ := map_eq_cons_iff.mp hts
    simp only [length_cons] at hd
    exact (reads_stringLiteral ht _).bind ((reads_expectPunct hu _).bind
      ((h.reads depth (by omega) ts ts' hts).bind (.pure _ _)))

theorem exists_conveys_object {members : List (String × Json)} (hkeys : (members.map (·.1)).Nodup)
    (h : ∀ m ∈ members, ∃ ws, Conveys jsonValueWithin m.2 (text m.2) ws) :
    ∃ ws, Conveys jsonValueWithin (.object members)
      ('\x7b' :: ([',', ' '].intercalate (members.map (Json.memberText text)) ++ ['\x7d'])) ws := by
  refine exists_conveys_items (by decide) (by decide) (by decide) (.inr rfl)
    (fun m hm => (h m hm).imp' _ fun _ => conveys_member) ?_
  intro depth t ts u ts' ht hu hitems
  refine (reads_peek t ts).bind ?_
  rw [show t.kind = .punct from congrArg Word.kind ht]
  dsimp only
  rw [isPunct_of_word ht, if_neg (by simp [Word.mark]), isPunct_of_word ht,
    if_pos (by simp [Word.mark])]
  refine (reads_next ht (by simp [Word.mark]) ts).discard.bind (hitems.bind
    ((reads_next hu (by simp [Word.mark]) ts').discard.bind ?_))
  rw [Json.update_nil_of_nodup hkeys]
  exact .pure _ _

theorem map_toList_renderItems (items : List Json) :
    (Json.renderItems items).map String.toList = items.map fun v => v.render.toList := by
  induction items with
  | nil => rfl
  | cons v items ih => rw [Json.renderItems, map_cons, ih, map_cons]

theorem map_toList_renderMembers (members : List (String × Json)) :
    (Json.renderMembers members).map String.toList =
      members.map (Json.memberText fun v => v.render.toList) := by
  induction members with
  | nil => rfl
  | cons m members ih =>
    rw [Json.renderMembers, map_cons, ih, map_cons]
    simp [Json.memberText]

theorem exists_conveys_render (h : v.Expressible) :
    ∃ ws, Conveys jsonValueWithin v v.render.toList ws := by
  induction v using Json.nestedInduction with
  | null => exact ⟨_, conveys_name "null" rfl rfl⟩
  | bool b =>
    cases b with
    | false => exact ⟨_, conveys_name "false" rfl rfl⟩
    | true => exact ⟨_, conveys_name "true" rfl rfl⟩
  | int n =>
    cases h with
    | int hn => exact ⟨_, conveys_int hn⟩
  | real x =>
    cases h with
    | real hf hx => exact ⟨_, conveys_real hf hx⟩
  | string s => exact ⟨_, conveys_string s⟩
  | array items ih =>
    cases h with
    | array h =>
      have htext : (Json.render (.array items)).toList =
          '[' :: ([',', ' '].intercalate (items.map fun v => v.render.toList) ++ [']']) := by
        simp [Json.render, String.toList_intercalate, map_toList_renderItems]
      exact htext ▸ exists_conveys_array fun v hv => ih v hv (h v hv)
  | object members ih =>
    cases h with
    | object hkeys h =>
      have htext : (Json.render (.object members)).toList =
          '\x7b' :: ([',', ' '].intercalate
            (members.map (Json.memberText fun v => v.render.toList)) ++ ['\x7d']) := by
        simp [Json.render, String.toList_intercalate, map_toList_renderMembers]
      exact htext ▸ exists_conveys_object hkeys fun m hm => ih m hm (h m hm)

/-- **The text of a value is a literal of that value**: its tokens end with the one at the end of
the text, and reading a value takes all the tokens before it and gives the value, whatever else is
at the cursor. -/
theorem jsonValue_render {v : Json} (h : v.Expressible) (path : Option Path) :
    ∃ ts t, tokenize path v.render = .ok (ts ++ [t]) ∧ t.kind = .eof ∧
      Reads jsonValue (ts ++ [t]) v [t] := by
  obtain ⟨ws, hv⟩ := exists_conveys_render h
  have hwords : words? v.render.toList = some ws := by
    have hw := hv.words [] (by rintro c ⟨⟩)
    rwa [append_nil, show words? [] = some [] from rfl, Option.map_some, append_nil] at hw
  obtain ⟨ts, hts, hmap⟩ := tokenize_of_words? hwords path
  obtain ⟨ts, last, rfl, hws, hlast⟩ := map_eq_append_iff.mp hmap
  obtain ⟨t, rfl, ht⟩ := map_eq_singleton_iff.mp hlast
  refine ⟨ts, t, hts, congrArg Word.kind ht, ?_⟩
  refine Reads.fromTokens (f := fun ts => jsonValueWithin ts.length) (hv.reads _ ?_ ts [t] hws)
  simp [← hws]

/-- A value with a floating point number, an empty object and a key with a quotation mark. -/
theorem jsonValue_render_nested : ∃ ts t,
    tokenize none (Json.object
      [("\"", .array [.real (.finite true 6755399441055744 (-52)), .int (-2), .bool true]),
      ("é", .object [])]).render = .ok (ts ++ [t]) ∧ t.kind = .eof ∧
      Reads jsonValue (ts ++ [t])
        (.object [("\"", .array [.real (.finite true 6755399441055744 (-52)), .int (-2),
        .bool true]), ("é", .object [])]) [t] := by
  refine jsonValue_render (.object (by decide) ?_) none
  have hreal : (Json.real (.finite true 6755399441055744 (-52))).Expressible :=
    .real rfl (by decide +kernel)
  have hint : (Json.int (-2)).Expressible := .int (by decide +kernel)
  refine forall_mem_cons.mpr ⟨.array ?_, forall_mem_singleton.mpr ?_⟩
  · exact forall_mem_cons.mpr ⟨hreal, forall_mem_cons.mpr
      ⟨hint, forall_mem_singleton.mpr (.bool true)⟩⟩
  · exact .object nodup_nil (forall_mem_nil _)

end Idl

end Avroc
