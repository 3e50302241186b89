import Avroc.Proofs.Idl.Lexemes

/-!
# Words

A word is a token without its place and its documentation.  How far a word goes does not depend on
what follows it, as long as that is a character no word goes on with: so the words of a text can be
written with single spaces between them.

* `lexemes_append`, `words?_append` : **a word ends where nothing goes on with it.**
* `tokenize_spaced` : **words that are written with single spaces between them are read back.**
-/

namespace Avroc.Idl

open List

variable {c : Char} {l : Lexeme} {kind : LexemeKind} {cs rest : List Char} {ws : List Word}
  {w : Word} {text : String}

/-- A token without its place and its documentation. -/
structure Word where
  kind : TokenKind
  value : String
  escaped : Bool
deriving DecidableEq

/-- The word of a token. -/
def Token.word (t : Token) : Word :=
  ⟨t.kind, t.value, t.escaped⟩

/-- The word at the end of a text. -/
def Word.eof : Word :=
  ⟨.eof, "", false⟩

/-- How a word is written: an escaped identifier stands in backticks. -/
def Word.written (w : Word) : String :=
  if w.escaped then "\x60" ++ w.value ++ "\x60" else w.value

/-- The word that a lexeme becomes. -/
def Lexeme.word? (l : Lexeme) : Option Word :=
  l.kind.token?.map fun kind => ⟨kind, l.value, l.kind = .escaped⟩

/-- The words of a text, if it falls into lexemes. -/
def words? (cs : List Char) : Option (List Word) :=
  if (lexemes cs).2 = [] then some ((lexemes cs).1.filterMap Lexeme.word?) else none

/-! ### Words and tokens -/

theorem map_word_tokensOf (line : Nat) (doc : Option String) (ls : List Lexeme) :
    (tokensOf line doc ls).map Token.word = ls.filterMap Lexeme.word? ++ [.eof] := by
  induction ls generalizing line doc with
  | nil => rfl
  | cons l ls ih =>
    rw [tokensOf, filterMap_cons, Lexeme.word?]
    cases l.kind.token? with
    | none => exact ih _ _
    | some kind => exact congrArg _ (ih _ _)

theorem words?_of_tokenize {path : Option Path} {ts : List Token}
    (h : tokenize path text = .ok ts) :
    ∃ ws, words? text.toList = some ws ∧ ts.map Token.word = ws ++ [.eof] := by
  unfold tokenize at h
  split at h
  · rename_i found hfound
    cases h
    exact ⟨_, by rw [words?, hfound, if_pos rfl], map_word_tokensOf 1 none found⟩
  · cases h

theorem tokenize_of_words? (h : words? text.toList = some ws) (path : Option Path) :
    ∃ ts, tokenize path text = .ok ts ∧ ts.map Token.word = ws ++ [.eof] := by
  rw [words?] at h
  split at h
  · rename_i hleft
    cases h
    refine ⟨_, ?_, map_word_tokensOf 1 none _⟩
    rw [tokenize, show lexemes text.toList = (_, []) from Prod.ext rfl hleft]
  · cases h

/-! ### First characters -/

/-- The ranges of a class of words are apart from those of all others. -/
theorem firstCodes_apart (kind other : LexemeKind) (hk : kind.token?.isSome = true)
    (hne : other ≠ kind) : ∀ r ∈ kind.firstCodes, ∀ r' ∈ other.firstCodes,
      r.2 < r'.1 ∨ r'.2 < r.1 := by
  cases kind <;> cases other <;> revert hk hne <;> decide

/-- **The first character tells the class of a word.** -/
theorem eq_of_opens {other : LexemeKind} (hk : kind.token?.isSome = true) (h : kind.Opens c)
    (h' : other.Opens c) : other = kind := by
  by_contra hne
  obtain ⟨r, hr, hc⟩ := h
  obtain ⟨r', hr', hc'⟩ := h'
  have hapart := firstCodes_apart kind other hk hne r hr r' hr'
  omega

/-! ### Last characters -/

/-- Whether a word may go on with the character. -/
def isInner (c : Char) : Bool :=
  isPropPart c || Text.isDecimal c || c = '+'

/-- No word goes on with the text. -/
def Breaks (rest : List Char) : Prop :=
  ∀ c ∈ rest.head?, isInner c = false

theorem isInner_of_mem_number (h : LexemeKind.number.Spells cs) (hc : c ∈ cs) :
    isInner c = true := by
  have hdigits : ∀ {ds : List Char}, Digits ds → c ∈ ds → isInner c = true := by
    intro ds hd hm
    rw [isInner, hd c hm, Bool.or_true, Bool.true_or]
  obtain ⟨sign, ds, exponent, hsign, hd, he, rfl⟩ := h
  rcases mem_append.mp hc with hm | hm
  · rcases hsign with rfl | rfl
    · cases hm
    · obtain rfl := mem_singleton.mp hm
      rfl
  rcases mem_append.mp hm with hm | hm
  · cases hd with
    | whole _ hd => exact hdigits hd hm
    | point _ hd hf =>
      rcases mem_append.mp hm with hm | hm
      · exact hdigits hd hm
      · rcases mem_cons.mp hm with rfl | hm
        · rfl
        · exact hdigits hf hm
    | fraction _ hf =>
      rcases mem_cons.mp hm with rfl | hm
      · rfl
      · exact hdigits hf hm
  · cases he with
    | none => cases hm
    | some hmark hsign _ hd =>
      rcases mem_cons.mp hm with rfl | hm
      · rcases hmark with rfl | rfl <;> rfl
      rcases mem_append.mp hm with hm | hm
      · rcases hsign with rfl | rfl | rfl
        · cases hm
        · obtain rfl := mem_singleton.mp hm
          rfl
        · obtain rfl := mem_singleton.mp hm
          rfl
      · exact hdigits hd hm

theorem isInner_of_isPropPart (h : isPropPart c = true) : isInner c = true := by
  rw [isInner, h, Bool.true_or, Bool.true_or]

theorem isPropPart_of_mem_dotted (h : Dotted cs) (hc : c ∈ cs) : isPropPart c = true := by
  by_cases hdot : c = '.'
  · rw [hdot]
    rfl
  · obtain ⟨part, hpart, hm⟩ := Text.exists_mem_splitAtEach hc hdot
    rw [isPropPart, isNamePart_of_isPlainName (h part hpart) hm, Bool.true_or, Bool.true_or]

/-- A longer word of the same class goes on with a character inside words. -/
theorem isInner_of_spells (hk : kind.token?.isSome = true) {text more : List Char}
    (h : kind.Spells text) (h' : kind.Spells (text ++ c :: more)) : isInner c = true := by
  have hmem : c ∈ text ++ c :: more := by simp
  cases kind with
  | blank | doc | comment => cases hk
  | prop =>
    obtain ⟨d, rest, -, -, rfl⟩ := h
    obtain ⟨d', rest', -, hrest, he⟩ := h'
    obtain ⟨-, -, rfl⟩ : '@' = '@' ∧ d = d' ∧ rest ++ c :: more = rest' := by simpa using he
    exact isInner_of_isPropPart (hrest c (by simp))
  | string =>
    obtain ⟨body, hbody, rfl⟩ := h
    obtain ⟨body', hbody', he⟩ := h'
    have hlong := quotedLength_append hbody (c :: more)
    have hshort := quotedLength_append hbody' []
    rw [cons_append] at he
    rw [append_nil, ← (List.cons.inj he).2, hlong] at hshort
    have hlength := congrArg List.length he
    simp only [length_cons, length_append, length_nil] at hlength
    have hsame := Option.some.inj hshort
    omega
  | number => exact isInner_of_mem_number h' hmem
  | escaped =>
    obtain ⟨name, hname, rfl⟩ := h
    obtain ⟨name', hname', he⟩ := h'
    have hlong := escapedLength_append hname (c :: more)
    have hshort := escapedLength_append hname' []
    rw [← he, cons_append, append_assoc, singleton_append, hlong] at hshort
    have hlength := congrArg List.length he
    simp only [cons_append, length_cons, length_append, length_nil] at hlength
    omega
  | ident => exact isInner_of_isPropPart (isPropPart_of_mem_dotted h' hmem)
  | punct =>
    obtain ⟨d, -, rfl⟩ := h
    obtain ⟨d', -, he⟩ := h'
    cases he

/-! ### Texts that go on -/

/-- **A word ends where nothing goes on with it**, and a mark wherever it stands. -/
theorem lexemes_append (hs : l.kind.Spells l.text) (hk : l.kind.token?.isSome = true)
    (hr : l.kind = .punct ∨ Breaks rest) :
    lexemes (l.text ++ rest) = (l :: (lexemes rest).1, (lexemes rest).2) := by
  obtain ⟨kind, text⟩ := l
  obtain ⟨c, tail, rfl, hc⟩ := opens_of_spells hs
  dsimp only at hs hk hc ⊢
  have hprefix : c :: tail <+: c :: tail ++ rest := prefix_append _ _
  rw [cons_append] at hprefix ⊢
  cases hlex : lexeme? (c :: (tail ++ rest)) with
  | none => exact absurd hs (noneStarts_of_lexeme? hlex kind _ hprefix)
  | some found =>
    obtain ⟨other, more⟩ := found
    have hstarts := startsWith_of_lexeme? hlex
    rw [take_succ_cons] at hstarts
    obtain ⟨d, _, hd, hopens⟩ := opens_of_spells hstarts.spelled
    cases hd
    obtain rfl := eq_of_opens hk hc hopens
    -- the lexeme that is found is no shorter, and what it has more would break a word
    have hlong := hstarts.chosen _ hprefix hs
    have hslash : c ≠ '/' := by
      rintro rfl
      have hcomment : LexemeKind.comment.Opens '/' := ⟨(47, 47), by decide⟩
      rw [← eq_of_opens hk hc hcomment] at hk
      cases hk
    rw [ChosenOver, if_neg (by simp [opensBlock, List.isPrefixOf, Ne.symm hslash])] at hlong
    obtain ⟨extra, hextra⟩ := prefix_of_prefix_length_le hprefix hstarts.prefixed hlong
    have hnil : extra = [] := by
      cases extra with
      | nil => rfl
      | cons x extra =>
        have hlonger := hextra ▸ hstarts.spelled
        rcases hr with hpunct | hr
        · dsimp only at hpunct
          subst hpunct
          obtain ⟨d, -, hone⟩ := hlonger
          simp at hone
        have hinner := isInner_of_spells hk hs hlonger
        have hrest : x :: extra <+: rest := by
          have hp := hstarts.prefixed
          rw [← hextra, ← cons_append, prefix_append_right_inj] at hp
          exact hp
        obtain ⟨after, rfl⟩ := hrest
        rw [hr x rfl] at hinner
        cases hinner
    rw [hnil, append_nil] at hextra
    have htake : tail = (tail ++ rest).take more := (List.cons.inj hextra).2
    have hdrop : (tail ++ rest).drop more = rest := by
      have happend := take_append_drop more (tail ++ rest)
      rw [← htake] at happend
      exact append_cancel_left happend
    rw [lexemes_of_some hlex, hdrop, ← htake]

theorem words?_append (hs : l.kind.Spells l.text) (hw : l.word? = some w)
    (hr : l.kind = .punct ∨ Breaks rest) :
    words? (l.text ++ rest) = (words? rest).map (w :: ·) := by
  have hk : l.kind.token?.isSome = true := by
    rw [Lexeme.word?, Option.map_eq_some_iff] at hw
    obtain ⟨kind, hkind, -⟩ := hw
    rw [hkind]
    rfl
  rw [words?, lexemes_append hs hk hr, words?]
  dsimp only
  rw [filterMap_cons_some hw]
  split <;> rfl

theorem words?_blank_dropWhile (hc : Text.isBlank c = true) (rest : List Char) :
    words? (c :: rest) = words? (rest.dropWhile Text.isBlank) := by
  have hlex : lexeme? (c :: rest) = some (.blank, (rest.takeWhile Text.isBlank).length) := by
    simp [lexeme?, classes, blankLength, hc]
  have hdrop : rest.drop (rest.takeWhile Text.isBlank).length = rest.dropWhile Text.isBlank := by
    have happend := take_append_drop (rest.takeWhile Text.isBlank).length rest
    rw [take_length_takeWhile] at happend
    exact append_cancel_left (happend.trans takeWhile_append_dropWhile.symm)
  rw [words?, lexemes_of_some hlex, hdrop]
  rfl

/-- White space between words says nothing. -/
theorem words?_blank (hc : Text.isBlank c = true) (rest : List Char) :
    words? (c :: rest) = words? rest := by
  rw [words?_blank_dropWhile hc]
  cases rest with
  | nil => rfl
  | cons d rest =>
    by_cases hd : Text.isBlank d = true
    · rw [words?_blank_dropWhile hd, dropWhile_cons_of_pos hd]
    · rw [dropWhile_cons_of_neg hd]

/-! ### Words with spaces between them -/

/-- The word is that of some lexeme. -/
def Word.Spelled (w : Word) : Prop :=
  ∃ l : Lexeme, l.kind.Spells l.text ∧ l.word? = some w

/-- A lexeme that becomes a word is how the word is written. -/
theorem toList_written (hs : l.kind.Spells l.text) (hw : l.word? = some w) :
    w.written.toList = l.text := by
  obtain ⟨kind, text⟩ := l
  rw [Lexeme.word?, Option.map_eq_some_iff] at hw
  obtain ⟨_, -, rfl⟩ := hw
  rw [Word.written, Lexeme.value]
  by_cases hk : kind = .escaped
  · subst hk
    obtain ⟨name, -, rfl⟩ := hs
    simp
  · simp [hk]

theorem spelled_of_mem_lexemes {left : List Char} {ls : List Lexeme} (h : Partition cs ls left)
    (hl : l ∈ ls) : l.kind.Spells l.text := by
  induction h with
  | stop => cases hl
  | next hstarts _ _ _ ih =>
    rcases mem_cons.mp hl with rfl | hl
    · exact hstarts.spelled
    · exact ih hl

theorem spelled_of_words? (h : words? cs = some ws) : ∀ w ∈ ws, w.Spelled := by
  rw [words?] at h
  split at h
  · cases h
    intro w hw
    obtain ⟨l, hl, hlw⟩ := mem_filterMap.mp hw
    exact ⟨l, spelled_of_mem_lexemes (partition_lexemes cs) hl, hlw⟩
  · cases h

/-- The words of a text that is made of written words with single spaces between them. -/
theorem words?_intercalate (h : ∀ w ∈ ws, w.Spelled) :
    words? ([' '].intercalate (ws.map fun w => w.written.toList)) = some ws := by
  induction ws with
  | nil => rfl
  | cons w ws ih =>
    obtain ⟨⟨l, hs, hw⟩, hrest⟩ := forall_mem_cons.mp h
    have htext := toList_written hs hw
    cases ws with
    | nil =>
      rw [map_singleton, intercalate_singleton, htext, ← append_nil l.text,
        words?_append hs hw (.inr (by rintro _ ⟨⟩))]
      rfl
    | cons w' ws =>
      rw [map_cons, map_cons, intercalate_cons_cons, htext, append_assoc,
        words?_append hs hw (.inr (by rintro _ ⟨⟩; rfl)), singleton_append, words?_blank (by rfl)]
      exact congrArg (Option.map _) (ih hrest)

/-- The tokens of a text written with single spaces between them. -/
def spaced (ts : List Token) : String :=
  " ".intercalate ((ts.filter fun t => t.kind ≠ .eof).map fun t => t.word.written)

theorem kind_ne_eof_of_spelled (h : w.Spelled) : w.kind ≠ .eof := by
  obtain ⟨l, -, hw⟩ := h
  rw [Lexeme.word?, Option.map_eq_some_iff] at hw
  obtain ⟨kind, hkind, rfl⟩ := hw
  rintro rfl
  cases hl : l.kind <;> rw [hl] at hkind <;> cases hkind

/-- **Words that are written with single spaces between them are read back.** -/
theorem tokenize_spaced {path : Option Path} {text : String} {ts : List Token}
    (h : tokenize path text = .ok ts) :
    ∃ ts', tokenize path (spaced ts) = .ok ts' ∧ ts'.map Token.word = ts.map Token.word := by
  obtain ⟨ws, hwords, hts⟩ := words?_of_tokenize h
  have hspelled := spelled_of_words? hwords
  have hfilter : (ts.filter fun t => t.kind ≠ .eof).map Token.word = ws := by
    calc (ts.filter fun t => t.kind ≠ .eof).map Token.word
        = (ts.map Token.word).filter fun w => w.kind ≠ .eof := by
          rw [filter_map]
          rfl
      _ = ws := by
          rw [hts, filter_append, filter_eq_self.mpr fun w hw => decide_eq_true
            (kind_ne_eof_of_spelled (hspelled w hw))]
          exact append_nil ws
  have htext : words? (spaced ts).toList = some ws := by
    rw [spaced, String.toList_intercalate, map_map]
    have hback := words?_intercalate hspelled
    rw [← hfilter, map_map] at hback
    rw [← hfilter]
    exact hback
  obtain ⟨ts', hread, hts'⟩ := tokenize_of_words? htext path
  exact ⟨ts', hread, hts'.trans hts.symm⟩

/-- Numbers and names that stood side by side, an escaped name, a string with a quote in it. -/
theorem tokenize_spaced_property :
    ∃ ts ts', tokenize none "@a.b-c(-1.e+2x.y\x60e\x60\"\\\"\")" = .ok ts ∧ ts.length = 8 ∧
      tokenize none (spaced ts) = .ok ts' ∧ ts'.map Token.word = ts.map Token.word := by
  have hlength : ((tokenize none "@a.b-c(-1.e+2x.y\x60e\x60\"\\\"\")").map (·.length)).toOption =
      some 8 := by decide +kernel
  cases h : tokenize none "@a.b-c(-1.e+2x.y\x60e\x60\"\\\"\")" with
  | error e =>
    rw [h] at hlength
    cases hlength
  | ok ts =>
    rw [h] at hlength
    obtain ⟨ts', hread, hwords⟩ := tokenize_spaced h
    exact ⟨ts, ts', rfl, Option.some.inj hlength, hread, hwords⟩

end Avroc.Idl
