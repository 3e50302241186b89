import Avroc.Idl.Lexer
import Avroc.Proofs.Name

/-!
# The shape of identifiers

A dot in an identifier stands between two names, so the identifier can be split at its last dot
into a namespace and a name, neither of them empty.

* `Dotted`, `dotted_of_tokenize` : the identifiers of a text are names with dots between them.
* `tokenize_none` : the tokens of a text do not depend on where it comes from.
-/

namespace Avroc.Idl

open List

variable {c : Char} {cs rest : List Char} {ts : List Token} {more : Nat} {path : Option Path}
  {text written : String} {kind : LexemeKind}

/-- The characters are some, and neither the first nor the last of them is a dot. -/
structure WellDotted (cs : List Char) : Prop where
  ne_nil : cs ≠ []
  head : cs.head? ≠ some '.'
  last : cs.getLast? ≠ some '.'

theorem WellDotted.name_ne_empty (h : WellDotted written.toList) (space : Option String) :
    (splitName written space).1 ≠ "" := by
  unfold splitName
  split
  · rename_i before after hsplit
    obtain ⟨he, -⟩ := Text.splitAtLast?_eq_some hsplit
    rintro hafter
    have hnil : after = [] := by simpa using congrArg String.toList hafter
    subst hnil
    exact h.last (by rw [he, getLast?_append]; rfl)
  · rintro rfl
    exact h.ne_nil rfl

theorem WellDotted.space_ne_none (h : WellDotted written.toList) (hdot : '.' ∈ written.toList)
    (space : Option String) :
    ∃ text, (splitName written space).2 = some text ∧ text ≠ "" := by
  unfold splitName
  split
  · rename_i before after hsplit
    obtain ⟨he, -⟩ := Text.splitAtLast?_eq_some hsplit
    have hbefore : String.ofList before ≠ "" := by
      intro hb
      have hnil : before = [] := by simpa using congrArg String.toList hb
      subst hnil
      exact h.head (by rw [he]; rfl)
    exact ⟨String.ofList before, if_neg hbefore, hbefore⟩
  · rename_i hsplit
    exact absurd hdot (Text.splitAtLast?_eq_none_iff.mp hsplit)

/-! ### Lexemes -/

theorem isNamePart_of_isNameStart (h : isNameStart c = true) : isNamePart c = true := by
  rw [isNamePart, h, Bool.true_or]

theorem ne_dot_of_isNamePart (h : isNamePart c = true) : c ≠ '.' := by
  rintro rfl
  cases h

/-- The parts between the dots are names. -/
def Dotted (cs : List Char) : Prop :=
  ∀ part ∈ Text.splitAtEach '.' cs, isPlainName part = true

theorem Dotted.wellDotted (h : Dotted cs) : WellDotted cs where
  ne_nil := by
    rintro rfl
    cases h [] (mem_singleton.mpr rfl)
  head he := by
    obtain ⟨rest, rfl⟩ := head?_eq_some_iff.mp he
    cases h [] mem_cons_self
  last he := by
    obtain ⟨front, rfl⟩ := getLast?_eq_some_iff.mp he
    have hnil : [] ∈ Text.splitAtEach '.' (front ++ ['.']) := by
      rw [Text.splitAtEach_mark]
      exact mem_append_right _ (mem_singleton.mpr rfl)
    cases h [] hnil

/-- What continues an identifier is the rest of a name, and names with dots before them. -/
theorem exists_splitAtEach_identTail (cs : List Char) :
    ∃ first others, Text.splitAtEach '.' (cs.take (identTail cs)) = first :: others ∧
      first.all isNamePart = true ∧ ∀ part ∈ others, isPlainName part = true := by
  fun_induction identTail cs with
  | case1 => exact ⟨[], [], rfl, rfl, forall_mem_nil _⟩
  | case2 c rest hc ih =>
    obtain ⟨first, others, he, hfirst, hothers⟩ := ih
    refine ⟨[], (c :: first) :: others, ?_, rfl, forall_mem_cons.mpr ⟨?_, hothers⟩⟩
    · have hdot := ne_dot_of_isNamePart (isNamePart_of_isNameStart hc)
      rw [take_succ_cons, take_succ_cons, Text.splitAtEach, if_pos rfl, Text.splitAtEach,
        if_neg hdot, he, Text.consFirst]
    · rw [isPlainName, hc, hfirst, Bool.and_self]
  | case3 => exact ⟨[], [], rfl, rfl, forall_mem_nil _⟩
  | case4 c rest _ hc ih =>
    obtain ⟨first, others, he, hfirst, hothers⟩ := ih
    refine ⟨c :: first, others, ?_, ?_, hothers⟩
    · rw [take_succ_cons, Text.splitAtEach, if_neg (ne_dot_of_isNamePart hc), he,
        Text.consFirst]
    · rw [all_cons, hc, hfirst, Bool.and_self]
  | case5 => exact ⟨[], [], rfl, rfl, forall_mem_nil _⟩

theorem dotted_ident (h : identLength (c :: rest) = more + 1) : Dotted (c :: rest.take more) := by
  rw [identLength] at h
  split at h
  · rename_i hc
    obtain rfl : identTail rest = more := by omega
    have hdot := ne_dot_of_isNamePart (isNamePart_of_isNameStart hc)
    obtain ⟨first, others, he, hfirst, hothers⟩ := exists_splitAtEach_identTail rest
    rw [Dotted, Text.splitAtEach, if_neg hdot, he, Text.consFirst]
    refine forall_mem_cons.mpr ⟨?_, hothers⟩
    rw [isPlainName, hc, hfirst, Bool.and_self]
  · cases h

theorem dotted_of_isPlainName (h : isPlainName cs = true) : Dotted cs := by
  have hdot : '.' ∉ cs := fun hm => ne_dot_of_isNamePart (isNamePart_of_isPlainName h hm) rfl
  rw [Dotted, Text.splitAtEach_of_notMem hdot]
  exact forall_mem_singleton.mpr h

theorem dotted_escaped (h : escapedLength (c :: rest) = more + 1) :
    Dotted (((c :: rest.take more).drop 1).dropLast) := by
  unfold escapedLength at h
  split at h
  · rename_i d rest hcs
    cases hcs
    dsimp only at h
    split at h
    · rename_i hd
      rw [Bool.and_eq_true, decide_eq_true_eq] at hd
      obtain ⟨hd, hclose⟩ := hd
      -- the text after the first name character is the name and the closing backtick
      obtain ⟨after, hdrop⟩ := head?_eq_some_iff.mp hclose
      have hprefix := List.takeWhile_prefix isNamePart (l := rest)
      generalize hpart : rest.takeWhile isNamePart = part at h hdrop hprefix
      have hrest : rest = part ++ '\x60' :: after := by
        rw [← hdrop, ← prefix_iff_eq_append.mp hprefix]
        simp
      obtain rfl : more = part.length + 2 := by omega
      have hvalue : (('\x60' :: (d :: rest).take (part.length + 2)).drop 1).dropLast =
          d :: part := by
        rw [hrest, show d :: (part ++ '\x60' :: after) = (d :: part ++ ['\x60']) ++ after by simp,
          take_left' (by simp)]
        exact dropLast_concat
      rw [hvalue]
      refine dotted_of_isPlainName ?_
      rw [isPlainName, hd, ← hpart, all_takeWhile, Bool.and_self]
    · cases h
  · cases h

/-- A lexeme has the length that its class takes. -/
theorem length_of_lexeme? (h : lexeme? cs = some (kind, more)) :
    ∃ length, (kind, length) ∈ classes ∧ length cs = more + 1 := by
  obtain ⟨⟨kind', length⟩, hmem, hsome⟩ := exists_of_findSome?_eq_some h
  dsimp only at hsome
  split at hsome
  · cases hsome
  · rename_i n hn
    cases hsome
    exact ⟨length, hmem, hn⟩

/-- The lexeme becomes an identifier. -/
def Lexeme.IsIdent (l : Lexeme) : Prop :=
  l.kind = .ident ∨ l.kind = .escaped

theorem dotted_of_lexeme? (h : lexeme? (c :: rest) = some (kind, more))
    (hl : Lexeme.IsIdent ⟨kind, c :: rest.take more⟩) :
    Dotted (Lexeme.value ⟨kind, c :: rest.take more⟩).toList := by
  obtain ⟨length, hmem, hlength⟩ := length_of_lexeme? h
  rcases hl with hk | hk <;> dsimp only at hk <;> subst hk
  · obtain rfl : length = identLength := by simpa [classes] using hmem
    simpa [Lexeme.value] using dotted_ident hlength
  · obtain rfl : length = escapedLength := by simpa [classes] using hmem
    simpa [Lexeme.value] using dotted_escaped hlength

theorem lexemesFrom_zero (c : Char) (rest : List Char) : lexemesFrom 0 (c :: rest) =
    match lexeme? (c :: rest) with
    | none => ([], c :: rest)
    | some (kind, more) =>
      (⟨kind, c :: rest.take more⟩ :: (lexemesFrom more rest).1, (lexemesFrom more rest).2) := by
  rfl

theorem dotted_of_mem_lexemesFrom {taken : Nat} {l : Lexeme} (h : l ∈ (lexemesFrom taken cs).1)
    (hl : l.IsIdent) : Dotted l.value.toList := by
  induction cs generalizing taken with
  | nil => cases h
  | cons c rest ih =>
    cases taken with
    | succ left => exact ih h
    | zero =>
      rw [lexemesFrom_zero] at h
      cases hlex : lexeme? (c :: rest) with
      | none =>
        rw [hlex] at h
        exact absurd h not_mem_nil
      | some found =>
        obtain ⟨kind, more⟩ := found
        rw [hlex] at h
        rcases mem_cons.mp h with rfl | h
        · exact dotted_of_lexeme? hlex hl
        · exact ih h

/-! ### Tokens -/

/-- An identifier comes from a lexeme. -/
theorem lexeme_of_mem_tokensOf {ls : List Lexeme} {line : Nat} {doc : Option String} {t : Token}
    (h : t ∈ tokensOf line doc ls) (hk : t.kind = .ident) :
    ∃ l ∈ ls, l.IsIdent ∧ t.value = l.value := by
  induction ls generalizing line doc with
  | nil =>
    obtain rfl := mem_singleton.mp h
    cases hk
  | cons l ls ih =>
    rw [tokensOf] at h
    split at h
    · rename_i kind hkind
      rcases mem_cons.mp h with rfl | h
      · refine ⟨l, mem_cons_self, ?_, rfl⟩
        dsimp only at hk
        subst hk
        unfold Lexeme.IsIdent
        cases hl : l.kind <;> rw [hl] at hkind <;> simp_all [LexemeKind.token?]
      · obtain ⟨l', hl', hrest⟩ := ih h
        exact ⟨l', mem_cons_of_mem _ hl', hrest⟩
    · obtain ⟨l', hl', hrest⟩ := ih h
      exact ⟨l', mem_cons_of_mem _ hl', hrest⟩

/-- **The identifiers of a text are names with dots between them.** -/
theorem dotted_of_tokenize (h : tokenize path text = .ok ts) :
    ∀ t ∈ ts, t.kind = .ident → Dotted t.value.toList := by
  intro t ht hk
  unfold tokenize at h
  split at h
  · rename_i found hfound
    cases h
    obtain ⟨l, hl, hident, hv⟩ := lexeme_of_mem_tokensOf ht hk
    rw [hv]
    have hmem : l ∈ (lexemesFrom 0 text.toList).1 := by
      show l ∈ (lexemes text.toList).1
      rwa [hfound]
    exact dotted_of_mem_lexemesFrom hmem hident
  · cases h

/-- The identifiers of a text have no dot at either end. -/
theorem wellDotted_of_tokenize (h : tokenize path text = .ok ts) :
    ∀ t ∈ ts, t.kind = .ident → WellDotted t.value.toList :=
  fun t ht hk => (dotted_of_tokenize h t ht hk).wellDotted

/-- Where a text comes from shows in refusals only. -/
theorem tokenize_none (h : tokenize path text = .ok ts) : tokenize none text = .ok ts := by
  unfold tokenize at h ⊢
  split at h
  · exact h
  · cases h

end Avroc.Idl
