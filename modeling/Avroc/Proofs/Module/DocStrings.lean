import Avroc.Module.DocString
import Avroc.Proofs.Module.StringLiterals
import Avroc.Proofs.File.Modules
import Mathlib.Data.List.TakeWhile
import Mathlib.Tactic.SplitIfs

/-!
# Documentation strings are closed

A documentation string is read back as its text, line by line, unless it stands on one line and
ends with a quote that is not escaped: that quote and the closing mark then end it too early.

* `read_escapeDoc` : **characters are read back**, if no quote that is not escaped meets a quote.
* `docString_closed_iff` : **a documentation string is one literal with the lines of its text
  exactly if the text is not dangling.**
-/

namespace Avroc

open List

variable {c : Char} {lines : List (List Char)} {after cs line rest : List Char}

open Literal Text

/-! ### Escaped characters -/

/-- The closing mark of a documentation string. -/
def tripleMark : List Char := ['\x22', '\x22', '\x22']

/-- A text with its backslashes doubled, and with a backslash before each quote of a triple. -/
def escapeDoc : List Char → List Char
  | '\x22' :: '\x22' :: '\x22' :: rest =>
    '\\' :: '\x22' :: '\\' :: '\x22' :: '\\' :: '\x22' :: escapeDoc rest
  | c :: rest => (if c = '\\' then ['\\', '\\'] else [c]) ++ escapeDoc rest
  | [] => []

theorem doubled_cons (c : Char) (rest : List Char) :
    replaceAll ['\\'] ['\\', '\\'] (c :: rest) =
      (if c = '\\' then ['\\', '\\'] else [c]) ++ replaceAll ['\\'] ['\\', '\\'] rest := by
  rw [replaceAll, replaceFrom]
  by_cases hc : c = '\\'
  · rw [if_pos (by simp [hc]), if_pos hc]
    rfl
  · rw [if_neg (by simp [Ne.symm hc]), if_neg hc]
    rfl

/-- The writer puts down each character as it is, or starts with a backslash. -/
def Escapes (f : List Char → List Char) : Prop :=
  f [] = [] ∧ ∀ c rest, ∃ d more, f (c :: rest) = d :: more ∧ (d = '\\' ∨ d = c ∧ more = f rest)

/-- Quotes at the start of what is written are quotes at the start of the text. -/
theorem Escapes.quotes_prefix {f : List Char → List Char} (hf : Escapes f) {n : Nat}
    (h : replicate n '\x22' <+: f cs ++ after) : replicate n '\x22' <+: cs ++ after := by
  induction n generalizing cs with
  | zero => exact nil_prefix
  | succ n ih =>
    cases cs with
    | nil => rwa [hf.1] at h
    | cons c rest =>
      obtain ⟨d, more, he, hd⟩ := hf.2 c rest
      rw [he] at h
      obtain ⟨rfl, hmore⟩ := cons_prefix_cons.mp h
      rcases hd with hd | ⟨rfl, rfl⟩
      · cases hd
      · exact cons_prefix_cons.mpr ⟨rfl, ih hmore⟩

theorem escapes_doubled : Escapes (replaceAll ['\\'] ['\\', '\\']) := by
  refine ⟨rfl, fun c rest => ?_⟩
  rw [doubled_cons]
  split
  · exact ⟨_, _, rfl, .inl rfl⟩
  · exact ⟨_, _, rfl, .inr ⟨rfl, rfl⟩⟩

theorem docBody_eq (text : String) : docBody text = trim (escapeDoc text.toList) := by
  rw [docBody]
  congr 1
  generalize text.toList = cs
  fun_induction escapeDoc cs with
  | case1 rest ih =>
    rw [← ih]
    simp only [doubled_cons]
    rfl
  | case2 c rest hne ih =>
    rw [← ih, doubled_cons]
    by_cases hc : c = '\\'
    · rw [if_pos hc]
      rfl
    · have hprefix : ¬ tripleMark.isPrefixOf (c :: replaceAll ['\\'] ['\\', '\\'] rest) = true := by
        intro hp
        have hmark : replicate 3 '\x22' <+: replaceAll ['\\'] ['\\', '\\'] (c :: rest) ++ [] := by
          rw [append_nil, doubled_cons, if_neg hc]
          exact List.isPrefixOf_iff_prefix.mp hp
        obtain ⟨after, he⟩ := escapes_doubled.quotes_prefix hmark
        rw [append_nil] at he
        cases he
        exact hne after rfl rfl
      rw [if_neg hc, singleton_append, replaceAll, replaceFrom,
        if_neg (by simpa [tripleMark] using hprefix)]
      rfl
  | case3 => rfl

/-! ### Quotes at the end -/

/-- The number of quotes at the end of a text. -/
def quotesAtEnd : List Char → Nat
  | [] => 0
  | c :: cs => if c = '\x22' ∧ quotesAtEnd cs = cs.length then cs.length + 1 else quotesAtEnd cs

theorem quotesAtEnd_le (cs : List Char) : quotesAtEnd cs ≤ cs.length := by
  induction cs with
  | nil => exact Nat.le_refl 0
  | cons c cs ih =>
    rw [quotesAtEnd, length_cons]
    split <;> omega

theorem quotesAtEnd_of_ne (hc : c ≠ '\x22') (cs : List Char) :
    quotesAtEnd (c :: cs) = quotesAtEnd cs := by
  rw [quotesAtEnd, if_neg fun h => hc h.1]

theorem quotesAtEnd_triple (cs : List Char) :
    quotesAtEnd ('\x22' :: '\x22' :: '\x22' :: cs) % 3 = quotesAtEnd cs % 3 := by
  have hle := quotesAtEnd_le cs
  simp only [quotesAtEnd, length_cons, true_and]
  split_ifs <;> omega

theorem quotesAtEnd_eq_length (h : quotesAtEnd cs = cs.length) : ∀ c ∈ cs, c = '\x22' := by
  induction cs with
  | nil => exact forall_mem_nil _
  | cons c cs ih =>
    have hle := quotesAtEnd_le cs
    rw [quotesAtEnd, length_cons] at h
    split at h
    · rename_i hall
      exact forall_mem_cons.mpr ⟨hall.1, ih hall.2⟩
    · omega

/-- No quote that is not escaped stands at the end of the first text and meets a quote. -/
def Parted (cs after : List Char) : Prop :=
  quotesAtEnd cs % 3 = 0 ∨ after.head? ≠ some '\x22'

/-- A quote that starts no triple starts none with what follows. -/
theorem Parted.not_triple (h : Parted ('\x22' :: rest) after)
    (hne : ∀ more, rest ≠ '\x22' :: '\x22' :: more) : ¬ ['\x22', '\x22'] <+: rest ++ after := by
  intro hp
  obtain ⟨more, he⟩ := hp
  rcases rest with _ | ⟨c, _ | ⟨d, rest⟩⟩
  · obtain rfl : '\x22' :: '\x22' :: more = after := he
    rcases h with h | h
    · cases h
    · exact h rfl
  · obtain ⟨rfl, rfl⟩ : '\x22' = c ∧ '\x22' :: more = after := List.cons.inj he
    rcases h with h | h
    · cases h
    · exact h rfl
  · obtain ⟨hc, hrest⟩ := List.cons.inj he
    obtain ⟨hd, -⟩ := List.cons.inj hrest
    exact hne rest (by rw [← hc, ← hd])

/-- What is parted after its first character stays so. -/
theorem Parted.tail (h : Parted (c :: rest) after)
    (hne : ∀ more, c = '\x22' → rest ≠ '\x22' :: '\x22' :: more) : Parted rest after := by
  refine h.imp_left fun h => ?_
  rw [quotesAtEnd] at h
  split at h
  · -- the rest consists of quotes, but not of two or more
    rename_i hall
    have hquotes := quotesAtEnd_eq_length hall.2
    rcases rest with _ | ⟨d, _ | ⟨e, rest⟩⟩
    · cases h
    · cases h
    · obtain ⟨rfl, rfl⟩ : d = '\x22' ∧ e = '\x22' := ⟨hquotes _ (by simp), hquotes _ (by simp)⟩
      exact absurd rfl (hne rest hall.1)
  · exact h

theorem escapeDoc_append (h : Parted cs after) :
    escapeDoc (cs ++ after) = escapeDoc cs ++ escapeDoc after := by
  fun_induction escapeDoc cs with
  | case1 rest ih =>
    rw [Parted, quotesAtEnd_triple] at h
    simp only [cons_append, escapeDoc, ih h]
  | case2 c rest hne ih =>
    rw [cons_append, escapeDoc, ih (h.tail hne), append_assoc]
    rintro more rfl he
    exact h.not_triple (fun more => hne more rfl) ⟨more, he.symm⟩
  | case3 => rfl

theorem escapes_escapeDoc : Escapes escapeDoc := by
  refine ⟨rfl, fun c rest => ?_⟩
  generalize hcs : c :: rest = cs
  fun_cases escapeDoc cs with
  | case1 rest => exact ⟨_, _, rfl, .inl rfl⟩
  | case2 d more =>
    cases hcs
    split
    · exact ⟨_, _, rfl, .inl rfl⟩
    · exact ⟨_, _, rfl, .inr ⟨rfl, rfl⟩⟩
  | case3 => cases hcs

/-- The quotes at the end that belong to no triple. -/
theorem exists_front (cs : List Char) : ∃ front quotes, cs = front ++ quotes ∧
    quotesAtEnd front % 3 = 0 ∧ (quotes = [] ∨ quotes = ['\x22'] ∨ quotes = ['\x22', '\x22']) := by
  fun_induction escapeDoc cs with
  | case1 rest ih =>
    obtain ⟨front, quotes, rfl, hfront, hquotes⟩ := ih
    exact ⟨'\x22' :: '\x22' :: '\x22' :: front, quotes, rfl, by rwa [quotesAtEnd_triple], hquotes⟩
  | case2 c rest hne ih =>
    obtain ⟨front, quotes, rfl, hfront, hquotes⟩ := ih
    by_cases hall : c = '\x22' ∧ quotesAtEnd front = front.length
    · -- the front consists of triples, but no triple starts here
      obtain ⟨rfl, hlength⟩ := hall
      rcases front with _ | ⟨c, _ | ⟨d, front⟩⟩
      · rcases hquotes with rfl | rfl | rfl
        · exact ⟨[], _, rfl, rfl, .inr (.inl rfl)⟩
        · exact ⟨[], _, rfl, rfl, .inr (.inr rfl)⟩
        · exact absurd rfl (hne [] rfl)
      · rw [hlength] at hfront
        cases hfront
      · have hall := quotesAtEnd_eq_length hlength
        obtain ⟨rfl, rfl⟩ : c = '\x22' ∧ d = '\x22' := ⟨hall _ (by simp), hall _ (by simp)⟩
        exact absurd rfl (hne (front ++ quotes) rfl)
    · exact ⟨c :: front, quotes, rfl, by rwa [quotesAtEnd, if_neg hall], hquotes⟩
  | case3 => exact ⟨[], [], rfl, rfl, .inl rfl⟩

/-! ### Reading -/

/-- What a triple-quoted literal means, and what follows it. -/
def readTriple (cs : List Char) : Option (List Char × List Char) :=
  readBody false tripleMark 0 cs

theorem readTriple_escape (h : c = '\\' ∨ c = '\x22') (rest : List Char) :
    readTriple ('\\' :: c :: rest) = before [c] (readTriple rest) := by
  have hescape : escape? false ([c] ++ rest) = some ([c], [c].length) := by
    rcases h with rfl | rfl <;> rfl
  exact readBody_escape (by decide) (by decide) hescape

theorem readTriple_plain (hc : c ≠ '\\') (h : ¬ tripleMark <+: c :: rest) :
    readTriple (c :: rest) = before [c] (readTriple rest) :=
  readBody_plain hc h (by simp [tripleMark])

/-- **What has been escaped is read back.** -/
theorem read_escapeDoc (h : Parted cs after) :
    readTriple (escapeDoc cs ++ after) = before cs (readTriple after) := by
  fun_induction escapeDoc cs with
  | case1 rest ih =>
    rw [Parted, quotesAtEnd_triple] at h
    simp [readTriple_escape, ih h]
  | case2 c rest hne ih =>
    have hrest := ih (h.tail hne)
    by_cases hc : c = '\\'
    · simp [hc, readTriple_escape, hrest]
    · rw [if_neg hc, append_assoc, singleton_append, readTriple_plain hc, hrest,
        before_before, singleton_append]
      intro hp
      obtain ⟨rfl, hmark⟩ := cons_prefix_cons.mp hp
      exact h.not_triple (fun more => hne more rfl) (escapes_escapeDoc.quotes_prefix (n := 2) hmark)
  | case3 => simp

/-- **Quotes at the end that are no triples end the literal too early.** -/
theorem read_escapeDoc_dangling (h : quotesAtEnd cs % 3 ≠ 0) :
    ∃ value left, readTriple (escapeDoc cs ++ tripleMark) = some (value, left) ∧ left ≠ [] := by
  obtain ⟨front, quotes, rfl, hfront, hquotes⟩ := exists_front cs
  have hrest : readTriple (quotes ++ tripleMark) = some ([], quotes) := by
    rcases hquotes with rfl | rfl | rfl <;> rfl
  have hescaped : escapeDoc quotes = quotes := by
    rcases hquotes with rfl | rfl | rfl <;> rfl
  refine ⟨front, quotes, ?_, ?_⟩
  · rw [escapeDoc_append (.inl hfront), hescaped, append_assoc, read_escapeDoc (.inl hfront),
      hrest, before, Option.map_some, append_nil]
  · rintro rfl
    exact h (by rwa [append_nil])

/-! ### White space at the ends -/

theorem escapeDoc_cons (hquote : c ≠ '\x22') (hslash : c ≠ '\\') (rest : List Char) :
    escapeDoc (c :: rest) = c :: escapeDoc rest := by
  rw [escapeDoc, if_neg hslash, singleton_append]
  rintro more rfl
  exact absurd rfl hquote

theorem escapeDoc_blank (h : isBlank c = true) (rest : List Char) :
    escapeDoc (c :: rest) = c :: escapeDoc rest := by
  refine escapeDoc_cons ?_ ?_ rest
  · rintro rfl
    cases h
  · rintro rfl
    cases h

theorem escapeDoc_blanks (h : ∀ c ∈ cs, isBlank c = true) : escapeDoc cs = cs := by
  induction cs with
  | nil => rfl
  | cons c cs ih =>
    rw [escapeDoc_blank (h c mem_cons_self), ih fun d hd => h d (mem_cons_of_mem _ hd)]

theorem trimStart_escapeDoc (cs : List Char) :
    trimStart (escapeDoc cs) = escapeDoc (trimStart cs) := by
  induction cs with
  | nil => rfl
  | cons c cs ih =>
    by_cases hc : isBlank c = true
    · rw [escapeDoc_blank hc, trimStart, trimStart, dropWhile_cons_of_pos hc,
        dropWhile_cons_of_pos hc]
      exact ih
    · rw [trimStart, trimStart, dropWhile_cons_of_neg hc]
      obtain ⟨d, more, he, hd⟩ := escapes_escapeDoc.2 c cs
      have hblank : ¬ isBlank d = true := by
        rcases hd with rfl | ⟨rfl, -⟩
        · decide
        · exact hc
      rw [he, dropWhile_cons_of_neg hblank]

theorem getLast?_escapeDoc (cs : List Char) : (escapeDoc cs).getLast? = cs.getLast? := by
  fun_induction escapeDoc cs with
  | case1 rest ih => simp [getLast?_cons, ih]
  | case2 c rest _ ih => split <;> simp_all [getLast?_cons]
  | case3 => rfl

theorem trimEnd_append_blanks (cs : List Char) {blanks : List Char}
    (h : ∀ c ∈ blanks, isBlank c = true) : trimEnd (cs ++ blanks) = trimEnd cs := by
  rw [trimEnd, reverse_append,
    dropWhile_append_of_pos fun c hc => h c (mem_reverse.mp hc), trimEnd]

theorem exists_trimEnd (cs : List Char) : ∃ blanks, cs = trimEnd cs ++ blanks ∧
    ∀ c ∈ blanks, isBlank c = true := by
  refine ⟨(cs.reverse.takeWhile isBlank).reverse, ?_, ?_⟩
  · rw [trimEnd, ← reverse_append, takeWhile_append_dropWhile, reverse_reverse]
  · intro c hc
    exact mem_takeWhile_imp (mem_reverse.mp hc)

theorem getLast?_trimEnd (h : (trimEnd cs).getLast? = some c) : isBlank c = false := by
  rw [trimEnd, getLast?_reverse] at h
  have hnot := head?_dropWhile_not isBlank cs.reverse
  rw [h] at hnot
  simpa using hnot

theorem trimEnd_of_getLast? (h : ∀ c, cs.getLast? = some c → isBlank c = false) :
    trimEnd cs = cs := by
  rw [trimEnd, reverse_eq_iff, dropWhile_eq_self_iff]
  intro hlength
  have hlast : cs.getLast? = some (cs.reverse.get ⟨0, hlength⟩) := by
    rw [← head?_reverse, head?_eq_getElem?, getElem?_eq_getElem hlength]
    rfl
  exact Bool.eq_false_iff.mp (h _ hlast)

theorem trimEnd_escapeDoc (cs : List Char) :
    trimEnd (escapeDoc cs) = escapeDoc (trimEnd cs) := by
  obtain ⟨blanks, hcs, hblanks⟩ := exists_trimEnd cs
  have hparted : Parted (trimEnd cs) blanks := by
    refine .inr fun hhead => ?_
    have hquote := hblanks _ (mem_of_mem_head? hhead)
    cases hquote
  calc trimEnd (escapeDoc cs)
      = trimEnd (escapeDoc (trimEnd cs ++ blanks)) := by rw [← hcs]
    _ = trimEnd (escapeDoc (trimEnd cs)) := by
        rw [escapeDoc_append hparted, escapeDoc_blanks hblanks, trimEnd_append_blanks _ hblanks]
    _ = escapeDoc (trimEnd cs) :=
        trimEnd_of_getLast? fun c hc => getLast?_trimEnd (by rwa [getLast?_escapeDoc] at hc)

/-- White space may be removed before or after the characters are escaped. -/
theorem docBody_eq_escapeDoc (text : String) :
    docBody text = escapeDoc (trim text.toList) := by
  rw [docBody_eq, trim, trimStart_escapeDoc, trimEnd_escapeDoc, trim]

/-! ### Lines -/

/-- Characters put in front of the first line. -/
def startFirst (front : List Char) : List (List Char) → List (List Char)
  | [] => [front]
  | line :: lines => (front ++ line) :: lines

theorem splitLines_break (hc : isLineBreak c = true)
    (h : ¬ (c = '\r' ∧ ∃ more, rest = '\n' :: more)) :
    splitLines (c :: rest) = [] :: splitLines rest := by
  rw [splitLines, if_pos hc]
  rintro more rfl rfl
  exact h ⟨rfl, more, rfl⟩

theorem splitLines_newline (rest : List Char) :
    splitLines ('\n' :: rest) = [] :: splitLines rest :=
  splitLines_break (by decide) fun h => absurd h.1 (by decide)

theorem splitLines_cons (hc : isLineBreak c = false) (rest : List Char) :
    splitLines (c :: rest) = startFirst [c] (splitLines rest) := by
  rw [splitLines, if_neg (Bool.eq_false_iff.mp hc)]
  · cases splitLines rest <;> rfl
  · rintro more rfl
    cases hc

/-- Characters that are no breaks belong to the first line. -/
theorem splitLines_append (h : ∀ c ∈ line, isLineBreak c = false) (hne : line ≠ [])
    (rest : List Char) : splitLines (line ++ rest) = startFirst line (splitLines rest) := by
  induction line with
  | nil => exact absurd rfl hne
  | cons c line ih =>
    obtain ⟨hc, hline⟩ := forall_mem_cons.mp h
    cases line with
    | nil => exact splitLines_cons hc rest
    | cons d line =>
      rw [cons_append, splitLines_cons hc, ih hline (cons_ne_nil d line)]
      cases splitLines rest <;> rfl

theorem splitLines_line (h : ∀ c ∈ line, isLineBreak c = false) (rest : List Char) :
    splitLines (line ++ '\n' :: rest) = line :: splitLines rest := by
  by_cases hne : line = []
  · rw [hne]
    exact splitLines_newline rest
  · rw [splitLines_append h hne, splitLines_newline, startFirst, append_nil]

theorem isBlank_of_isLineBreak (h : isLineBreak c = true) : isBlank c = true := by
  simp only [isLineBreak, isBlank, Bool.or_eq_true, Bool.and_eq_true, decide_eq_true_eq,
    beq_iff_eq] at h ⊢
  omega

/-- Lines hold no breaks. -/
theorem not_isLineBreak_of_mem (h : line ∈ splitLines cs) (hc : c ∈ line) :
    isLineBreak c = false := by
  fun_induction splitLines cs generalizing line with
  | case1 => cases h
  | case2 rest ih =>
    rcases mem_cons.mp h with rfl | h
    · cases hc
    · exact ih h hc
  | case3 d rest _ _ ih =>
    rcases mem_cons.mp h with rfl | h
    · cases hc
    · exact ih h hc
  | case4 d rest _ hd _ ih =>
    obtain rfl := mem_singleton.mp h
    obtain rfl := mem_singleton.mp hc
    exact Bool.eq_false_iff.mpr hd
  | case5 d rest _ hd first lines heq ih =>
    rw [heq] at ih
    rcases mem_cons.mp h with rfl | h
    · rcases mem_cons.mp hc with rfl | hc
      · exact Bool.eq_false_iff.mpr hd
      · exact ih mem_cons_self hc
    · exact ih (mem_cons_of_mem _ h) hc

theorem splitLines_eq_nil (h : splitLines cs = []) : cs = [] := by
  revert h
  fun_cases splitLines cs <;> simp

/-- A text that does not end with a break is not an empty line. -/
theorem splitLines_ne_blank (h : ∀ c, cs.getLast? = some c → isLineBreak c = false) :
    splitLines cs ≠ [[]] := by
  fun_cases splitLines cs with
  | case1 => simp
  | case2 rest =>
    intro hs
    obtain rfl := splitLines_eq_nil (List.cons.inj hs).2
    cases h '\n' rfl
  | case3 c rest _ hc =>
    intro hs
    obtain rfl := splitLines_eq_nil (List.cons.inj hs).2
    exact absurd hc (Bool.eq_false_iff.mp (h c rfl))
  | case4 | case5 => simp

/-- The first line starts the text. -/
theorem prefix_of_splitLines (h : splitLines cs = line :: lines) : line <+: cs := by
  fun_induction splitLines cs generalizing line lines with
  | case1 => cases h
  | case2 | case3 =>
    cases h
    exact nil_prefix
  | case4 c rest =>
    cases h
    exact ⟨rest, rfl⟩
  | case5 c rest _ _ first more heq ih =>
    cases h
    exact cons_prefix_cons.mpr ⟨rfl, ih heq⟩

/-- Escapes leave the lines where they are. -/
theorem splitLines_escapeDoc (cs : List Char) :
    splitLines (escapeDoc cs) = (splitLines cs).map escapeDoc := by
  fun_induction escapeDoc cs with
  | case1 rest ih =>
    show splitLines (['\\', '\x22', '\\', '\x22', '\\', '\x22'] ++ escapeDoc rest) =
      (splitLines (tripleMark ++ rest)).map escapeDoc
    rw [splitLines_append (by simp [isLineBreak]) (by decide),
      splitLines_append (by simp [isLineBreak, tripleMark]) (by decide), ih]
    cases splitLines rest <;> rfl
  | case2 c rest hne ih =>
    by_cases hc : isLineBreak c = true
    · have hquote : c ≠ '\x22' := by
        rintro rfl
        cases hc
      have hslash : c ≠ '\\' := by
        rintro rfl
        cases hc
      rw [if_neg hslash, singleton_append]
      by_cases hcrlf : c = '\r' ∧ ∃ more, rest = '\n' :: more
      · obtain ⟨rfl, more, rfl⟩ := hcrlf
        have hnewline : escapeDoc ('\n' :: more) = '\n' :: escapeDoc more :=
          escapeDoc_cons (by decide) (by decide) more
        rw [hnewline, splitLines_newline, splitLines_newline] at ih
        rw [hnewline, splitLines, splitLines]
        exact ih
      · rw [splitLines_break hc hcrlf, splitLines_break hc, ih, map_cons]
        · rfl
        · rintro ⟨rfl, more, hmore⟩
          refine hcrlf ⟨rfl, ?_⟩
          cases rest with
          | nil => cases hmore
          | cons d rest =>
            obtain ⟨e, tail, he, hd⟩ := escapes_escapeDoc.2 d rest
            rw [he] at hmore
            cases hmore
            rcases hd with hd | ⟨rfl, -⟩
            · cases hd
            · exact ⟨rest, rfl⟩
    · have hbreak := Bool.eq_false_iff.mpr hc
      have hline : ∀ line, line <+: rest →
          escapeDoc (c :: line) = (if c = '\\' then ['\\', '\\'] else [c]) ++ escapeDoc line := by
        intro line hp
        rw [escapeDoc]
        rintro more rfl rfl
        obtain ⟨after, he⟩ := hp
        exact hne _ rfl he.symm
      have hplain : ∀ d ∈ (if c = '\\' then ['\\', '\\'] else [c]), isLineBreak d = false := by
        split
        · simp [isLineBreak]
        · simpa using hbreak
      rw [splitLines_append hplain (by split <;> simp), splitLines_cons hbreak, ih]
      cases hrest : splitLines rest with
      | nil => simp [startFirst, hline [] nil_prefix, escapeDoc]
      | cons line lines => simp [startFirst, hline line (prefix_of_splitLines hrest)]
  | case3 => rfl

/-! ### Documentation strings -/

/-- A line after an indent; an empty line has none. -/
def indented (n : Nat) (line : List Char) : List Char :=
  if line = [] then [] else List.replicate n ' ' ++ line

/-- A line without an indent. -/
def unindented (n : Nat) (line : List Char) : List Char :=
  if List.replicate n ' ' <+: line then line.drop n else line

/-- A text with the indent removed from its lines after the first. -/
def outdent (n : Nat) (value : List Char) : List Char :=
  match splitAtEach '\n' value with
  | [] => []
  | first :: rest => ['\n'].intercalate (first :: rest.map (unindented n))

/-- The text of the literal with the given lines. -/
def docValue (n : Nat) : List (List Char) → List Char
  | [] => []
  | [line] => line
  | first :: rest =>
    ['\n'].intercalate (first :: (rest.map (indented n) ++ [List.replicate n ' ']))

/-- The lines of a documentation string after an indent, joined. -/
def docLiteral (text : String) (n : Nat) : List Char :=
  ['\n'].intercalate ((docString text (String.ofList (List.replicate n ' '))).map String.toList)

theorem unindented_indented (n : Nat) (line : List Char) :
    unindented n (indented n line) = line := by
  rw [indented]
  split
  · rename_i hline
    subst hline
    rw [unindented]
    split <;> simp
  · rw [unindented, if_pos (prefix_append _ _)]
    simp

theorem escapeDoc_intercalate (lines : List (List Char)) :
    escapeDoc (['\n'].intercalate lines) = ['\n'].intercalate (lines.map escapeDoc) := by
  induction lines with
  | nil => rfl
  | cons line lines ih =>
    cases lines with
    | nil => simp
    | cons next lines =>
      have hparted : ∀ more, Parted line ('\n' :: more) := fun more => .inr (by simp)
      rw [intercalate_cons_cons, append_assoc, singleton_append,
        escapeDoc_append (hparted _), escapeDoc_cons (by decide) (by decide), ih]
      simp

theorem escapeDoc_spaces (n : Nat) (cs : List Char) :
    escapeDoc (List.replicate n ' ' ++ cs) = List.replicate n ' ' ++ escapeDoc cs := by
  induction n with
  | zero => rfl
  | succ n ih =>
    rw [replicate_succ, cons_append, escapeDoc_cons (by decide) (by decide), ih]
    rfl

theorem escapeDoc_eq_nil : escapeDoc cs = [] ↔ cs = [] := by
  cases cs with
  | nil => exact iff_of_true rfl rfl
  | cons c cs =>
    obtain ⟨d, more, he, -⟩ := escapes_escapeDoc.2 c cs
    simp [he]

theorem escapeDoc_indented (n : Nat) (line : List Char) :
    escapeDoc (indented n line) = indented n (escapeDoc line) := by
  rw [indented, indented]
  by_cases hline : line = []
  · rw [if_pos hline, if_pos (escapeDoc_eq_nil.mpr hline)]
    rfl
  · rw [if_neg hline, if_neg (mt escapeDoc_eq_nil.mp hline), escapeDoc_spaces]

theorem escapeDoc_docValue (n : Nat) (lines : List (List Char)) :
    escapeDoc (docValue n lines) = docValue n (lines.map escapeDoc) := by
  have hspaces : escapeDoc (List.replicate n ' ') = List.replicate n ' ' := by
    simpa [escapeDoc] using escapeDoc_spaces n []
  have hindented : escapeDoc ∘ indented n = indented n ∘ escapeDoc :=
    funext (escapeDoc_indented n)
  rcases lines with _ | ⟨first, _ | ⟨next, rest⟩⟩
  · rfl
  · rfl
  · rw [docValue, escapeDoc_intercalate]
    · simp [docValue, escapeDoc_indented, hindented, hspaces]
    · simp

theorem intercalate_append_first (mark front part : List Char) (parts : List (List Char)) :
    mark.intercalate ((front ++ part) :: parts) = front ++ mark.intercalate (part :: parts) := by
  cases parts <;> simp [intercalate_cons_cons]

theorem intercalate_concat (mark part : List Char) {parts : List (List Char)} (h : parts ≠ []) :
    mark.intercalate (parts ++ [part]) = mark.intercalate parts ++ mark ++ part := by
  induction parts with
  | nil => exact absurd rfl h
  | cons first parts ih =>
    cases parts with
    | nil => simp [intercalate_cons_cons]
    | cons next parts =>
      have hnext := ih (cons_ne_nil next parts)
      rw [cons_append] at hnext
      simp [intercalate_cons_cons, hnext]

theorem toList_tripleQuote : tripleQuote.toList = tripleMark := by
  decide

/-- **A documentation string consists of its indent, the escaped lines and the marks.** -/
theorem docLiteral_eq (text : String) (n : Nat) : docLiteral text n =
    List.replicate n ' ' ++ tripleMark ++
      (escapeDoc (docValue n (splitLines (trim text.toList))) ++ tripleMark) := by
  rw [docLiteral, docString, docBody_eq_escapeDoc, splitLines_escapeDoc, escapeDoc_docValue]
  rcases (splitLines (trim text.toList)).map escapeDoc with _ | ⟨first, _ | ⟨next, rest⟩⟩
  · simp [docValue, toList_tripleQuote]
  · simp [docValue, toList_tripleQuote]
  · have hlines : ((next :: rest).map String.ofList).map (fun line =>
        if line = "" then "" else String.ofList (List.replicate n ' ') ++ line) =
          (next :: rest).map fun line => String.ofList (indented n line) := by
      simp only [map_map]
      refine map_congr_left fun line _ => ?_
      by_cases hline : line = []
      · simp [hline, indented]
      · simp [hline, indented]
    rw [docValue]
    · simp only [map_cons] at hlines ⊢
      rw [hlines]
      have htoList :
          String.toList ∘ (fun line => String.ofList (indented n line)) = indented n := by
        funext line
        exact String.toList_ofList
      simp only [map_append, map_cons, map_nil, map_map, String.toList_append,
        String.toList_ofList, toList_tripleQuote, htoList, singleton_append]
      rw [← cons_append, intercalate_concat _ _ (cons_ne_nil _ _),
        intercalate_concat _ _ (cons_ne_nil _ _), intercalate_append_first]
      simp only [append_assoc]
    · simp

/-! ### What is read -/

theorem quotesAtEnd_append (ds : List Char) (h : quotesAtEnd cs ≠ cs.length) :
    quotesAtEnd (ds ++ cs) = quotesAtEnd cs := by
  have hle := quotesAtEnd_le cs
  induction ds with
  | nil => rfl
  | cons d ds ih =>
    rw [cons_append, quotesAtEnd, if_neg, ih]
    rw [ih, length_append]
    omega

/-- A literal on more than one line ends with an indent. -/
theorem quotesAtEnd_docValue (n : Nat) (first next : List Char) (rest : List (List Char)) :
    quotesAtEnd (docValue n (first :: next :: rest)) = 0 := by
  have hspaces : quotesAtEnd ('\n' :: List.replicate n ' ') = 0 := by
    rw [quotesAtEnd_of_ne (by decide)]
    induction n with
    | zero => rfl
    | succ n ih => rw [replicate_succ, quotesAtEnd_of_ne (by decide), ih]
  rw [docValue, ← cons_append, intercalate_concat _ _ (cons_ne_nil _ _), append_assoc,
    singleton_append, quotesAtEnd_append]
  · exact hspaces
  · rw [hspaces, length_cons]
    omega
  · simp

theorem splitLines_intercalate (h : ∀ line ∈ lines, ∀ c ∈ line, isLineBreak c = false) :
    splitLines (['\n'].intercalate (lines ++ [[]])) = lines := by
  induction lines with
  | nil => rfl
  | cons line lines ih =>
    have hrest := ih fun line hline => h line (mem_cons_of_mem _ hline)
    obtain ⟨next, more, hmore⟩ : ∃ next more, lines ++ [[]] = next :: more :=
      exists_cons_of_ne_nil (by simp)
    rw [cons_append, hmore, intercalate_cons_cons, append_assoc,
      singleton_append, splitLines_line (h line mem_cons_self), ← hmore, hrest]

/-- The lines of a literal, without the indent, are those of the text. -/
theorem splitLines_outdent_docValue (n : Nat) (hne : lines ≠ [[]])
    (h : ∀ line ∈ lines, ∀ c ∈ line, isLineBreak c = false) :
    splitLines (outdent n (docValue n lines)) = lines := by
  have hnewline : ∀ line ∈ lines, '\n' ∉ line := by
    intro line hline hmem
    cases h line hline '\n' hmem
  rcases lines with _ | ⟨first, _ | ⟨next, rest⟩⟩
  · rfl
  · rw [docValue, outdent, splitAtEach_of_notMem (hnewline first mem_cons_self)]
    simpa [splitLines, startFirst] using
      splitLines_append (h first mem_cons_self) (by simpa using hne) []
  · have hparts : ∀ part ∈ first :: ((next :: rest).map (indented n) ++ [List.replicate n ' ']),
        '\n' ∉ part := by
      intro part hpart hmem
      rw [← cons_append, mem_append, mem_cons, mem_map,
        mem_singleton] at hpart
      rcases hpart with (rfl | ⟨line, hline, rfl⟩) | rfl
      · exact hnewline _ mem_cons_self hmem
      · rw [indented] at hmem
        split at hmem
        · cases hmem
        · rcases mem_append.mp hmem with hspace | hmem
          · cases eq_of_mem_replicate hspace
          · exact hnewline line (mem_cons_of_mem _ hline) hmem
      · cases eq_of_mem_replicate hmem
    have hspaces : unindented n (List.replicate n ' ') = [] := by
      rw [unindented, if_pos prefix_rfl, drop_replicate, Nat.sub_self]
      rfl
    have hlines : unindented n ∘ indented n = id := funext (unindented_indented n)
    rw [docValue, outdent, splitAtEach_intercalate (cons_ne_nil _ _) hparts]
    · dsimp only
      rw [map_append, map_map, hlines, map_id, map_singleton, hspaces,
        ← cons_append, splitLines_intercalate h]
    · simp

/-- The text, without the white space around it, is one line that ends with quotes that are no
triples. -/
def Dangling (text : String) : Prop :=
  ∃ line, Text.splitLines (Text.trim text.toList) = [line] ∧ quotesAtEnd line % 3 ≠ 0

/-- **A documentation string is one literal with the lines of its text, exactly if the text is not
dangling.** -/
theorem docString_closed_iff (text : String) (n : Nat) :
    ∃ body, docLiteral text n = List.replicate n ' ' ++ tripleMark ++ body ∧
      ((∃ value, readTriple body = some (value, []) ∧
        Text.splitLines (outdent n value) = Text.splitLines (Text.trim text.toList)) ↔
          ¬ Dangling text) := by
  refine ⟨_, docLiteral_eq text n, ?_⟩
  have hlast : ∀ c, (Text.trim text.toList).getLast? = some c → Text.isLineBreak c = false := by
    intro c hc
    have hblank := getLast?_trimEnd hc
    rw [Bool.eq_false_iff] at hblank ⊢
    exact mt isBlank_of_isLineBreak hblank
  have hblank := splitLines_ne_blank hlast
  have hbreaks : ∀ line ∈ Text.splitLines (Text.trim text.toList), ∀ c ∈ line,
      Text.isLineBreak c = false := fun line hline c hc => not_isLineBreak_of_mem hline hc
  have hread : quotesAtEnd (docValue n (Text.splitLines (Text.trim text.toList))) % 3 = 0 ↔
      ¬ Dangling text := by
    rw [Dangling]
    rcases Text.splitLines (Text.trim text.toList) with _ | ⟨first, _ | ⟨next, rest⟩⟩
    · simp [docValue, quotesAtEnd]
    · simp [docValue]
    · simp [quotesAtEnd_docValue]
  rw [← hread]
  constructor
  · rintro ⟨value, hvalue, -⟩
    by_contra hdangling
    obtain ⟨value', left, hvalue', hleft⟩ := read_escapeDoc_dangling hdangling
    rw [hvalue'] at hvalue
    cases hvalue
    exact hleft rfl
  · intro hclosed
    refine ⟨_, ?_, splitLines_outdent_docValue n hblank hbreaks⟩
    rw [read_escapeDoc (.inl hclosed)]
    simp [readTriple, readBody, tripleMark, before]

/-- A quote at the end of a line meets the closing mark, and the last of the four is left over. -/
theorem docString_left_over : Dangling "say \x22hi\x22" ∧
    docString "say \x22hi\x22" "" = ["\x22\x22\x22say \x22hi\x22\x22\x22\x22"] ∧
    docLiteral "say \x22hi\x22" 0 = tripleMark ++ "say \x22hi".toList ++ tripleMark ++ ['\x22'] ∧
    readTriple ("say \x22hi".toList ++ tripleMark ++ ['\x22']) =
      some ("say \x22hi".toList, ['\x22']) :=
  ⟨⟨"say \x22hi\x22".toList, by decide, by decide⟩, by decide, by decide, by decide⟩

end Avroc
