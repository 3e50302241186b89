import Avroc.Proofs.Idl.LexemeClasses
import Mathlib.Data.List.Infix

/-!
# Texts as sequences of lexemes

A text falls into lexemes one after the other, up to its end or to a place from which none starts.

* `Partition`, `partition_lexemes` : **a text falls into its lexemes.**
* `tokenize_partition` : **the tokens are the lexemes that are no white space and no comments**,
  each with its line and the last documentation comment before it.
-/

namespace Avroc.Idl

open List

variable {kind : LexemeKind} {cs : List Char} {more : Nat}

/-! ### Lexemes -/

/-- The lexeme starts the text. -/
structure StartsWith (cs : List Char) (l : Lexeme) : Prop where
  spelled : l.kind.Spells l.text
  prefixed : l.text <+: cs
  first : ∀ kind : LexemeKind, kind.ctorIdx < l.kind.ctorIdx →
    ∀ text, text <+: cs → ¬ kind.Spells text
  chosen : ∀ text, text <+: cs → l.kind.Spells text → ChosenOver l.text text

/-- No lexeme starts the text. -/
def NoneStarts (cs : List Char) : Prop :=
  ∀ (kind : LexemeKind) text, text <+: cs → ¬ kind.Spells text

/-- The classes stand in the order of their numbers. -/
theorem classes_sorted : classes.Pairwise fun a b => a.1.ctorIdx < b.1.ctorIdx := by
  decide

theorem exists_mem_classes (kind : LexemeKind) : ∃ length, (kind, length) ∈ classes := by
  cases kind <;> exact ⟨_, by simp [classes]; rfl⟩

theorem Measures.not_spells {length : List Char → Nat} (h : Measures kind length) {text : List Char}
    (hp : text <+: cs) (hnone : length cs = 0) : ¬ kind.Spells text :=
  fun hs => absurd hnone (Nat.ne_of_gt (h.chosen cs text hp hs).1)

/-- **What is found at the start of a text is the lexeme that starts it.** -/
theorem startsWith_of_lexeme? (h : lexeme? cs = some (kind, more)) :
    StartsWith cs ⟨kind, cs.take (more + 1)⟩ := by
  obtain ⟨before, ⟨kind', length⟩, after, hclasses, hfound, hbefore⟩ :=
    findSome?_eq_some_iff.mp h
  dsimp only at hfound
  split at hfound
  · cases hfound
  · rename_i n hn
    cases hfound
    have hmem : (kind, length) ∈ classes :=
      hclasses ▸ mem_append_right _ mem_cons_self
    have hspelled := (measures_of_mem hmem).spelled cs (by omega)
    have hchosen := (measures_of_mem hmem).chosen cs
    rw [hn] at hspelled hchosen
    refine ⟨hspelled, take_prefix _ _, ?_, fun text hp hs => (hchosen text hp hs).2⟩
    intro earlier hlt text hp
    -- the classes are in order, so an earlier one stands before the one that was found
    obtain ⟨length', hmem'⟩ := exists_mem_classes earlier
    have hmeasures := measures_of_mem hmem'
    have hsorted := classes_sorted
    rw [hclasses] at hmem' hsorted
    rcases mem_append.mp hmem' with hm | hm
    · have hnone := hbefore _ hm
      dsimp only at hnone
      split at hnone
      · exact hmeasures.not_spells hp ‹_›
      · cases hnone
    · rcases mem_cons.mp hm with he | hm
      · cases he
        exact absurd hlt (Nat.lt_irrefl _)
      · have hgt := rel_of_pairwise_cons (pairwise_append.mp hsorted).2.1 hm
        exact absurd hlt (Nat.lt_asymm hgt)

/-- Nothing is found if no lexeme starts the text. -/
theorem noneStarts_of_lexeme? (h : lexeme? cs = none) : NoneStarts cs := by
  intro kind text hp
  obtain ⟨length, hmem⟩ := exists_mem_classes kind
  have hnone := findSome?_eq_none_iff.mp h _ hmem
  dsimp only at hnone
  split at hnone
  · exact (measures_of_mem hmem).not_spells hp ‹_›
  · cases hnone

/-- The text falls into the lexemes and what is left, from which none starts. -/
inductive Partition : List Char → List Lexeme → List Char → Prop
  | stop {cs : List Char} : NoneStarts cs → Partition cs [] cs
  | next {cs rest left : List Char} {l : Lexeme} {ls : List Lexeme} : StartsWith cs l →
      l.text ≠ [] → l.text ++ rest = cs → Partition rest ls left → Partition cs (l :: ls) left

theorem lexemesFrom_drop (taken : Nat) (cs : List Char) :
    lexemesFrom taken cs = lexemes (cs.drop taken) := by
  induction cs generalizing taken with
  | nil => cases taken <;> rfl
  | cons c cs ih =>
    cases taken with
    | zero => rfl
    | succ taken => exact ih taken

theorem lexemes_of_some {c : Char} {rest : List Char}
    (h : lexeme? (c :: rest) = some (kind, more)) : lexemes (c :: rest) =
      (⟨kind, c :: rest.take more⟩ :: (lexemes (rest.drop more)).1,
        (lexemes (rest.drop more)).2) := by
  rw [lexemes, lexemesFrom_zero, h]
  simp only [lexemesFrom_drop]

/-- **A text falls into its lexemes.** -/
theorem partition_lexemes (cs : List Char) : Partition cs (lexemes cs).1 (lexemes cs).2 := by
  induction hn : cs.length using Nat.strongRecOn generalizing cs with
  | ind n ih =>
    cases cs with
    | nil => exact .stop (noneStarts_of_lexeme? rfl)
    | cons c rest =>
      cases hlex : lexeme? (c :: rest) with
      | none =>
        rw [lexemes, lexemesFrom_zero, hlex]
        exact .stop (noneStarts_of_lexeme? hlex)
      | some found =>
        obtain ⟨kind, more⟩ := found
        rw [lexemes_of_some hlex]
        refine .next (startsWith_of_lexeme? hlex) (cons_ne_nil _ _) ?_ (ih _ ?_ _ rfl)
        · exact congrArg _ (take_append_drop more rest)
        · rw [← hn, length_drop, length_cons]
          omega

theorem Partition.flatMap_append {left : List Char} {ls : List Lexeme} (h : Partition cs ls left) :
    ls.flatMap (·.text) ++ left = cs := by
  induction h with
  | stop => rfl
  | next _ _ he _ ih => rw [flatMap_cons, append_assoc, ih, he]

/-! ### Tokens -/

/-- The line on which a text goes on after the lexemes. -/
def lineAfter (ls : List Lexeme) : Nat :=
  1 + (ls.flatMap (·.text)).count '\n'

/-- The last documentation comment after the last token of the lexemes. -/
def pendingDoc (ls : List Lexeme) : Option String :=
  ((ls.reverse.takeWhile fun l => l.kind.token?.isNone).find? fun l => l.kind = .doc).map
    fun l => cleanDoc l.text

/-- The token of a lexeme that comes after the given ones, if it has one. -/
def tokenAfter (before : List Lexeme) (l : Lexeme) : Option Token :=
  l.kind.token?.map fun kind =>
    ⟨kind, l.value, lineAfter before, pendingDoc before, l.kind = .escaped⟩

/-- The tokens of lexemes, with the one at the end of the text. -/
def tokensAmong (ls : List Lexeme) : List Token :=
  ((ls.inits.zip ls).filterMap fun p => tokenAfter p.1 p.2) ++ [.eof (lineAfter ls)]

theorem lineAfter_concat (ls : List Lexeme) (l : Lexeme) :
    lineAfter (ls ++ [l]) = lineAfter ls + Text.countNewlines l.text := by
  simp [lineAfter, Text.countNewlines, Nat.add_assoc]

theorem pendingDoc_concat (ls : List Lexeme) (l : Lexeme) : pendingDoc (ls ++ [l]) =
    if l.kind.token?.isSome then none
    else if l.kind = .doc then some (cleanDoc l.text) else pendingDoc ls := by
  rw [pendingDoc, reverse_append, reverse_singleton, singleton_append,
    takeWhile_cons]
  cases l.kind.token? with
  | some kind => rfl
  | none =>
    by_cases hdoc : l.kind = .doc
    · simp [hdoc]
    · simp [hdoc, pendingDoc]

/-- The lexemes before change the line and the documentation only. -/
theorem tokensOf_eq (before ls : List Lexeme) : tokensOf (lineAfter before) (pendingDoc before) ls =
    (((ls.inits.map (before ++ ·)).zip ls).filterMap fun p => tokenAfter p.1 p.2) ++
      [.eof (lineAfter (before ++ ls))] := by
  induction ls generalizing before with
  | nil => simp [tokensOf]
  | cons l ls ih =>
    have hnext := ih (before ++ [l])
    rw [lineAfter_concat, pendingDoc_concat] at hnext
    have hinits : (ls.inits.map (l :: ·)).map (before ++ ·) =
        ls.inits.map (before ++ [l] ++ ·) := by
      simp
    rw [tokensOf, List.inits, map_cons, append_nil, hinits, zip_cons_cons,
      filterMap_cons, tokenAfter]
    rw [append_assoc, singleton_append] at hnext
    cases hkind : l.kind.token? with
    | some kind =>
      rw [hkind] at hnext
      exact congrArg _ hnext
    | none =>
      rw [hkind] at hnext
      exact hnext

theorem foldl_lines (ls : List Lexeme) (line : Nat) :
    ls.foldl (fun line l => line + Text.countNewlines l.text) line =
      line + (ls.flatMap (·.text)).count '\n' := by
  induction ls generalizing line with
  | nil => rfl
  | cons l ls ih => rw [foldl_cons, ih, flatMap_cons, count_append,
      Text.countNewlines, Nat.add_assoc]

/-- **The tokens of a text are those of the lexemes that it falls into**; a text that does not fall
into lexemes is refused on the line of the first place from which none starts. -/
theorem tokenize_partition (path : Option Path) (text : String) :
    ∃ ls left, Partition text.toList ls left ∧ ls.flatMap (·.text) ++ left = text.toList ∧
      (left = [] ∧ tokenize path text = .ok (tokensAmong ls) ∨
        ∃ c rest, left = c :: rest ∧ tokenize path text =
          .error (.parse (.unexpectedCharacter c) path (some (lineAfter ls)))) := by
  have hpartition := partition_lexemes text.toList
  refine ⟨_, _, hpartition, hpartition.flatMap_append, ?_⟩
  rw [tokenize]
  split
  · rename_i found hfound
    refine .inl ⟨by rw [hfound], ?_⟩
    rw [hfound, show tokensOf 1 none found = _ from tokensOf_eq [] found, tokensAmong]
    simp
  · rename_i found c rest hfound
    refine .inr ⟨c, rest, by rw [hfound], ?_⟩
    rw [hfound, foldl_lines]
    rfl

end Avroc.Idl
