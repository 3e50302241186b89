import Avroc.Module.TypeHint
import Avroc.Proofs.FirstOccurrences

/-!
# Alternatives of a hint

A hint is written with bars between its alternatives.  Hints of unions are put together from the
pieces between all bars, also between those in brackets, and each piece is taken only once.  So a
piece that two alternatives have in common, or one alternative has twice, is missing.

* `alternatives_unionHint_iff` : **a union is written rightly exactly if it is separable.**
-/

namespace Avroc

open List

variable {as ps hints : List String} {p text : String} {depth : Nat} {nullable : Bool}

/-! ### Cutting at all bars -/

/-- The pieces of a text between its bars. -/
def pieces (text : String) : List String :=
  Text.splitAtWord " | " text

/-- The text consists of pieces that have no bars in them. -/
def Regular (text : String) : Prop :=
  ∃ ps : List String, ps ≠ [] ∧ (∀ p ∈ ps, '|' ∉ p.toList) ∧ text = " | ".intercalate ps

/-- A text without bars goes into the first piece. -/
theorem splitAtWordFrom_append {p : List Char} (h : '|' ∉ p) (rest : List Char)
    (hrest : rest.head? ≠ some '|') :
    Text.splitAtWordFrom [' ', '|', ' '] 0 (p ++ rest) =
      p.foldr Text.consFirst (Text.splitAtWordFrom [' ', '|', ' '] 0 rest) := by
  induction p with
  | nil => rfl
  | cons c p ih =>
    obtain ⟨-, hp⟩ := not_or.mp (fun hm => h (mem_cons.mpr hm))
    have hnext : (p ++ rest).head? ≠ some '|' := by
      cases p with
      | nil => exact hrest
      | cons d p => simpa using fun hd : d = '|' => hp (hd ▸ mem_cons_self)
    have hno : [' ', '|', ' '].isPrefixOf (c :: (p ++ rest)) = false := by
      cases hr : p ++ rest with
      | nil => simp [List.isPrefixOf]
      | cons d r =>
        rw [hr] at hnext
        have hd : ('|' == d) = false := beq_eq_false_iff_ne.mpr fun hd => hnext (by simp [← hd])
        simp [List.isPrefixOf, hd]
    rw [cons_append, Text.splitAtWordFrom, hno, Bool.and_false, foldr_cons, ih hp]
    rfl

theorem foldr_consFirst (p q : List Char) (qs : List (List Char)) :
    p.foldr Text.consFirst (q :: qs) = (p ++ q) :: qs := by
  induction p with
  | nil => rfl
  | cons c p ih => rw [foldr_cons, ih, Text.consFirst, cons_append]

theorem pieces_bar (h : '|' ∉ p.toList) (rest : String) :
    pieces (p ++ " | " ++ rest) = p :: pieces rest := by
  have hbar : (p ++ " | " ++ rest).toList = p.toList ++ (' ' :: '|' :: ' ' :: rest.toList) := by
    simp
  have hcut : Text.splitAtWordFrom [' ', '|', ' '] 0 (' ' :: '|' :: ' ' :: rest.toList) =
      [] :: Text.splitAtWordFrom [' ', '|', ' '] 0 rest.toList := rfl
  have hword : " | ".toList = [' ', '|', ' '] := rfl
  rw [pieces, pieces, Text.splitAtWord, Text.splitAtWord, hbar, hword,
    splitAtWordFrom_append h _ (by simp), hcut, foldr_consFirst]
  simp

theorem pieces_of_no_bar (h : '|' ∉ p.toList) : pieces p = [p] := by
  have hword : " | ".toList = [' ', '|', ' '] := rfl
  have happend := splitAtWordFrom_append h [] (by simp)
  rw [append_nil, Text.splitAtWordFrom, foldr_consFirst] at happend
  rw [pieces, Text.splitAtWord, hword, happend]
  simp

/-- Pieces that have been joined are found again. -/
theorem pieces_intercalate (hne : ps ≠ []) (h : ∀ p ∈ ps, '|' ∉ p.toList) :
    pieces (" | ".intercalate ps) = ps := by
  induction ps with
  | nil => exact absurd rfl hne
  | cons p ps ih =>
    obtain ⟨hp, hps⟩ := forall_mem_cons.mp h
    by_cases hnil : ps = []
    · rw [hnil, String.intercalate_singleton, pieces_of_no_bar hp]
    · rw [String.intercalate_cons_of_ne_nil hnil, pieces_bar hp, ih hnil hps]

theorem splitAtWordFrom_ne_nil (word : List Char) (taken : Nat) (cs : List Char) :
    Text.splitAtWordFrom word taken cs ≠ [] := by
  induction cs generalizing taken with
  | nil => exact cons_ne_nil _ _
  | cons c cs ih =>
    cases taken with
    | succ left => exact ih left
    | zero =>
      rw [Text.splitAtWordFrom]
      split
      · exact cons_ne_nil _ _
      · cases Text.splitAtWordFrom word 0 cs <;> exact cons_ne_nil _ _

theorem pieces_ne_nil (text : String) : pieces text ≠ [] :=
  fun h => splitAtWordFrom_ne_nil _ _ _ (map_eq_nil_iff.mp h)

namespace Regular

variable {text' : String}

theorem intercalate_pieces (h : Regular text) : " | ".intercalate (pieces text) = text := by
  obtain ⟨ps, hne, hps, rfl⟩ := h
  rw [pieces_intercalate hne hps]

theorem no_bar (h : Regular text) (hp : p ∈ pieces text) : '|' ∉ p.toList := by
  obtain ⟨ps, hne, hps, rfl⟩ := h
  rw [pieces_intercalate hne hps] at hp
  exact hps p hp

theorem of_no_bar (h : '|' ∉ text.toList) : Regular text :=
  ⟨[text], by simp, by simpa using h, by simp⟩

theorem append (h : Regular text) (h' : Regular text') : Regular (text ++ text') := by
  obtain ⟨ps, hne, hps, rfl⟩ := h
  induction ps with
  | nil => exact absurd rfl hne
  | cons p ps ih =>
    obtain ⟨hp, hps⟩ := forall_mem_cons.mp hps
    by_cases hnil : ps = []
    · subst hnil
      obtain ⟨qs, hqs, hq, rfl⟩ := h'
      obtain ⟨q, qs, rfl⟩ := exists_cons_of_ne_nil hqs
      obtain ⟨hq, hqs⟩ := forall_mem_cons.mp hq
      refine ⟨(p ++ q) :: qs, by simp, forall_mem_cons.mpr ⟨?_, hqs⟩, ?_⟩
      · rw [String.toList_append, mem_append]
        exact not_or.mpr ⟨hp, hq⟩
      · rw [String.intercalate_singleton, String.intercalate_cons_append]
    · obtain ⟨qs, hqs, hq, he⟩ := ih hnil hps
      refine ⟨p :: qs, by simp, forall_mem_cons.mpr ⟨hp, hq⟩, ?_⟩
      rw [String.intercalate_cons_of_ne_nil hnil, String.intercalate_cons_of_ne_nil hqs, ← he]
      simp only [String.append_assoc]

end Regular

/-! ### Brackets -/

/-- The depth of brackets after a character; `none` if it closes a bracket that is not open. -/
def depthAfter (depth : Nat) (c : Char) : Option Nat :=
  if c = '[' then some (depth + 1)
  else if c = ']' then if depth = 0 then none else some (depth - 1)
  else some depth

/-- The depth of brackets after a text. -/
def nesting (depth : Nat) (text : String) : Option Nat :=
  text.toList.foldlM depthAfter depth

/-- Brackets are closed in their order, and all of them. -/
def Balanced (text : String) : Prop :=
  nesting 0 text = some 0

instance (text : String) : Decidable (Balanced text) :=
  inferInstanceAs (Decidable (_ = _))

theorem nesting_append (depth : Nat) (text text' : String) :
    nesting depth (text ++ text') = (nesting depth text).bind fun d => nesting d text' := by
  rw [nesting, String.toList_append, foldlM_append]
  rfl

/-- The text has no bars and no brackets. -/
def Unmarked (text : String) : Prop :=
  ∀ c ∈ text.toList, c ≠ '|' ∧ c ≠ '[' ∧ c ≠ ']'

instance (text : String) : Decidable (Unmarked text) :=
  decidable_of_iff ((text.toList.all fun c => c != '|' && c != '[' && c != ']') = true)
    (by simp [Unmarked, and_assoc])

theorem Unmarked.no_bar (h : Unmarked text) : '|' ∉ text.toList :=
  fun hm => (h _ hm).1 rfl

theorem nesting_of_no_bracket (h : ∀ c ∈ text.toList, c ≠ '[' ∧ c ≠ ']') (depth : Nat) :
    nesting depth text = some depth := by
  rw [nesting]
  generalize text.toList = cs at h
  induction cs with
  | nil => rfl
  | cons c cs ih =>
    obtain ⟨hc, hcs⟩ := forall_mem_cons.mp h
    have hstep : depthAfter depth c = some depth := by simp [depthAfter, hc]
    rw [foldlM_cons, hstep]
    exact ih hcs

theorem Unmarked.nesting_eq (h : Unmarked text) (depth : Nat) : nesting depth text = some depth :=
  nesting_of_no_bracket (fun c hc => (h c hc).2) depth

theorem depthAfter_add {d : Nat} {c : Char} (h : depthAfter depth c = some d) (more : Nat) :
    depthAfter (depth + more) c = some (d + more) := by
  unfold depthAfter at h ⊢
  grind

/-- Around a text there may be more brackets. -/
theorem nesting_add {e : Nat} (h : nesting depth text = some e) (more : Nat) :
    nesting (depth + more) text = some (e + more) := by
  rw [nesting] at h ⊢
  generalize text.toList = cs at h ⊢
  induction cs generalizing depth with
  | nil =>
    obtain rfl : depth = e := Option.some.inj h
    rfl
  | cons c cs ih =>
    rw [foldlM_cons] at h ⊢
    obtain ⟨d, hd, h⟩ := Option.bind_eq_some_iff.mp h
    rw [depthAfter_add hd more]
    exact ih h

theorem nesting_bar (depth : Nat) (text text' : String) :
    nesting depth (text ++ " | " ++ text') =
      (nesting depth text).bind fun d => nesting d text' := by
  have hbar (d : Nat) : nesting d " | " = some d := rfl
  rw [nesting_append, nesting_append]
  cases nesting depth text with
  | none => rfl
  | some d => simp [hbar]

theorem balanced_intercalate {texts : List String} (h : ∀ text ∈ texts, Balanced text) :
    Balanced (" | ".intercalate texts) := by
  induction texts with
  | nil => decide
  | cons text texts ih =>
    obtain ⟨htext, htexts⟩ := forall_mem_cons.mp h
    by_cases hnil : texts = []
    · rwa [hnil, String.intercalate_singleton]
    · rw [String.intercalate_cons_of_ne_nil hnil, Balanced, nesting_bar, htext]
      exact ih htexts

/-! ### Cutting outside brackets -/

/-- A piece put in front of the first alternative, with a bar. -/
def attach (piece : String) : List String → List String
  | [] => [piece]
  | first :: rest => (piece ++ " | " ++ first) :: rest

/-- The pieces, put together again where brackets are open between them. -/
def regroup (depth : Nat) : List String → List String
  | [] => []
  | piece :: rest =>
    match nesting depth piece with
    | some 0 => piece :: regroup 0 rest
    | some (depth + 1) => attach piece (regroup (depth + 1) rest)
    | none => [" | ".intercalate (piece :: rest)]

/-- The alternatives of a text: its parts between the bars that are not in brackets. -/
def alternatives (text : String) : List String :=
  regroup 0 (pieces text)

theorem pieces_attach (hp : '|' ∉ p.toList) (as : List String) :
    (attach p as).flatMap pieces = p :: as.flatMap pieces := by
  cases as with
  | nil => simp [attach, pieces_of_no_bar hp]
  | cons a as => simp [attach, pieces_bar hp]

/-- The alternatives have the pieces that they are made of. -/
theorem flatMap_pieces_regroup (h : ∀ p ∈ ps, '|' ∉ p.toList) (depth : Nat) :
    (regroup depth ps).flatMap pieces = ps := by
  induction ps generalizing depth with
  | nil => rfl
  | cons p ps ih =>
    obtain ⟨hp, hps⟩ := forall_mem_cons.mp h
    rw [regroup]
    split
    · rw [flatMap_cons, ih hps, pieces_of_no_bar hp, singleton_append]
    · rw [pieces_attach hp, ih hps]
    · rw [flatMap_singleton, pieces_intercalate (cons_ne_nil p ps) h]

theorem regroup_ne_nil (h : ps ≠ []) (depth : Nat) : regroup depth ps ≠ [] := by
  obtain ⟨p, ps, rfl⟩ := exists_cons_of_ne_nil h
  rw [regroup]
  split
  · exact cons_ne_nil _ _
  · cases regroup _ ps <;> exact cons_ne_nil _ _
  · exact cons_ne_nil _ _

/-- Brackets are open between all of the pieces, and none after the last one. -/
inductive Closes : Nat → List String → Prop
  | last {depth : Nat} {p : String} : nesting depth p = some 0 → Closes depth [p]
  | next {depth d : Nat} {p : String} {ps : List String} :
      nesting depth p = some (d + 1) → Closes (d + 1) ps → Closes depth (p :: ps)

namespace Closes

variable {ps : List String}

theorem ne_nil (h : Closes depth ps) : ps ≠ [] := by
  cases h <;> exact cons_ne_nil _ _

theorem regroup_append (h : Closes depth ps) (rest : List String) :
    regroup depth (ps ++ rest) = " | ".intercalate ps :: regroup 0 rest := by
  induction h with
  | @last depth p hp => rw [singleton_append, regroup, hp, String.intercalate_singleton]
  | @next depth d p ps hp hps ih =>
    rw [cons_append, regroup, hp]
    dsimp only
    rw [ih, attach, String.intercalate_cons_of_ne_nil hps.ne_nil]

theorem nesting_eq (h : Closes depth ps) : nesting depth (" | ".intercalate ps) = some 0 := by
  induction h with
  | @last depth p hp => rwa [String.intercalate_singleton]
  | @next depth d p ps hp hps ih =>
    rw [String.intercalate_cons_of_ne_nil hps.ne_nil, nesting_bar, hp]
    exact ih

/-- A bracket that is closed at the end of a balanced text. -/
theorem exists_of_balanced (hne : ps ≠ []) (h : ∀ p ∈ ps, '|' ∉ p.toList)
    (hnesting : nesting depth (" | ".intercalate ps) = some 0) :
    ∃ qs, (∀ q ∈ qs, '|' ∉ q.toList) ∧ " | ".intercalate qs = " | ".intercalate ps ++ "]" ∧
      Closes (depth + 1) qs := by
  induction ps generalizing depth with
  | nil => exact absurd rfl hne
  | cons p ps ih =>
    obtain ⟨hp, hps⟩ := forall_mem_cons.mp h
    by_cases hnil : ps = []
    · rw [hnil, String.intercalate_singleton] at hnesting ⊢
      refine ⟨[p ++ "]"], by simpa using hp, by simp, .last ?_⟩
      rw [nesting_append, nesting_add hnesting 1]
      rfl
    · rw [String.intercalate_cons_of_ne_nil hnil, nesting_bar] at hnesting
      obtain ⟨d, hd, hnesting⟩ := Option.bind_eq_some_iff.mp hnesting
      obtain ⟨qs, hqs, he, hcloses⟩ := ih hnil hps hnesting
      refine ⟨p :: qs, forall_mem_cons.mpr ⟨hp, hqs⟩, ?_, .next (nesting_add hd 1) hcloses⟩
      rw [String.intercalate_cons_of_ne_nil hcloses.ne_nil, he,
        String.intercalate_cons_of_ne_nil hnil, ← String.append_assoc]

end Closes

/-- The text is one alternative: all of its bars stand in brackets. -/
structure IsAlternative (text : String) : Prop where
  regular : Regular text
  closes : Closes 0 (pieces text)

namespace IsAlternative

theorem balanced (h : IsAlternative text) : Balanced text := by
  have hnesting := h.closes.nesting_eq
  rwa [h.regular.intercalate_pieces] at hnesting

theorem of_unmarked (h : Unmarked text) : IsAlternative text := by
  refine ⟨.of_no_bar h.no_bar, ?_⟩
  rw [pieces_of_no_bar h.no_bar]
  exact .last (h.nesting_eq 0)

/-- Balanced text in brackets, with a word in front of them. -/
theorem bracketed {word : String} (hword : Unmarked word) (hregular : Regular text)
    (hbalanced : Balanced text) : IsAlternative (word ++ "[" ++ text ++ "]") := by
  have hfront : '|' ∉ (word ++ "[").toList := by simpa using hword.no_bar
  obtain ⟨ps, hne, hps, rfl⟩ := hregular
  obtain ⟨qs, hqs, he, hcloses⟩ := Closes.exists_of_balanced hne hps hbalanced
  obtain ⟨q, qs, rfl⟩ := exists_cons_of_ne_nil hcloses.ne_nil
  obtain ⟨hq, hqs⟩ := forall_mem_cons.mp hqs
  have hall : ∀ p ∈ (word ++ "[" ++ q) :: qs, '|' ∉ p.toList := by
    refine forall_mem_cons.mpr ⟨?_, hqs⟩
    rw [String.toList_append, mem_append]
    exact not_or.mpr ⟨hfront, hq⟩
  have hwhole : word ++ "[" ++ " | ".intercalate ps ++ "]" =
      " | ".intercalate ((word ++ "[" ++ q) :: qs) := by
    rw [String.intercalate_cons_append, he]
    simp only [String.append_assoc]
  have hdepth : nesting 0 (word ++ "[" ++ q) = nesting 1 q := by
    rw [nesting_append, nesting_append, hword.nesting_eq]
    rfl
  refine ⟨⟨_, cons_ne_nil _ _, hall, hwhole⟩, ?_⟩
  rw [hwhole, pieces_intercalate (cons_ne_nil _ _) hall]
  cases hcloses with
  | last hlast => exact .last (hdepth.trans hlast)
  | next hnext hrest => exact .next (hdepth.trans hnext) hrest

end IsAlternative

/-- Texts that are alternatives are found again in what is joined of them. -/
theorem regroup_flatMap (h : ∀ a ∈ as, IsAlternative a) : regroup 0 (as.flatMap pieces) = as := by
  induction as with
  | nil => rfl
  | cons a as ih =>
    obtain ⟨ha, has⟩ := forall_mem_cons.mp h
    rw [flatMap_cons, ha.closes.regroup_append, ih has, ha.regular.intercalate_pieces]

theorem flatMap_pieces_ne_nil (h : as ≠ []) : as.flatMap pieces ≠ [] := by
  obtain ⟨a, ha⟩ := exists_mem_of_ne_nil as h
  exact fun he => pieces_ne_nil a (flatMap_eq_nil_iff.mp he a ha)

theorem intercalate_flatMap_pieces (h : ∀ a ∈ as, Regular a) :
    " | ".intercalate (as.flatMap pieces) = " | ".intercalate as := by
  induction as with
  | nil => rfl
  | cons a as ih =>
    obtain ⟨ha, has⟩ := forall_mem_cons.mp h
    rw [flatMap_cons]
    by_cases hnil : as = []
    · rw [hnil, flatMap_nil, append_nil, ha.intercalate_pieces,
        String.intercalate_singleton]
    · rw [String.intercalate_append_of_ne_nil (pieces_ne_nil a) (flatMap_pieces_ne_nil hnil),
        ha.intercalate_pieces, ih has, String.intercalate_cons_of_ne_nil hnil]

/-- The text is made of alternatives. -/
structure Sound (text : String) : Prop where
  regular : Regular text
  isAlternative : ∀ a ∈ alternatives text, IsAlternative a

namespace Sound

theorem pieces_alternatives (h : Sound text) : (alternatives text).flatMap pieces = pieces text :=
  flatMap_pieces_regroup (fun _ => h.regular.no_bar) 0

theorem balanced (h : Sound text) : Balanced text := by
  have hjoined : " | ".intercalate (alternatives text) = text := by
    rw [← intercalate_flatMap_pieces fun a ha => (h.isAlternative a ha).regular,
      h.pieces_alternatives, h.regular.intercalate_pieces]
  rw [← hjoined]
  exact balanced_intercalate fun a ha => (h.isAlternative a ha).balanced

end Sound

section
variable {as : List String}

theorem no_bar_of_mem_flatMap (h : ∀ a ∈ as, Regular a) :
    ∀ p ∈ as.flatMap pieces, '|' ∉ p.toList := by
  intro p hp
  obtain ⟨a, ha, hp⟩ := mem_flatMap.mp hp
  exact (h a ha).no_bar hp

theorem pieces_of_joined (hne : as ≠ []) (h : ∀ a ∈ as, Regular a) :
    pieces (" | ".intercalate as) = as.flatMap pieces := by
  rw [← intercalate_flatMap_pieces h]
  exact pieces_intercalate (flatMap_pieces_ne_nil hne) (no_bar_of_mem_flatMap h)

/-- What is joined of alternatives has these alternatives. -/
theorem alternatives_intercalate (hne : as ≠ []) (h : ∀ a ∈ as, IsAlternative a) :
    alternatives (" | ".intercalate as) = as := by
  rw [alternatives, pieces_of_joined hne fun a ha => (h a ha).regular, regroup_flatMap h]

theorem sound_intercalate (hne : as ≠ []) (h : ∀ a ∈ as, IsAlternative a) :
    Sound (" | ".intercalate as) := by
  have hregular : ∀ a ∈ as, Regular a := fun a ha => (h a ha).regular
  refine ⟨?_, by rwa [alternatives_intercalate hne h]⟩
  exact ⟨_, flatMap_pieces_ne_nil hne, no_bar_of_mem_flatMap hregular,
    (intercalate_flatMap_pieces hregular).symm⟩

theorem Sound.of_alternative (h : IsAlternative text) : Sound text := by
  have hsound := sound_intercalate (cons_ne_nil text []) (forall_mem_singleton.mpr h)
  rwa [String.intercalate_singleton] at hsound

end

/-! ### Unions -/

/-- The alternatives that a union has: those of its branches, each at its first occurrence, and
`None` at the end if it is nullable. -/
def unionAlternatives (hints : List String) (nullable : Bool) : List String :=
  (hints.flatMap alternatives).eraseDups ++ (if nullable then ["None"] else [])

/-- There are alternatives, no piece occurs twice in those of the branches, and none of these is
`None` already if the union is nullable. -/
structure Separable (hints : List String) (nullable : Bool) : Prop where
  nonempty : unionAlternatives hints nullable ≠ []
  nodup : ((hints.flatMap alternatives).eraseDups.flatMap pieces).Nodup
  none : nullable = true → "None" ∉ hints.flatMap alternatives

instance (hints : List String) (nullable : Bool) : Decidable (Separable hints nullable) :=
  decidable_of_iff (unionAlternatives hints nullable ≠ [] ∧
      ((hints.flatMap alternatives).eraseDups.flatMap pieces).Nodup ∧
      (nullable = true → "None" ∉ hints.flatMap alternatives))
    ⟨fun h => ⟨h.1, h.2.1, h.2.2⟩, fun h => ⟨h.nonempty, h.nodup, h.none⟩⟩

/-- Pieces are added at their first occurrence. -/
theorem addAlternatives_eraseDups (parts : List String) (hint : String) :
    addAlternatives parts.eraseDups hint = (parts ++ pieces hint).eraseDups := by
  rw [addAlternatives, ← pieces]
  induction pieces hint generalizing parts with
  | nil => rw [foldl_nil, append_nil]
  | cons p ps ih =>
    have hstep : (if parts.eraseDups.contains p then parts.eraseDups else parts.eraseDups ++ [p]) =
        (parts ++ [p]).eraseDups := by
      rw [eraseDups_concat]
      simp
    rw [foldl_cons, hstep, ih, append_assoc, singleton_append]

theorem foldl_addAlternatives (hints parts : List String) :
    hints.foldl addAlternatives parts.eraseDups = (parts ++ hints.flatMap pieces).eraseDups := by
  induction hints generalizing parts with
  | nil => rw [foldl_nil, flatMap_nil, append_nil]
  | cons hint hints ih =>
    rw [foldl_cons, addAlternatives_eraseDups, ih, flatMap_cons, append_assoc]

/-- A union that has pieces is joined of them. -/
theorem unionHint_eq (hne : ps ≠ [])
    (h : (hints.flatMap pieces).eraseDups ++ (if nullable then ["None"] else []) = ps) :
    unionHint hints nullable = " | ".intercalate ps := by
  have hparts : hints.foldl addAlternatives [] = (hints.flatMap pieces).eraseDups :=
    foldl_addAlternatives hints []
  rw [unionHint, hparts, h]
  cases ps with
  | nil => exact absurd rfl hne
  | cons p ps => rfl

/-- The pieces of the branches are those of their alternatives. -/
theorem flatMap_pieces_eq (h : ∀ hint ∈ hints, Sound hint) :
    (hints.flatMap alternatives).flatMap pieces = hints.flatMap pieces := by
  rw [flatMap_assoc]
  exact flatMap_congr fun hint hh => (h hint hh).pieces_alternatives

theorem isAlternative_of_mem_unionAlternatives (h : ∀ hint ∈ hints, Sound hint) :
    ∀ a ∈ unionAlternatives hints nullable, IsAlternative a := by
  have hnone : IsAlternative "None" := .of_unmarked (by decide)
  refine forall_mem_append.mpr ⟨fun a ha => ?_, ?_⟩
  · obtain ⟨hint, hh, ha⟩ := mem_flatMap.mp (mem_eraseDups.mp ha)
    exact (h hint hh).isAlternative a ha
  · split
    · exact forall_mem_singleton.mpr hnone
    · exact forall_mem_nil _

theorem flatMap_pieces_unionAlternatives (hints : List String) (nullable : Bool) :
    (unionAlternatives hints nullable).flatMap pieces =
      (hints.flatMap alternatives).eraseDups.flatMap pieces ++
        (if nullable then ["None"] else []) := by
  rw [unionAlternatives, List.flatMap_append]
  cases nullable <;> rfl

/-- A separable union is joined of its alternatives. -/
theorem Separable.unionHint_eq (hs : Separable hints nullable) (h : ∀ hint ∈ hints, Sound hint) :
    unionHint hints nullable = " | ".intercalate (unionAlternatives hints nullable) := by
  have hregular : ∀ a ∈ unionAlternatives hints nullable, Regular a := fun a ha =>
    (isAlternative_of_mem_unionAlternatives h a ha).regular
  rw [← intercalate_flatMap_pieces hregular]
  refine Avroc.unionHint_eq (flatMap_pieces_ne_nil hs.nonempty) ?_
  rw [flatMap_pieces_unionAlternatives, ← eraseDups_of_nodup hs.nodup, eraseDups_flatMap,
    flatMap_pieces_eq h]

theorem Separable.sound (hs : Separable hints nullable) (h : ∀ hint ∈ hints, Sound hint) :
    Sound (unionHint hints nullable) := by
  rw [hs.unionHint_eq h]
  exact sound_intercalate hs.nonempty (isAlternative_of_mem_unionAlternatives h)

theorem Separable.nodup_unionAlternatives (hs : Separable hints nullable) :
    (unionAlternatives hints nullable).Nodup := by
  refine nodup_append.mpr ⟨nodup_eraseDups _, by split <;> simp, fun a ha b hb he => ?_⟩
  split at hb
  · rename_i hnull
    refine hs.none hnull ?_
    rw [← mem_singleton.mp hb, ← he]
    exact mem_eraseDups.mp ha
  · cases hb

/-- All pieces of the alternatives are written. -/
theorem mem_flatMap_unionAlternatives (h : ∀ hint ∈ hints, Sound hint) :
    p ∈ (unionAlternatives hints nullable).flatMap pieces ↔
      p ∈ (hints.flatMap pieces).eraseDups ++ (if nullable then ["None"] else []) := by
  rw [flatMap_pieces_unionAlternatives, ← flatMap_pieces_eq h, mem_append, mem_append,
    mem_eraseDups, mem_flatMap, mem_flatMap]
  simp only [mem_eraseDups]

/-- The alternatives of what is written have the pieces of the branches, each once. -/
theorem flatMap_pieces_unionHint (h : ∀ hint ∈ hints, Sound hint)
    (hne : unionAlternatives hints nullable ≠ []) :
    (alternatives (unionHint hints nullable)).flatMap pieces =
      (hints.flatMap pieces).eraseDups ++ (if nullable then ["None"] else []) := by
  have hbars := no_bar_of_mem_flatMap fun a (ha : a ∈ unionAlternatives hints nullable) =>
    (isAlternative_of_mem_unionAlternatives h a ha).regular
  have hnil := flatMap_pieces_ne_nil hne
  obtain ⟨p, hp⟩ := exists_mem_of_ne_nil _ hnil
  have hparts := ne_nil_of_mem ((mem_flatMap_unionAlternatives h).mp hp)
  have hclean : ∀ p ∈ (hints.flatMap pieces).eraseDups ++ (if nullable then ["None"] else []),
      '|' ∉ p.toList := fun p hp => hbars p ((mem_flatMap_unionAlternatives h).mpr hp)
  rw [unionHint_eq hparts rfl, alternatives, pieces_intercalate hparts hclean,
    flatMap_pieces_regroup hclean]

/-- **A union is written rightly exactly if it is separable**: the text of a union whose branches
are sound has the right alternatives, each once, exactly if no piece of them occurs twice. -/
theorem alternatives_unionHint_iff (h : ∀ hint ∈ hints, Sound hint) :
    (alternatives (unionHint hints nullable) = unionAlternatives hints nullable ∧
      (unionAlternatives hints nullable).Nodup) ↔ Separable hints nullable := by
  refine ⟨?_, fun hs => ⟨?_, hs.nodup_unionAlternatives⟩⟩
  · rintro ⟨hwritten, hnodup⟩
    have hne : unionAlternatives hints nullable ≠ [] := by
      rw [← hwritten]
      exact regroup_ne_nil (pieces_ne_nil _) 0
    have hpieces := flatMap_pieces_unionHint h hne
    rw [hwritten, flatMap_pieces_unionAlternatives] at hpieces
    refine ⟨hne, append_cancel_right hpieces ▸ nodup_eraseDups _, fun hnull hmem => ?_⟩
    rw [unionAlternatives, if_pos hnull] at hnodup
    exact (nodup_append.mp hnodup).2.2 _ (mem_eraseDups.mpr hmem) _
      (mem_singleton.mpr rfl) rfl
  · rw [hs.unionHint_eq h]
    exact alternatives_intercalate hs.nonempty (isAlternative_of_mem_unionAlternatives h)

end Avroc
