import Avroc.Name

/-!
# Simple names and full names

* `splitAtLast?_eq_none_iff`, `splitAtLast?_eq_some`, `splitAtLast?_append` : cutting a text at its
  last mark.
* `splitAtEach_mark`, `mem_of_mem_splitAtEach`, `intercalate_splitAtEach` : cutting it at every
  mark.
* `ne_empty_of_isLegalName`, `not_dot_mem_of_isLegalName` : a legal name is not empty and has no
  dot, so it is its own simple name (`splitName_of_not_dot_mem`).
* `dot_mem_joinName` : the full name of a type in a namespace has a dot.
-/

namespace Avroc

open List

variable {c m mark : Char} {cs after : List Char} {name s : String}

theorem Text.splitAtLast?_eq_none_iff : splitAtLast? mark cs = none ↔ mark ∉ cs := by
  induction cs with
  | nil => simp [splitAtLast?]
  | cons c cs ih =>
    rw [splitAtLast?, mem_cons, not_or]
    cases h : splitAtLast? mark cs with
    | some parts =>
      have : mark ∈ cs := Decidable.byContradiction fun hn => by simp [ih.mpr hn] at h
      simp [this]
    | none =>
      have : mark ∉ cs := ih.mp h
      simp [this, eq_comm]

/-- The text is the part before the last mark, the mark and the part after, which has no mark. -/
theorem Text.splitAtLast?_eq_some {before : List Char}
    (h : splitAtLast? mark cs = some (before, after)) :
    cs = before ++ mark :: after ∧ mark ∉ after := by
  induction cs generalizing before with
  | nil => cases h
  | cons c cs ih =>
    rw [splitAtLast?] at h
    cases hs : splitAtLast? mark cs with
    | some parts =>
      obtain ⟨b, a⟩ := parts
      rw [hs] at h
      cases h
      obtain ⟨rfl, hm⟩ := ih hs
      exact ⟨rfl, hm⟩
    | none =>
      rw [hs] at h
      simp only [Option.ite_none_right_eq_some, Option.some.injEq, Prod.mk.injEq] at h
      obtain ⟨rfl, rfl, rfl⟩ := h
      exact ⟨rfl, splitAtLast?_eq_none_iff.mp hs⟩

theorem Text.splitAtLast?_append (before : List Char) (h : mark ∉ after) :
    splitAtLast? mark (before ++ mark :: after) = some (before, after) := by
  induction before with
  | nil => rw [nil_append, splitAtLast?, splitAtLast?_eq_none_iff.mpr h, if_pos rfl]
  | cons c before ih => rw [cons_append, splitAtLast?, ih]

/-! ### Splitting at every mark -/

namespace Text

/-- The parts of a text, character by character from its end. -/
theorem splitAtEach_induction {P : List Char → List (List Char) → Prop} (nil : P [] [[]])
    (mark : ∀ cs part parts, P cs (part :: parts) → P (m :: cs) ([] :: part :: parts))
    (char : ∀ c cs part parts, c ≠ m → P cs (part :: parts) → P (c :: cs) ((c :: part) :: parts))
    (cs : List Char) : P cs (splitAtEach m cs) := by
  suffices h : ∃ part parts, splitAtEach m cs = part :: parts ∧ P cs (part :: parts) by
    obtain ⟨part, parts, hs, hp⟩ := h
    rwa [hs]
  induction cs with
  | nil => exact ⟨[], [], rfl, nil⟩
  | cons c cs ih =>
    obtain ⟨part, parts, hs, hp⟩ := ih
    rw [splitAtEach, hs]
    split
    · rename_i hc
      exact ⟨[], _, rfl, hc ▸ mark cs part parts hp⟩
    · exact ⟨c :: part, parts, rfl, char c cs part parts ‹_› hp⟩

theorem splitAtEach_ne_nil (mark : Char) (cs : List Char) : splitAtEach mark cs ≠ [] :=
  splitAtEach_induction (P := fun _ parts => parts ≠ []) (by simp) (by simp) (by simp) cs

theorem splitAtEach_of_notMem (h : mark ∉ cs) : splitAtEach mark cs = [cs] := by
  induction cs with
  | nil => rfl
  | cons c cs ih =>
    rw [mem_cons, not_or] at h
    rw [splitAtEach, if_neg (Ne.symm h.1), ih h.2]
    rfl

/-- What follows the last mark is added to the last part. -/
theorem splitAtEach_append (cs : List Char) {ds : List Char} (h : mark ∉ ds) :
    ∃ front part, splitAtEach mark cs = front ++ [part] ∧
      splitAtEach mark (cs ++ ds) = front ++ [part ++ ds] := by
  induction cs with
  | nil => exact ⟨[], [], rfl, splitAtEach_of_notMem h⟩
  | cons c cs ih =>
    obtain ⟨front, part, h₁, h₂⟩ := ih
    rw [cons_append, splitAtEach, splitAtEach, h₁, h₂]
    by_cases hc : c = mark
    · exact ⟨[] :: front, part, by rw [if_pos hc]; rfl, by rw [if_pos hc]; rfl⟩
    · rw [if_neg hc, if_neg hc]
      cases front with
      | nil => exact ⟨[], c :: part, rfl, rfl⟩
      | cons first front => exact ⟨(c :: first) :: front, part, rfl, rfl⟩

/-- What is in a part is in the text, and no mark. -/
theorem mem_of_mem_splitAtEach {part : List Char} (h : part ∈ splitAtEach mark cs) (hc : c ∈ part) :
    c ∈ cs ∧ c ≠ mark :=
  splitAtEach_induction (P := fun cs parts => ∀ part ∈ parts, ∀ c ∈ part, c ∈ cs ∧ c ≠ mark)
    (by simp) (by grind) (by grind) cs part h c hc

/-- What is no mark is in one of the parts. -/
theorem exists_mem_splitAtEach (h : c ∈ cs) (hne : c ≠ mark) :
    ∃ part ∈ splitAtEach mark cs, c ∈ part :=
  mem_flatten.mp (splitAtEach_induction (P := fun cs parts => c ∈ cs → c ∈ parts.flatten)
    (by simp) (by grind) (by grind) cs h)

theorem splitAtEach_mark (mark : Char) (cs ds : List Char) :
    splitAtEach mark (cs ++ mark :: ds) = splitAtEach mark cs ++ splitAtEach mark ds := by
  refine splitAtEach_induction
    (P := fun cs parts => splitAtEach mark (cs ++ mark :: ds) = parts ++ splitAtEach mark ds)
    (by simp [splitAtEach]) (fun cs part parts ih => ?_) (fun c cs part parts hc ih => ?_) cs
  · rw [cons_append, splitAtEach, if_pos rfl, ih]
    rfl
  · rw [cons_append, splitAtEach, if_neg hc, ih]
    rfl

/-- The parts with marks between them are the text. -/
theorem intercalate_splitAtEach (mark : Char) (cs : List Char) :
    [mark].intercalate (splitAtEach mark cs) = cs := by
  refine splitAtEach_induction (P := fun cs parts => [mark].intercalate parts = cs) rfl
    (fun cs part parts ih => ?_) (fun c cs part parts hc ih => ?_) cs
  · rw [intercalate_cons_cons, ih]
    rfl
  · cases parts <;> simpa [List.intercalate] using ih

end Text

/-! ### Legal names -/

theorem ne_empty_of_isLegalName (h : isLegalName name = true) : name ≠ "" := by
  rintro rfl
  cases h

theorem isNamePart_of_isPlainName (h : isPlainName cs = true) (hc : c ∈ cs) :
    isNamePart c = true := by
  cases cs with
  | nil => cases hc
  | cons c₀ cs =>
    rw [isPlainName, Bool.and_eq_true] at h
    rcases mem_cons.mp hc with rfl | hc
    · simp [isNamePart, h.1]
    · exact all_eq_true.mp h.2 c hc

/-- The characters of a legal name are those of names, and perhaps a line feed. -/
theorem isNamePart_of_isLegalName (h : isLegalName name = true) (hc : c ∈ name.toList) :
    isNamePart c = true ∨ c = '\n' := by
  rw [isLegalName, dropFinalNewline] at h
  split at h
  · rename_i hlast
    obtain ⟨cs, hcs⟩ := getLast?_eq_some_iff.mp hlast
    rw [hcs, dropLast_concat] at h
    rw [hcs, mem_append, mem_singleton] at hc
    exact hc.imp_left (isNamePart_of_isPlainName h)
  · exact .inl (isNamePart_of_isPlainName h hc)

theorem not_dot_mem_of_isLegalName (h : isLegalName name = true) : '.' ∉ name.toList := by
  intro hd
  rcases isNamePart_of_isLegalName h hd with hp | hp
  · cases hp
  · cases hp

theorem splitName_of_not_dot_mem (h : '.' ∉ name.toList) (space : Option String) :
    splitName name space = (name, space.bind spaceOf) := by
  rw [splitName, Text.splitAtLast?_eq_none_iff.mpr h]

/-! ### Full names -/

theorem joinName_some (h : s ≠ "") (name : String) :
    joinName name (some s) = s ++ "." ++ name := by
  simp [joinName, spaceOf, h]

theorem dot_mem_joinName (h : s ≠ "") (name : String) :
    '.' ∈ (joinName name (some s)).toList := by
  simp [joinName_some h]

/-- A simple name and its namespace can be told from the full name. -/
theorem append_dot_inj {space space' name' : String} (h : '.' ∉ name.toList)
    (h' : '.' ∉ name'.toList) (he : space ++ "." ++ name = space' ++ "." ++ name') :
    space = space' ∧ name = name' := by
  have hsplit : ∀ {s n : String}, '.' ∉ n.toList →
      Text.splitAtLast? '.' (s ++ "." ++ n).toList = some (s.toList, n.toList) := by
    intro s n hn
    rw [String.toList_append, String.toList_append, append_assoc]
    exact Text.splitAtLast?_append s.toList hn
  have hparts := hsplit (s := space) h
  rw [he, hsplit h', Option.some.injEq, Prod.mk.injEq] at hparts
  exact ⟨String.toList_inj.mp hparts.1.symm, String.toList_inj.mp hparts.2.symm⟩

end Avroc
