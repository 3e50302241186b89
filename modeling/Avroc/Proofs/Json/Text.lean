import Avroc.Proofs.Json.Members
import Avroc.Proofs.Json.Scalar

/-!
# JSON text is read back

The text of a value over several lines has that value.  Floating point numbers are left aside.

* `Json.parse_renderIndented` : **the text of a legible value is read back as that value.**
-/

namespace Avroc.Json

open List

variable {c : Char} {v : Json} {members : List (String × Json)} {rest blank first : List Char}
  {m : String × Json} {items : List Json} {fuel position n : Nat} {parts : List String}

/-! ### Blanks -/

/-- The characters may stand between the parts of a JSON text. -/
def Blank (cs : List Char) : Prop :=
  ∀ c ∈ cs, isSpace c = true

theorem skipSpace_blank (hb : Blank blank) (hr : ∀ c ∈ rest.head?, isSpace c = false)
    (position : Nat) :
    (Place.mk position (blank ++ rest)).skipSpace = ⟨position + blank.length, rest⟩ := by
  have hend : rest.takeWhile isSpace = [] := by
    cases rest with
    | nil => rfl
    | cons c rest =>
      rw [takeWhile_cons, hr c rfl]
      rfl
  rw [Place.skipSpace, Place.skip]
  simp only
  rw [takeWhile_append_of_pos hb, hend, append_nil, drop_left]

theorem skip_one (position : Nat) (c : Char) (rest : List Char) :
    (Place.mk position (c :: rest)).skip 1 = ⟨position + 1, rest⟩ := rfl

theorem skipSpace_cons (hc : isSpace c = false) (position : Nat) (rest : List Char) :
    (Place.mk position (c :: rest)).skipSpace = ⟨position, c :: rest⟩ :=
  skipSpace_blank (forall_mem_nil _) (by rintro _ ⟨⟩; exact hc) position

/-! ### Values -/

/-- The value is read from the text, wherever it stands in front of something that ends it. -/
structure Reads (v : Json) (text : List Char) : Prop where
  head : ∃ c cs, text = c :: cs ∧ isSpace c = false ∧ c ≠ ']' ∧ c ≠ '\ufeff'
  scan : ∀ fuel position rest, text.length < fuel → Ends rest →
    scanValue fuel ⟨position, text ++ rest⟩ = .ok (v, ⟨position + text.length, rest⟩)

theorem reads_of_scanWord {v : Json} {text : List Char} {c : Char} {cs : List Char}
    (htext : text = c :: cs) (hc : isSpace c = false) (hclose : c ≠ ']') (hmark : c ≠ '\ufeff')
    (hquote : c ≠ '\x22') (hopen : c ≠ '[') (hbrace : c ≠ '\x7b')
    (h : ∀ position rest, Ends rest →
      scanWord ⟨position, text ++ rest⟩ = .ok (v, ⟨position + text.length, rest⟩)) :
    Reads v text := by
  refine ⟨⟨c, cs, htext, hc, hclose, hmark⟩, fun fuel position rest hfuel hrest => ?_⟩
  cases fuel with
  | zero => exact absurd hfuel (Nat.not_lt_zero _)
  | succ fuel =>
    rw [← h position rest hrest, scanValue.eq_def]
    subst htext
    dsimp only [cons_append]
    split
    · rename_i heq
      exact absurd (List.cons.inj heq).1 hquote
    · rename_i heq
      exact absurd (List.cons.inj heq).1 hopen
    · rename_i heq
      exact absurd (List.cons.inj heq).1 hbrace
    · rfl

theorem reads_null : Reads null "null".toList :=
  reads_of_scanWord rfl (by decide) (by decide) (by decide) (by decide) (by decide) (by decide)
    fun _ _ _ => rfl

theorem reads_true : Reads (bool true) "true".toList :=
  reads_of_scanWord rfl (by decide) (by decide) (by decide) (by decide) (by decide) (by decide)
    fun _ _ _ => rfl

theorem reads_false : Reads (bool false) "false".toList :=
  reads_of_scanWord rfl (by decide) (by decide) (by decide) (by decide) (by decide) (by decide)
    fun _ _ _ => rfl

/-- No word that is a value starts with a digit, or with a minus sign and a digit. -/
theorem scanWord_of_isPlainDigit {d : Char} (hd : isPlainDigit d = true) (position : Nat)
    {sign : List Char} (hsign : sign = [] ∨ sign = ['-']) (cs : List Char) :
    scanWord ⟨position, sign ++ d :: cs⟩ = scanNumber ⟨position, sign ++ d :: cs⟩ := by
  have hne : ∀ {x : Char}, isPlainDigit x = false → (x == d) = false := by
    intro x hx
    refine beq_eq_false_iff_ne.mpr fun he => ?_
    rw [he, hd] at hx
    cases hx
  rcases hsign with rfl | rfl <;>
    simp [scanWord, startsWith, List.isPrefixOf, hne (show isPlainDigit 'n' = false by decide),
      hne (show isPlainDigit 't' = false by decide), hne (show isPlainDigit 'f' = false by decide),
      hne (show isPlainDigit 'N' = false by decide), hne (show isPlainDigit 'I' = false by decide),
      hne (show isPlainDigit '-' = false by decide)]

theorem reads_int {n : Int} (hn : n.natAbs < Nat.pow 10 maxDigits) :
    Reads (int n) (toString n).toList := by
  obtain ⟨sign, hsign, htext, -⟩ := exists_sign_toString n
  obtain ⟨d, ds, hds⟩ := exists_cons_of_ne_nil (Nat.toDigits_ne_nil (n := n.natAbs) (b := 10))
  have hd : isPlainDigit d = true := isPlainDigit_of_mem (hds ▸ mem_cons_self)
  rw [hds] at htext
  have hscan : ∀ position rest, Ends rest → scanWord ⟨position, (toString n).toList ++ rest⟩ =
      .ok (int n, ⟨position + (toString n).toList.length, rest⟩) := by
    intro position rest hrest
    rw [← scanNumber_toString hn position hrest, htext, append_assoc, cons_append]
    exact scanWord_of_isPlainDigit hd position hsign _
  have hne : ∀ {x : Char}, isPlainDigit x = false → d ≠ x := by
    rintro x hx rfl
    rw [hd] at hx
    cases hx
  have hspace : isSpace d = false := by
    simp [isSpace, hne (show isPlainDigit ' ' = false by decide),
      hne (show isPlainDigit '\t' = false by decide),
      hne (show isPlainDigit '\n' = false by decide),
      hne (show isPlainDigit '\r' = false by decide)]
  rcases hsign with rfl | rfl
  · exact reads_of_scanWord htext hspace (hne (by decide)) (hne (by decide)) (hne (by decide))
      (hne (by decide)) (hne (by decide)) hscan
  · exact reads_of_scanWord htext (by decide) (by decide) (by decide) (by decide) (by decide)
      (by decide) hscan

theorem reads_string (s : String) : Reads (string s) (renderString s).toList := by
  rw [renderString, String.toList_ofList]
  refine ⟨⟨_, _, rfl, by decide, by decide, by decide⟩, fun fuel position rest hfuel _ => ?_⟩
  cases fuel with
  | zero => exact absurd hfuel (Nat.not_lt_zero _)
  | succ fuel =>
    rw [scanValue.eq_def]
    simp only [cons_append, append_assoc, nil_append]
    rw [scanString_renderString]
    simp [Nat.add_assoc, Nat.add_comm, Nat.add_left_comm]

/-! ### Arrays and objects -/

theorem ends_cons (h : isPlainDigit c = false ∧ c ≠ '.' ∧ c ≠ 'e' ∧ c ≠ 'E') (rest : List Char) :
    Ends (c :: rest) := by
  intro d hd
  cases hd
  exact h

theorem Blank.ends (hb : Blank blank) (h : Ends rest) :
    Ends (blank ++ rest) := by
  cases blank with
  | nil => exact h
  | cons c blank =>
    have hc : c = ' ' ∨ c = '\t' ∨ c = '\n' ∨ c = '\r' := by
      simpa [isSpace, or_assoc] using hb c mem_cons_self
    rcases hc with rfl | rfl | rfl | rfl <;> exact ends_cons (by decide) _

section
variable {β : Type} {scan : Nat → Place → Scan (List β)} {close : Char} {text : β → List Char}
  {x : β} {xs : List β} {gap last : List Char}

/-- The scanner of a list reads the element from its text; then the closing character ends the
list, or a comma leads to the next element. -/
structure Lists (scan : Nat → Place → Scan (List β)) (close : Char) (text : β → List Char)
    (x : β) : Prop where
  head : ∃ c cs, text x = c :: cs ∧ isSpace c = false
  last : ∀ {fuel position position' rest inner}, (text x).length < fuel → Ends rest →
    (Place.mk (position + (text x).length) rest).skipSpace = ⟨position', close :: inner⟩ →
    scan (fuel + 1) ⟨position, text x ++ rest⟩ = .ok ([x], ⟨position' + 1, inner⟩)
  next : ∀ {fuel position position' rest inner xs after}, (text x).length < fuel → Ends rest →
    (Place.mk (position + (text x).length) rest).skipSpace = ⟨position', ',' :: inner⟩ →
    scan fuel (Place.mk (position' + 1) inner).skipSpace = .ok (xs, after) →
    scan (fuel + 1) ⟨position, text x ++ rest⟩ = .ok (x :: xs, after)

variable (hspace : isSpace close = false)
  (hend : isPlainDigit close = false ∧ close ≠ '.' ∧ close ≠ 'e' ∧ close ≠ 'E')
  (hgap : Blank gap) (hlast : Blank last)
include hspace hend hgap hlast

/-- The elements of a list up to the closing character, with blanks after each comma and after the
last element. -/
theorem Lists.scan_eq (h : ∀ y ∈ x :: xs, Lists scan close text y) (fuel position : Nat)
    (rest : List Char)
    (hfuel : ((',' :: gap).intercalate ((x :: xs).map text)).length + last.length + 1 < fuel) :
    scan fuel ⟨position,
        (',' :: gap).intercalate ((x :: xs).map text) ++ (last ++ close :: rest)⟩ =
      .ok (x :: xs, ⟨position +
        (((',' :: gap).intercalate ((x :: xs).map text)).length + last.length + 1), rest⟩) := by
  obtain ⟨fuel, rfl⟩ := Nat.exists_eq_add_one_of_ne_zero (Nat.ne_zero_of_lt hfuel)
  induction xs generalizing x fuel position with
  | nil =>
    rw [map_singleton, intercalate_singleton] at hfuel ⊢
    rw [(h x mem_cons_self).last (by omega) (hlast.ends (ends_cons hend rest))
      (skipSpace_blank hlast (by rintro c ⟨⟩; exact hspace) _)]
    simp [Nat.add_assoc]
  | cons y xs ih =>
    have hinner := ih fun z hz => h z (mem_cons_of_mem x hz)
    have hhead : ∀ c ∈ ((',' :: gap).intercalate ((y :: xs).map text) ++
        (last ++ close :: rest)).head?, isSpace c = false := by
      obtain ⟨c, cs, hc, hspace⟩ := (h y (by simp)).head
      cases xs <;> simp [intercalate_cons_cons, hc, hspace]
    rw [map_cons, map_cons, intercalate_cons_cons, ← map_cons] at hfuel ⊢
    generalize (',' :: gap).intercalate ((y :: xs).map text) = more at hfuel hinner hhead ⊢
    simp only [length_append, length_cons] at hfuel
    obtain ⟨fuel, rfl⟩ := Nat.exists_eq_add_one_of_ne_zero (show fuel ≠ 0 by omega)
    rw [append_assoc, append_assoc, cons_append, (h x mem_cons_self).next (by omega)
      (ends_cons (by decide) _) (skipSpace_cons (by decide) _ _)
      (by rw [skipSpace_blank hgap hhead]; exact hinner _ _ (by omega))]
    simp [Nat.add_assoc, Nat.add_comm, Nat.add_left_comm]

/-- A value that is opened by a character and then read as a list. -/
theorem Lists.reads {opening : Char} (hopen : isSpace opening = false ∧ opening ≠ ']' ∧
      opening ≠ '\ufeff') (hfirst : Blank first) (h : ∀ y ∈ x :: xs, Lists scan close text y)
    (hscan : ∀ {fuel position position' rest more after},
      (Place.mk (position + 1) rest).skipSpace = ⟨position', more⟩ →
      more.head? = (text x).head? → scan fuel ⟨position', more⟩ = .ok (x :: xs, after) →
      scanValue (fuel + 1) ⟨position, opening :: rest⟩ = .ok (v, after)) :
    Reads v (opening ::
      (first ++ ((',' :: gap).intercalate ((x :: xs).map text) ++ (last ++ [close])))) := by
  refine ⟨⟨_, _, rfl, hopen⟩, fun fuel position rest hfuel _ => ?_⟩
  obtain ⟨c, cs, hc, hblank⟩ := (h x mem_cons_self).head
  have hinner := Lists.scan_eq hspace hend hgap hlast h
  have hhead : ∃ more, (',' :: gap).intercalate ((x :: xs).map text) = c :: more := by
    cases xs <;> simp [intercalate_cons_cons, hc]
  obtain ⟨more, hmore⟩ := hhead
  rw [hmore] at hfuel hinner ⊢
  obtain ⟨fuel, rfl⟩ := Nat.exists_eq_add_one_of_ne_zero (Nat.ne_zero_of_lt hfuel)
  simp only [cons_append, append_assoc, nil_append, length_append, length_cons,
    length_nil] at hfuel hinner ⊢
  rw [hscan (skipSpace_blank hfirst (by rintro _ ⟨⟩; exact hblank) _) (by rw [hc]; rfl)
    (hinner fuel _ rest (by omega))]
  simp [Nat.add_assoc, Nat.add_comm, Nat.add_left_comm]

end

section
variable {text : Json → List Char} {gap last : List Char}

theorem Reads.lists_item (h : Reads v (text v)) : Lists scanItems ']' text v where
  head := by
    obtain ⟨c, cs, hc, hspace, -⟩ := h.head
    exact ⟨c, cs, hc, hspace⟩
  last hfuel hrest hnext := by
    rw [scanItems.eq_def]
    dsimp only
    rw [h.scan _ _ _ hfuel hrest]
    dsimp only
    rw [hnext]
    rfl
  next hfuel hrest hnext hinner := by
    rw [scanItems.eq_def]
    dsimp only
    rw [h.scan _ _ _ hfuel hrest]
    dsimp only
    rw [hnext, skip_one, hinner]
    rfl

theorem reads_array_nil : Reads (array []) "[]".toList := by
  refine ⟨⟨_, _, rfl, by decide, by decide, by decide⟩, fun fuel position rest hfuel _ => ?_⟩
  cases fuel with
  | zero => exact absurd hfuel (Nat.not_lt_zero _)
  | succ fuel =>
    show scanValue (fuel + 1) ⟨position, '[' :: ']' :: rest⟩ = _
    rw [scanValue.eq_def]
    dsimp only
    rw [skip_one, skipSpace_cons (by decide)]
    rfl

/-- Reads what follows an opening bracket and the blanks after it. -/
def scanArray (fuel : Nat) (inner : Place) : Scan Json :=
  match inner.rest with
  | ']' :: _ => .ok (array [], inner.skip 1)
  | _ =>
    match scanItems fuel inner with
    | .error e => .error e
    | .ok (items, after) => .ok (array items, after)

theorem reads_array (hfirst : Blank first) (hgap : Blank gap) (hlast : Blank last)
    (h : ∀ x ∈ v :: items, Reads x (text x)) :
    Reads (array (v :: items))
      ('[' :: (first ++ ((',' :: gap).intercalate ((v :: items).map text) ++
        (last ++ [']'])))) := by
  refine Lists.reads (by decide) (by decide) hgap hlast (by decide) hfirst
    (fun x hx => (h x hx).lists_item) fun {fuel position _ rest _ _} hinner hhead hitems => ?_
  have hopen : scanValue (fuel + 1) ⟨position, '[' :: rest⟩ =
      scanArray fuel (Place.mk (position + 1) rest).skipSpace := rfl
  rw [hopen, hinner, scanArray, hitems]
  dsimp only
  split
  · obtain ⟨c, cs, hc, -, hclose, -⟩ := (h v mem_cons_self).head
    rw [hc] at hhead
    exact absurd (Option.some.inj hhead).symm hclose
  · rfl

/-! ### Members -/

/-- The text of a member. -/
def memberText (text : Json → List Char) (m : String × Json) : List Char :=
  (renderString m.1).toList ++ ':' :: ' ' :: text m.2

theorem memberText_eq_cons (text : Json → List Char) (m : String × Json) :
    memberText text m =
      '\x22' :: (m.1.toList.flatMap escapeChar ++ '\x22' :: ':' :: ' ' :: text m.2) := by
  simp [memberText, renderString]

/-- Reads what follows a member and the blanks after it. -/
def scanMore (fuel : Nat) (m : String × Json) (next : Place) : Scan (List (String × Json)) :=
  match next.rest with
  | '\x7d' :: _ => .ok ([m], next.skip 1)
  | ',' :: _ =>
    match scanMembers fuel (next.skip 1).skipSpace with
    | .error e => .error e
    | .ok (members, last) => .ok (m :: members, last)
  | _ => refuse .expectingComma next.position

/-- A member is read, and then what follows it decides. -/
theorem scanMembers_member (h : Reads m.2 (text m.2)) (hfuel : (memberText text m).length < fuel)
    (hrest : Ends rest) :
    scanMembers (fuel + 1) ⟨position, memberText text m ++ rest⟩ =
      scanMore fuel m (Place.mk (position + (memberText text m).length) rest).skipSpace := by
  obtain ⟨key, v⟩ := m
  replace h : Reads v (text v) := h
  obtain ⟨c, cs, hc, hspace, -⟩ := h.head
  have hkey := scanString_renderString position (position + 1) key
    (':' :: ' ' :: (text v ++ rest))
  have htext : memberText text (key, v) ++ rest =
      '\x22' :: (key.toList.flatMap escapeChar ++ '\x22' :: ':' :: ' ' :: (text v ++ rest)) := by
    simp [memberText_eq_cons]
  have hlength : (memberText text (key, v)).length =
      (key.toList.flatMap escapeChar).length + 4 + (text v).length := by
    simp [memberText_eq_cons]
    omega
  have hblank : Blank [' '] := by simp [Blank, isSpace]
  rw [hlength] at hfuel ⊢
  have hvalue := h.scan fuel (position + ((key.toList.flatMap escapeChar).length + 4)) rest
    (by omega) hrest
  rw [htext, scanMembers.eq_def]
  dsimp only
  split
  · rename_i heq
    cases heq
    rw [hkey]
    dsimp only
    rw [skipSpace_cons (by decide), skip_one]
    dsimp only
    rw [show ' ' :: (text v ++ rest) = [' '] ++ (text v ++ rest) from rfl,
      skipSpace_blank hblank (by rw [hc]; rintro _ ⟨⟩; exact hspace),
      show position + 1 + (key.toList.flatMap escapeChar).length + 1 + 1 + [' '].length =
        position + ((key.toList.flatMap escapeChar).length + 4) by simp; omega, hvalue]
    dsimp only
    rw [String.ofList_toList, Nat.add_assoc position]
    rfl
  · rename_i hother
    exact absurd rfl (hother _)

theorem Reads.lists_member (h : Reads m.2 (text m.2)) :
    Lists scanMembers '\x7d' (memberText text) m where
  head := ⟨'\x22', _, memberText_eq_cons text m, by decide⟩
  last hfuel hrest hnext := by
    rw [scanMembers_member h hfuel hrest, hnext]
    rfl
  next hfuel hrest hnext hinner := by
    rw [scanMembers_member h hfuel hrest, hnext, scanMore, skip_one, hinner]
    rfl

theorem reads_object_nil : Reads (object []) "\x7b\x7d".toList := by
  refine ⟨⟨_, _, rfl, by decide, by decide, by decide⟩, fun fuel position rest hfuel _ => ?_⟩
  cases fuel with
  | zero => exact absurd hfuel (Nat.not_lt_zero _)
  | succ fuel =>
    show scanValue (fuel + 1) ⟨position, '\x7b' :: '\x7d' :: rest⟩ = _
    rw [scanValue.eq_def]
    dsimp only
    rw [skip_one, skipSpace_cons (by decide)]
    rfl

/-- Reads what follows an opening brace and the blanks after it. -/
def scanObject (fuel : Nat) (inner : Place) : Scan Json :=
  match inner.rest with
  | '\x7d' :: _ => .ok (object [], inner.skip 1)
  | _ =>
    match scanMembers fuel inner with
    | .error e => .error e
    | .ok (members, after) => .ok (object (Members.update [] members), after)

/-- Members with different keys are all kept. -/
theorem update_nil_of_nodup {members : Members} (h : (members.map (·.1)).Nodup) :
    Members.update [] members = members := by
  have hstep : ∀ (front : Members), ((front ++ members).map (·.1)).Nodup →
      Members.update front members = front ++ members := by
    clear h
    induction members with
    | nil => intro front _; exact (append_nil front).symm
    | cons m members ih =>
      intro front hnd
      obtain ⟨key, v⟩ := m
      have hnone : front.get? key = none := by
        refine Members.get?_eq_none_iff.mpr fun x hx he => ?_
        rw [map_append, nodup_append] at hnd
        exact hnd.2.2 x.1 (mem_map_of_mem hx) key (by simp) he
      rw [Members.update, foldl_cons]
      dsimp only
      rw [Members.insert_of_get?_none hnone]
      refine (ih (front ++ [(key, v)]) (by rwa [append_assoc])).trans ?_
      rw [append_assoc]
      rfl
  exact hstep [] h

theorem reads_object (hfirst : Blank first) (hgap : Blank gap) (hlast : Blank last)
    (hkeys : ((m :: members).map (·.1)).Nodup) (h : ∀ x ∈ m :: members, Reads x.2 (text x.2)) :
    Reads (object (m :: members))
      ('\x7b' :: (first ++ ((',' :: gap).intercalate ((m :: members).map (memberText text)) ++
        (last ++ ['\x7d'])))) := by
  refine Lists.reads (by decide) (by decide) hgap hlast (by decide) hfirst
    (fun x hx => (h x hx).lists_member)
    fun {fuel position _ rest more _} hinner hhead hmembers => ?_
  have hopen : scanValue (fuel + 1) ⟨position, '\x7b' :: rest⟩ =
      scanObject fuel (Place.mk (position + 1) rest).skipSpace := rfl
  rw [hopen, hinner, scanObject, hmembers]
  rw [memberText_eq_cons] at hhead
  obtain ⟨more, rfl⟩ := head?_eq_some_iff.mp hhead
  exact congrArg (fun ms => Except.ok (object ms, _)) (update_nil_of_nodup hkeys)

end

/-! ### Texts over several lines -/

/-- A value that is read back from its text: there are no floating point numbers in it, its whole
numbers are not too long, and no object has a key twice. -/
inductive Legible : Json → Prop
  | null : Legible null
  | bool (b : Bool) : Legible (bool b)
  | int {n : Int} (h : n.natAbs < Nat.pow 10 maxDigits) : Legible (int n)
  | string (s : String) : Legible (string s)
  | array {items : List Json} (h : ∀ v ∈ items, Legible v) : Legible (array items)
  | object {members : List (String × Json)} (hkeys : (members.map (·.1)).Nodup)
      (h : ∀ m ∈ members, Legible m.2) : Legible (object members)

/-- The end of a line and the blanks that start the next one. -/
def indent (depth : Nat) : List Char :=
  '\n' :: List.replicate (2 * depth) ' '

theorem blank_indent (depth : Nat) : Blank (indent depth) := by
  intro c hc
  rcases mem_cons.mp hc with rfl | hc
  · decide
  · rw [eq_of_mem_replicate hc]
    decide

theorem toList_bracketed (opening closing : String) (depth : Nat) (h : parts ≠ []) :
    (bracketed opening closing depth parts).toList =
      opening.toList ++ (indent (depth + 1) ++
        ((',' :: indent (depth + 1)).intercalate (parts.map String.toList) ++
          (indent depth ++ closing.toList))) := by
  cases parts with
  | nil => exact absurd rfl h
  | cons part parts =>
    simp [bracketed, indent, String.toList_intercalate, -intercalate_cons_cons]

theorem map_toList_itemsAt (depth : Nat) (items : List Json) :
    (itemsAt depth items).map String.toList =
      items.map fun v => (renderAt depth v).toList := by
  induction items with
  | nil => rfl
  | cons v items ih => rw [itemsAt, map_cons, ih, map_cons]

theorem map_toList_membersAt (depth : Nat) (members : List (String × Json)) :
    (membersAt depth members).map String.toList =
      members.map (memberText fun v => (renderAt depth v).toList) := by
  induction members with
  | nil => rfl
  | cons m members ih =>
    rw [membersAt, map_cons, ih, map_cons]
    simp [memberText]

/-- A legible value is read from its text over several lines. -/
theorem reads_renderAt (h : Legible v) (depth : Nat) : Reads v (renderAt depth v).toList := by
  induction v using nestedInduction generalizing depth with
  | null => exact reads_null
  | bool b =>
    cases b with
    | false => exact reads_false
    | true => exact reads_true
  | int n =>
    cases h with
    | int hn => exact reads_int hn
  | real x => cases h
  | string s => exact reads_string s
  | array items ih =>
    cases h with
    | array h =>
      cases items with
      | nil => exact reads_array_nil
      | cons v items =>
        rw [renderAt, toList_bracketed _ _ _ (by simp [itemsAt]), map_toList_itemsAt]
        exact reads_array (blank_indent _) (blank_indent _) (blank_indent _)
          fun x hx => ih x hx (h x hx) (depth + 1)
  | object members ih =>
    cases h with
    | object hkeys h =>
      cases members with
      | nil => exact reads_object_nil
      | cons m members =>
        rw [renderAt, toList_bracketed _ _ _ (by simp [membersAt]), map_toList_membersAt]
        exact reads_object (blank_indent _) (blank_indent _) (blank_indent _) hkeys
          fun x hx => ih x hx (h x hx) (depth + 1)

/-- **The text of a legible value is read back as that value.** -/
theorem parse_renderIndented (h : Legible v) : parse v.renderIndented = .ok v := by
  obtain ⟨⟨c, cs, htext, hspace, -, hmark⟩, hscan⟩ := reads_renderAt h 0
  have hread := hscan (2 * (renderAt 0 v).toList.length + 2) 0 [] (by omega) (by rintro _ ⟨⟩)
  rw [append_nil, htext] at hread
  rw [parse, parseChars, renderIndented, htext, if_neg (by simpa using hmark),
    skipSpace_cons hspace, hread]
  rfl

/-! ### Carriage returns -/

theorem cr_notMem_hex_four (h : n < 0x10000) : '\r' ∉ Text.hex 4 n := by
  have hdigit : ∀ d < 16, Nat.digitChar d ≠ '\r' := by decide
  rw [hex_four h]
  simp only [mem_cons, not_mem_nil, or_false, not_or]
  exact ⟨(hdigit _ (by omega)).symm, (hdigit _ (by omega)).symm, (hdigit _ (by omega)).symm,
    (hdigit _ (by omega)).symm⟩

theorem cr_notMem_unitEscape (h : n < 0x10000) : '\r' ∉ unitEscape n := by
  simp [unitEscape, cr_notMem_hex_four h]

theorem cr_notMem_escapeChar (c : Char) : '\r' ∉ escapeChar c := by
  rcases escapeChar_cases c with ⟨d, hc, hd⟩ | ⟨hc, -, -, hplain⟩ | ⟨hc, hlt⟩ | ⟨n, hn, -, hc⟩
  · rw [hc]
    simp only [mem_cons, not_mem_nil, or_false, not_or]
    refine ⟨by decide, ?_⟩
    rintro rfl
    cases hd 0 0 []
  · rw [hc, mem_singleton]
    rintro rfl
    exact absurd hplain (by decide)
  · rw [hc]
    exact cr_notMem_unitEscape hlt
  · rw [hc, mem_append, not_or]
    exact ⟨cr_notMem_unitEscape (by omega), cr_notMem_unitEscape (by omega)⟩

theorem cr_notMem_renderString (s : String) : '\r' ∉ (renderString s).toList := by
  simp [renderString, cr_notMem_escapeChar]

theorem cr_notMem_indent (depth : Nat) : '\r' ∉ indent depth := by
  simp [indent]

theorem notMem_intercalate {between : List Char} {parts : List (List Char)} (hb : c ∉ between)
    (h : ∀ part ∈ parts, c ∉ part) : c ∉ between.intercalate parts := by
  induction parts with
  | nil => simp
  | cons part parts ih =>
    rw [forall_mem_cons] at h
    cases parts with
    | nil => simpa using h.1
    | cons next parts =>
      rw [intercalate_cons_cons, mem_append, mem_append, not_or, not_or]
      exact ⟨⟨h.1, hb⟩, ih h.2⟩

theorem cr_notMem_bracketed {opening closing : String} (ho : '\r' ∉ opening.toList)
    (hc : '\r' ∉ closing.toList) (depth : Nat) (h : ∀ part ∈ parts.map String.toList, '\r' ∉ part) :
    '\r' ∉ (bracketed opening closing depth parts).toList := by
  cases parts with
  | nil => simp [bracketed, ho, hc]
  | cons part parts =>
    have hgap : '\r' ∉ ',' :: indent (depth + 1) := by simp [cr_notMem_indent]
    rw [toList_bracketed _ _ _ (cons_ne_nil _ _)]
    simp only [mem_append, not_or]
    exact ⟨ho, cr_notMem_indent _, notMem_intercalate hgap h, cr_notMem_indent _, hc⟩

/-- No carriage return stands in the text of a legible value. -/
theorem cr_notMem_renderAt (h : Legible v) (depth : Nat) : '\r' ∉ (renderAt depth v).toList := by
  induction v using nestedInduction generalizing depth with
  | null => exact (by decide : '\r' ∉ "null".toList)
  | bool b =>
    cases b with
    | false => exact (by decide : '\r' ∉ "false".toList)
    | true => exact (by decide : '\r' ∉ "true".toList)
  | int n =>
    obtain ⟨sign, hsign, htext, -⟩ := exists_sign_toString n
    show '\r' ∉ (toString n).toList
    rw [htext, mem_append, not_or]
    refine ⟨by rcases hsign with rfl | rfl <;> decide, fun hr => ?_⟩
    cases isPlainDigit_of_mem hr
  | real x => cases h
  | string s => exact cr_notMem_renderString s
  | array items ih =>
    cases h with
    | array h =>
      have hparts : ∀ part ∈ (itemsAt (depth + 1) items).map String.toList, '\r' ∉ part := by
        rw [map_toList_itemsAt]
        exact forall_mem_map.mpr fun v hv => ih v hv (h v hv) (depth + 1)
      exact cr_notMem_bracketed (by decide) (by decide) depth hparts
  | object members ih =>
    cases h with
    | object hkeys h =>
      have hparts : ∀ part ∈ (membersAt (depth + 1) members).map String.toList, '\r' ∉ part := by
        rw [map_toList_membersAt]
        refine forall_mem_map.mpr fun m hm => ?_
        simp [memberText, cr_notMem_renderString, ih m hm (h m hm) (depth + 1)]
      exact cr_notMem_bracketed (by decide) (by decide) depth hparts

end Avroc.Json
