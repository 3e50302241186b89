import Avroc.Proofs.Idl.Fields
import Avroc.Proofs.Idl.Lexer
import Avroc.Proofs.Protocol.RoundTrip

/-!
# Declarations in the definition language

A plain declaration of a named type lays one definition, and a plain message mentions only types
that are known where it stands.

* `follows_recordDeclaration`, `follows_enumDeclaration`, `follows_fixedDeclaration`,
  `follows_messageDeclaration` : the declarations.
-/

namespace Avroc.Idl

open List

variable {c c' : Cursor} {d : Definition} {props : Members} {outer space : Option String}
  {written : String} {s s₀ : Scope}

/-! ### Names -/

/-- The identifiers among the tokens have no dot at either end. -/
def Proper (ts : List Token) : Prop :=
  ∀ t ∈ ts, t.kind = .ident → WellDotted t.value.toList

theorem Reads.proper {α : Type} {x : Parsing α} {ts ts' : List Token} {a : α}
    (h : Reads x ts a ts') (hts : Proper ts) : Proper ts' :=
  fun t ht hk => hts t (h.1.suffix.subset ht) hk

/-- An identifier is one of the tokens. -/
theorem exists_of_identifier (h : Yields identifier c written c') :
    ∃ t ∈ c.tokens, t.kind = .ident ∧ t.value = written := by
  simp only [identifier, yields_bind, yields_peek] at h
  obtain ⟨token, c₁, ⟨rfl, rfl⟩, h⟩ := h
  split at h
  · simp at h
  · rename_i hk
    simp only [yields_bind, yields_pure] at h
    obtain ⟨_, _, -, rfl, -⟩ := h
    cases hts : c₁.tokens with
    | nil =>
      rw [hts] at hk
      exact absurd (by simp [Token.eof]) hk
    | cons t ts =>
      rw [hts, headD_cons] at hk
      exact ⟨t, mem_cons_self, Decidable.not_not.mp hk, by rw [headD_cons]⟩

theorem wellDotted_of_identifier (h : Yields identifier c written c') (hc : Proper c.tokens) :
    WellDotted written.toList := by
  obtain ⟨t, ht, hk, rfl⟩ := exists_of_identifier h
  exact hc t ht hk

/-- There is a namespace. -/
def Given (space : Option String) : Prop :=
  ∃ text, space = some text ∧ text ≠ ""

/-- A property of a plain declaration gives a namespace. -/
theorem exists_of_isSpaceProperty {m : String × Json} (h : isSpaceProperty m = true) :
    ∃ text, m = ("namespace", .string text) ∧ text ≠ "" := by
  obtain ⟨key, v⟩ := m
  cases v
  case string text =>
    simp only [isSpaceProperty, Bool.and_eq_true, decide_eq_true_eq] at h
    exact ⟨text, by rw [h.1], h.2⟩
  all_goals cases h

/-- What the properties of a plain declaration say of its namespace. -/
theorem get?_namespace (h : props.all isSpaceProperty = true) :
    props.get? "namespace" = none ∨
      ∃ text, props.get? "namespace" = some (.string text) ∧ text ≠ "" := by
  cases hget : props.get? "namespace" with
  | none => exact .inl rfl
  | some v =>
    obtain ⟨text, he, hne⟩ := exists_of_isSpaceProperty
      (all_eq_true.mp h _ (Members.mem_of_get? hget))
    cases he
    exact .inr ⟨text, rfl, hne⟩

theorem without_eq_nil (h : props.all isSpaceProperty = true) {keys : List String}
    (hkeys : "namespace" ∈ keys) : props.without keys = [] := by
  refine filter_eq_nil_iff.mpr fun m hm => ?_
  obtain ⟨text, rfl, -⟩ := exists_of_isSpaceProperty (all_eq_true.mp h m hm)
  simpa using hkeys

/-- The namespace of a declaration: what the name or the property gives, with legal parts. -/
theorem yields_declaredSpace {value : Json} (h : Yields (declaredSpace written value) c space c') :
    c' = c ∧ (c.session.scope.registry.checksNames = true → LegalSpace space) ∧
      if written.toList.contains '.' then space = (splitName written none).2
      else Yields (spaceProperty value) c space c := by
  have hcheck : ∀ {s : Option String} {c : Cursor},
      Yields (do reading (checkSpace s); return s) c space c' →
      space = s ∧ c' = c ∧ (c.session.scope.registry.checksNames = true → LegalSpace space) := by
    intro s c h
    simp only [yields_bind, yields_pure, yields_reading] at h
    obtain ⟨_, _, ⟨s', hs', rfl⟩, rfl, rfl⟩ := h
    obtain ⟨rfl, hlegal⟩ := yields_checkSpace.mp hs'
    exact ⟨rfl, rfl, hlegal⟩
  unfold declaredSpace at h
  split at h
  · rename_i hdot
    rw [if_pos hdot]
    obtain ⟨rfl, rfl, hlegal⟩ := hcheck (by simpa using h)
    exact ⟨rfl, hlegal, rfl⟩
  · rename_i hdot
    rw [if_neg hdot]
    obtain ⟨s, c₁, hs, hrest⟩ := yields_bind.mp h
    obtain rfl : c₁ = c := by
      unfold spaceProperty at hs
      split at hs
      · exact (yields_pure.mp hs).2
      · split at hs
        · simp at hs
        · exact (yields_pure.mp hs).2
    obtain ⟨rfl, rfl, hlegal⟩ := hcheck hrest
    exact ⟨rfl, hlegal, hs⟩

/-- The namespace of a plain declaration. -/
theorem eq_writtenSpace (hprops : props.all isSpaceProperty = true) (houter : outer ≠ some "")
    (h : Yields (declaredSpace written ((props.get? "namespace").getD (spaceValue outer))) c space
      c') : space = writtenSpace outer props written := by
  obtain ⟨-, -, h⟩ := yields_declaredSpace h
  unfold writtenSpace
  split at h
  · rename_i hdot
    rw [if_pos hdot, h]
  · rename_i hdot
    rw [if_neg hdot]
    rcases get?_namespace hprops with hget | ⟨text, hget, -⟩
    · rw [hget] at h ⊢
      cases outer with
      | none => exact (yields_pure.mp h).1
      | some text =>
        have hne : text ≠ "" := fun he => houter (he ▸ rfl)
        rw [(yields_pure.mp h).1, spaceOf, if_neg hne]
    · rw [hget] at h ⊢
      exact (yields_pure.mp h).1

/-- The namespace of a plain declaration inside a namespace. -/
theorem writtenSpace_spaced (hprops : props.all isSpaceProperty = true) (houter : Given outer)
    (hwritten : WellDotted written.toList) : Given (writtenSpace outer props written) := by
  unfold writtenSpace
  split
  · rename_i hdot
    exact hwritten.space_ne_none (by simpa using hdot) none
  · rcases get?_namespace hprops with hget | ⟨text, hget, hne⟩
    · rw [hget]
      exact houter
    · rw [hget]
      exact ⟨text, if_neg hne, hne⟩

/-- What the head of a plain declaration in a namespace gives. -/
structure Headed (outer : Option String) (props : Members) (written : String) (h : Header) :
    Prop where
  name : h.name = (splitName written none).1
  space : h.space = writtenSpace outer props written
  aliases : h.aliases = []
  props : h.props = []
  legal : isLegalName h.name = true
  legalSpace : LegalSpace h.space
  given : Given h.space

theorem follows_header (outer : Option String) (props : Members) :
    Follows identifier (header outer props) fun c h c' written =>
      c' = { c with tokens := c'.tokens } ∧ (c.session.scope.Ready → Proper c.tokens →
        Given outer → props.all isSpaceProperty = true → Headed outer props written h) := by
  intro c h c' hy
  simp only [header, yields_bind] at hy
  obtain ⟨written, c₁, h₁, _, c₂, h₂, space, c₃, h₃, hy⟩ := hy
  obtain ⟨ts₁, rfl, hr₁⟩ := textual_identifier.reads h₁
  obtain ⟨s₂, hname, rfl⟩ := yields_reading.mp h₂
  obtain ⟨rfl, hlegal⟩ := yields_checkName.mp hname
  obtain ⟨rfl, hlegalSpace, -⟩ := yields_declaredSpace h₃
  split at hy
  · rename_i aliases haliases
    obtain ⟨rfl, rfl⟩ := yields_pure.mp hy
    refine ⟨written, hr₁, rfl, fun hs hproper houter hprops => ?_⟩
    have hspace := eq_writtenSpace hprops (by
      obtain ⟨text, rfl, hne⟩ := houter
      simpa using hne) h₃
    refine ⟨rfl, hspace, ?_, without_eq_nil hprops (by simp), hlegal hs.sound.checksNames,
      hlegalSpace hs.sound.checksNames, ?_⟩
    · have hnone : props.get? "aliases" = none := by
        refine Members.get?_eq_none_iff.mpr fun m hm => ?_
        obtain ⟨text, rfl, -⟩ := exists_of_isSpaceProperty (all_eq_true.mp hprops m hm)
        simp
      rw [hnone] at haliases
      cases haliases
      rfl
    · show Given space
      rw [hspace]
      exact writtenSpace_spaced hprops houter (wellDotted_of_identifier h₁ hproper)
  · simp at hy

/-! ### Named types -/

/-- What a declaration does to the state and to the messages: it lays definitions, and what it adds
to the messages is settled where all is laid. -/
def ReadsMember (outer : Option String) (c : Cursor) (_ : Unit) (c' : Cursor)
    (o : MemberOutline) : Prop :=
  Given outer → Proper c.tokens → c.session.scope.Ready → o.isPlain outer = true →
    Laid c.session.scope c'.session.scope ∧ c'.session.scope.Ready ∧
      ∀ m ∈ c'.messages, m ∈ c.messages ∨ ∀ sf, c'.session.scope.Final sf → m.Settled sf

theorem Headed.declarable {h : Header} (hh : Headed outer props written h) (doc : Option String)
    {body : Body} (hbody : body.Declarable) : (h.definition doc body).Declarable where
  name := hh.legal
  space := hh.legalSpace
  aliases := by
    show h.aliases.all isText = true
    rw [hh.aliases]
    rfl
  props := by
    show h.props.Avoids typeAttributes
    rw [hh.props]
    exact fun m hm => absurd hm not_mem_nil
  body := hbody

/-- A definition without fields that is entered. -/
theorem laid_of_define {s' : Scope} {id : TypeId} (hs : s.Ready) (h : Yields (define d) s id s')
    (hd : d.Declarable) (hspaced : d.Spaced)
    (hbody : ∀ isError fields, d.body ≠ .record isError fields) : Laid s s' ∧ s'.Ready := by
  obtain ⟨hnew, -, rfl⟩ := yields_define.mp h
  exact ⟨(Lays.leaf hd hnew hbody).laid trivial,
    hs.enter hnew hd (Body.fields_eq_nil hbody) hspaced⟩

/-- **A plain enum lays one definition.** -/
theorem follows_enumDeclaration (outer : Option String) (props : Members) (doc : Option String) :
    Follows (enumOutline props) (enumDeclaration outer props doc) (ReadsMember outer) := by
  intro c u c' h
  simp only [enumDeclaration, yields_bind] at h
  obtain ⟨_, c₁, h₁, start, c₂, h₂, hd, c₃, h₃, _, c₄, h₄, items, c₅, h₅, _, c₆, h₆, v, c₇, h₇,
    symbols, c₈, h₈, default, c₉, h₉, h⟩ := h
  obtain ⟨ts₁, rfl, hr₁⟩ := (textual_expectKeyword "enum").reads h₁
  obtain ⟨rfl, -⟩ := looks_peek.reads h₂
  obtain ⟨written, hr₃, hc₃, hhead⟩ := follows_header outer props _ _ _ h₃
  obtain ⟨ts₄, rfl, hr₄⟩ := (textual_expectPunct "\x7b").reads h₄
  obtain ⟨ts₅, rfl, hr₅⟩ := (textual_listUntil "\x7d" textual_simpleIdentifier).reads h₅
  obtain ⟨ts₆, rfl, hr₆⟩ := (textual_expectPunct "\x7d").reads h₆
  obtain ⟨ts₇, rfl, hr₇⟩ := textual_enumDefault.reads h₇
  obtain ⟨s₈, hsymbols, rfl⟩ := yields_locating.mp h₈
  obtain ⟨rfl, texts, -, rfl, hnodup, -, hlegal⟩ := yields_checkSymbols.mp hsymbols
  obtain ⟨s₉, hdefault, rfl⟩ := yields_locating.mp h₉
  obtain ⟨rfl, -, hmem⟩ := yields_checkEnumDefault.mp hdefault
  obtain ⟨id, hid⟩ := yields_discard.mp h
  obtain ⟨s', hdefine, rfl⟩ := yields_locating.mp hid
  refine ⟨.enum props, hr₁.bind (hr₃.discard.bind (hr₄.bind (hr₅.discard.bind (hr₆.bind
    (hr₇.discard.bind (Reads.pure _ _)))))), ?_⟩
  intro houter hproper hs hplain
  rw [hc₃] at hdefine hlegal
  have hh := hhead hs (hr₁.proper hproper) houter hplain
  have hdecl := hh.declarable doc
    (show (Body.enum _ default).Declarable from ⟨hnodup, hlegal hs.sound.checksNames, hmem⟩)
  obtain ⟨hlaid, hready⟩ := laid_of_define hs hdefine hdecl hh.given (by rintro _ _ ⟨⟩)
  refine ⟨hlaid, hready, fun m hm => .inl ?_⟩
  rw [hc₃] at hm
  exact hm

/-- **A plain fixed type lays one definition.** -/
theorem follows_fixedDeclaration (outer : Option String) (props : Members) (doc : Option String) :
    Follows (fixedOutline props) (fixedDeclaration outer props doc) (ReadsMember outer) := by
  intro c u c' h
  simp only [fixedDeclaration, yields_bind] at h
  obtain ⟨_, c₁, h₁, start, c₂, h₂, hd, c₃, h₃, _, c₄, h₄, size, c₅, h₅, _, c₆, h₆, _, c₇, h₇,
    h⟩ := h
  obtain ⟨ts₁, rfl, hr₁⟩ := (textual_expectKeyword "fixed").reads h₁
  obtain ⟨rfl, -⟩ := looks_peek.reads h₂
  obtain ⟨written, hr₃, hc₃, hhead⟩ := follows_header outer props _ _ _ h₃
  obtain ⟨ts₄, rfl, hr₄⟩ := (textual_expectPunct "(").reads h₄
  obtain ⟨ts₅, rfl, hr₅⟩ := textual_integerLiteral.reads h₅
  obtain ⟨ts₆, rfl, hr₆⟩ := (textual_expectPunct ")").reads h₆
  obtain ⟨ts₇, rfl, hr₇⟩ := (textual_expectPunct ";").reads h₇
  obtain ⟨id, hid⟩ := yields_discard.mp h
  obtain ⟨s', hdefine, rfl⟩ := yields_locating.mp hid
  refine ⟨.fixed props size, hr₁.bind (hr₃.discard.bind (hr₄.bind (hr₅.bind (hr₆.bind
    (hr₇.bind (Reads.pure _ _)))))), ?_⟩
  intro houter hproper hs hplain
  simp only [MemberOutline.isPlain, Bool.and_eq_true, decide_eq_true_eq] at hplain
  rw [hc₃] at hdefine
  have hh := hhead hs (hr₁.proper hproper) houter hplain.1
  have hdecl := hh.declarable doc (show (Body.fixed size).Declarable from hplain.2)
  obtain ⟨hlaid, hready⟩ := laid_of_define hs hdefine hdecl hh.given (by rintro _ _ ⟨⟩)
  refine ⟨hlaid, hready, fun m hm => .inl ?_⟩
  rw [hc₃] at hm
  exact hm

/-! ### Records -/

/-- The record goes by the name that is written for it in a namespace. -/
structure Named (d : Definition) (written : String) (space : Option String) : Prop where
  spaced : d.Spaced
  legal : isLegalName d.name = true
  name : d.name = (splitName written none).1
  fullName : d.fullName = joinName (splitName written none).1 space

/-- What a declaration of fields does to the record in progress. -/
def ReadsField (s₀ : Scope) (d : Definition) (written : String) (space : Option String)
    (c : Cursor) (_ : Unit) (c' : Cursor) (o : FieldOutline) : Prop :=
  c'.messages = c.messages ∧ (s₀.Sound → Named d written space →
    Building s₀ d c.session.scope → o.isPlain written space = true →
    Building s₀ d c'.session.scope)

theorem follows_recordField (outer : Option String) (s₀ : Scope) (d : Definition) (h : Header)
    (written : String) (space : Option String) :
    Follows fieldOutline (recordField outer h ⟨s₀.catalog.size⟩)
      (ReadsField s₀ d written space) := by
  intro c u c' hy
  simp only [recordField, yields_bind] at hy
  obtain ⟨first, c₁, h₁, hy⟩ := hy
  obtain ⟨rfl, -⟩ := looks_peek.reads h₁
  split at hy
  · simp at hy
  · simp only [yields_bind] at hy
    obtain ⟨fs, c₂, h₂, token, c₃, h₃, hy⟩ := hy
    obtain ⟨o, hr₂, hc₂, hlen, hfs⟩ := follows_fieldDeclaration outer h.space _ _ _ h₂
    obtain ⟨rfl, -⟩ := looks_peek.reads h₃
    obtain ⟨s', hadd, rfl⟩ := yields_locating.mp hy
    refine ⟨o, hr₂, by rw [hc₂]; rfl, fun hs₀ hnamed hb hplain => ?_⟩
    rw [hc₂] at hadd
    simp only [FieldOutline.isPlain, Bool.and_eq_true, Bool.or_eq_true, decide_eq_true_eq,
      List.isEmpty_iff, all_eq_true] at hplain
    obtain ⟨hprops, happart⟩ := hplain
    have hd := hfs hb.ready hprops
    refine hb.addFields hs₀ (fun f hf => ⟨(hd f hf).denotes.lays, (hd f hf).declarable⟩) ?_ hadd
    rw [hlen]
    refine happart.imp_right fun happart f hf => ?_
    refine (hd f hf).denotes.within _ fun name hmention id hid => ?_
    have hne := happart name hmention
    simp only [mentionsDeclared, Bool.not_eq_true', Bool.or_eq_false_iff,
      decide_eq_false_iff_not] at hne
    exact hb.lt_of_declared hnamed.spaced (not_dot_mem_of_isLegalName hnamed.legal)
      (hnamed.name ▸ hne.1) (hnamed.fullName ▸ hne.2) hid

theorem building_of_chain {us : List Unit} {os : List FieldOutline}
    (h : Chain (ReadsField s₀ d written space) c us c' os) :
    c'.messages = c.messages ∧ (s₀.Sound → Named d written space →
      Building s₀ d c.session.scope → (∀ o ∈ os, o.isPlain written space = true) →
      Building s₀ d c'.session.scope) := by
  induction h with
  | nil => exact ⟨rfl, fun _ _ hb _ => hb⟩
  | cons hf _ ih =>
    refine ⟨ih.1.trans hf.1, fun hs₀ hnamed hb hos => ?_⟩
    obtain ⟨ho, hos⟩ := forall_mem_cons.mp hos
    exact ih.2 hs₀ hnamed (hf.2 hs₀ hnamed hb ho) hos

/-- A record whose fields have all been laid. -/
theorem Building.laid (h : Building s₀ d s) (hd : d.Declarable)
    (hnew : s₀.registry.contains d.fullName = false) {isError : Bool}
    (hbody : d.body = .record isError []) : Laid s₀ s := by
  obtain ⟨fs, hlays⟩ := h.lays
  exact (Lays.record hd hnew hbody hlays).laid trivial

/-- **A plain record lays one definition.** -/
theorem follows_recordDeclaration (outer : Option String) (props : Members)
    (doc : Option String) :
    Follows (recordOutline props) (recordDeclaration outer props doc) (ReadsMember outer) := by
  intro c u c' h
  simp only [recordDeclaration, yields_bind] at h
  obtain ⟨keyword, c₁, h₁, start, c₂, h₂, hd, c₃, h₃, id, c₄, h₄, _, c₅, h₅, _, c₆, h₆, h₇⟩ := h
  obtain ⟨ts₁, rfl, hr₁⟩ := textual_next.reads h₁
  obtain ⟨rfl, -⟩ := looks_peek.reads h₂
  obtain ⟨written, hr₃, hc₃, hhead⟩ := follows_header outer props _ _ _ h₃
  obtain ⟨s₄, hdefine, rfl⟩ := yields_locating.mp h₄
  obtain ⟨hnew, rfl, rfl⟩ := yields_define.mp hdefine
  obtain ⟨ts₅, rfl, hr₅⟩ := (textual_expectPunct "\x7b").reads h₅
  obtain ⟨us, h₆⟩ := yields_discard.mp h₆
  obtain ⟨os, hr₆, hchain⟩ := (follows_recordField outer c₃.session.scope
    (hd.definition doc (.record (keyword.value = "error") [])) hd written
    (writtenSpace outer props written)).many (looks_atPunct "\x7d") _ _ _ h₆
  obtain ⟨hmessages, hbuilding⟩ := building_of_chain hchain
  obtain ⟨ts₇, rfl, hr₇⟩ := (textual_expectPunct "\x7d").reads h₇
  refine ⟨.record props written os, hr₁.discard.bind (hr₃.bind (hr₅.bind (hr₆.bind
    (hr₇.bind (Reads.pure _ _))))), ?_⟩
  intro houter hproper hs hplain
  simp only [MemberOutline.isPlain, Bool.and_eq_true, all_eq_true] at hplain
  have hh := hhead hs (hr₁.proper hproper) houter (all_eq_true.mpr hplain.1)
  have hscope : c₃.session.scope = c.session.scope := by rw [hc₃]
  rw [hscope] at hnew hbuilding
  have hdecl := hh.declarable doc
    (show (Body.record (keyword.value = "error") []).Declarable from rfl)
  have hb := hbuilding hs.sound
    ⟨hh.given, hh.legal, hh.name, by rw [← hh.name, ← hh.space]; rfl⟩
    ⟨hs.enter hnew hdecl rfl hh.given, ⟨[], .noField⟩, Scope.size_enter _ _⟩ hplain.2
  refine ⟨hb.laid hdecl hnew rfl, hb.ready, fun m hm => .inl ?_⟩
  have hm : m ∈ c₆.messages := hm
  rw [hmessages] at hm
  rw [hc₃] at hm
  exact hm

end Avroc.Idl
