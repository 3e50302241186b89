import Avroc.Proofs.Idl.Messages

/-!
# The two front ends agree

A protocol can be written in the definition language or as a document.  A plain text that is read
as a protocol has a document, and reading the document gives the same protocol: the same full name,
the same types and the same messages in the same order, and the same document.

* `follows_protocolDeclaration` : the protocol of a plain text is settled where reading ends.
* `readIdl_document` : the agreement.
-/

namespace Avroc.Idl

open List

variable {α : Type} {c c' : Cursor} {text : String}

/-! ### Imports -/

theorem tokens_of_onSession {step : Loading α} {a : α} (h : Yields (onSession step) c a c') :
    c'.tokens = c.tokens := by
  have hc : (outcome (onSession step) c).2 = c' := congrArg Prod.snd h
  rw [← hc]
  rfl

/-- An import has an outline. -/
theorem follows_importDeclaration (disk : Disk) (importer : Importer) :
    Follows importOutline (importDeclaration disk importer) fun _ _ _ o => o = .imported := by
  intro c u c' h
  simp only [importDeclaration, yields_bind] at h
  obtain ⟨_, c₁, h₁, token, c₂, h₂, h⟩ := h
  obtain ⟨ts₁, rfl, hr₁⟩ := (textual_expectKeyword "import").reads h₁
  obtain ⟨ts₂, rfl, hr₂⟩ := textual_next.reads h₂
  split at h
  · simp at h
  · simp only [yields_bind, yields_modify] at h
    obtain ⟨location, c₃, h₃, _, c₄, h₄, cursor, c₅, h₅, messages, c₆, h₆, rfl⟩ := h
    obtain ⟨ts₃, rfl, hr₃⟩ := textual_stringLiteral.reads h₃
    obtain ⟨ts₄, rfl, hr₄⟩ := (textual_expectPunct ";").reads h₄
    obtain ⟨rfl, rfl⟩ := yields_get.mp h₅
    have htokens := tokens_of_onSession h₆
    refine ⟨.imported, ?_, rfl⟩
    show Reads _ _ _ c₆.tokens
    rw [htokens]
    exact hr₁.bind (hr₂.discard.bind (hr₃.discard.bind (hr₄.bind (Reads.pure _ _))))

/-! ### Declarations -/

theorem follows_protocolMember (disk : Disk) (importer : Importer) (outer : Option String) :
    Follows memberOutline (protocolMember disk importer outer) (ReadsMember outer) := by
  intro c u c' h
  simp only [protocolMember, yields_bind] at h
  obtain ⟨first, c₁, h₁, h⟩ := h
  obtain ⟨rfl, hr₁⟩ := looks_peek.reads h₁
  split at h
  · simp at h
  split at h
  · rename_i himport
    obtain ⟨o, hr, rfl⟩ := follows_importDeclaration disk importer _ _ _ h
    refine ⟨.imported, hr₁.bind ?_, fun _ _ _ hplain => by cases hplain⟩
    rw [if_pos himport]
    exact hr
  · rename_i himport
    simp only [yields_bind] at h
    obtain ⟨props, c₂, h₂, token, c₃, h₃, h⟩ := h
    obtain ⟨ts₂, rfl, hr₂⟩ := textual_properties.reads h₂
    obtain ⟨rfl, hr₃⟩ := looks_peek.reads h₃
    -- one kind of declaration after the other, with the outline of the same kind
    obtain ⟨o, hr, ho⟩ : ∃ o, Reads (declarationOutline props token) ts₂ o c'.tokens ∧
        ReadsMember outer { c₁ with tokens := ts₂ } u c' o := by
      unfold declarationOutline
      split at h
      · rename_i hrecord
        rw [if_pos hrecord]
        exact follows_recordDeclaration outer props first.doc _ _ _ h
      rename_i hrecord
      rw [if_neg hrecord]
      split at h
      · rename_i henum
        rw [if_pos henum]
        exact follows_enumDeclaration outer props first.doc _ _ _ h
      rename_i henum
      rw [if_neg henum]
      split at h
      · rename_i hfixed
        rw [if_pos hfixed]
        exact follows_fixedDeclaration outer props first.doc _ _ _ h
      · rename_i hfixed
        rw [if_neg hfixed]
        exact follows_messageDeclaration outer props first.doc _ _ _ h
    refine ⟨o, hr₁.bind ?_, fun houter hproper => ho houter (hr₂.proper hproper)⟩
    rw [if_neg himport]
    exact hr₂.bind (hr₃.bind hr)

/-- What all declarations of a protocol have done, one after the other. -/
theorem laid_of_chain {outer : Option String} {us : List Unit} {os : List MemberOutline}
    (h : Chain (fun c u c' o => Reads memberOutline c.tokens o c'.tokens ∧
      ReadsMember outer c u c' o) c us c' os) (houter : Given outer) (hproper : Proper c.tokens)
    (hs : c.session.scope.Ready) (hplain : ∀ o ∈ os, o.isPlain outer = true) :
    Laid c.session.scope c'.session.scope ∧ c'.session.scope.Ready ∧
      ∀ m ∈ c'.messages, m ∈ c.messages ∨ ∀ sf, c'.session.scope.Final sf → m.Settled sf := by
  induction h with
  | nil => exact ⟨.refl _, hs, fun _ hm => .inl hm⟩
  | cons hmember _ ih =>
    obtain ⟨hr, hmember⟩ := hmember
    obtain ⟨ho, hos⟩ := forall_mem_cons.mp hplain
    obtain ⟨hlaid₁, hs₁, hmessages₁⟩ := hmember houter hproper hs ho
    obtain ⟨hlaid, hs', hmessages⟩ := ih (hr.proper hproper) hs₁ hos
    refine ⟨hlaid₁.trans hlaid, hs', fun m hm => ?_⟩
    rcases hmessages m hm with hm | hsettled
    · exact (hmessages₁ m hm).imp_right fun hsettled sf hf => hsettled sf (hf.of_laid hlaid)
    · exact .inr hsettled

/-! ### Protocols -/

theorem Follows.withReads {β : Type} {x : Parsing α} {y : Parsing β}
    {post : Cursor → α → Cursor → β → Prop} (h : Follows y x post) :
    Follows y x fun c a c' b => Reads y c.tokens b c'.tokens ∧ post c a c' b := by
  intro c a c' hy
  obtain ⟨b, hr, hpost⟩ := h c a c' hy
  exact ⟨b, hr, hr, hpost⟩

/-- The declarations of a protocol, up to the end of the text. -/
theorem follows_protocolBody (disk : Disk) (importer : Importer) (outer : Option String) :
    Follows bodyOutline (protocolBody disk importer outer) fun c _ c' os =>
      Given outer → Proper c.tokens → c.session.scope.Ready →
        (∀ o ∈ os, o.isPlain outer = true) →
        Laid c.session.scope c'.session.scope ∧ c'.session.scope.Ready ∧
          ∀ m ∈ c'.messages, m ∈ c.messages ∨ ∀ sf, c'.session.scope.Final sf → m.Settled sf := by
  intro c u c' h
  simp only [protocolBody, yields_bind] at h
  obtain ⟨_, c₁, h₁, _, c₂, h₂, _, c₃, h₃, token, c₄, h₄, h⟩ := h
  obtain ⟨ts₁, rfl, hr₁⟩ := (textual_expectPunct "\x7b").reads h₁
  obtain ⟨us, h₂⟩ := yields_discard.mp h₂
  obtain ⟨os, hr₂, hchain⟩ := (follows_protocolMember disk importer outer).withReads.many
    (looks_atPunct "\x7d") _ _ _ h₂
  obtain ⟨ts₃, rfl, hr₃⟩ := (textual_expectPunct "\x7d").reads h₃
  obtain ⟨rfl, -⟩ := looks_peek.reads h₄
  split at h
  · simp at h
  · obtain ⟨-, rfl⟩ := yields_pure.mp h
    refine ⟨os, hr₁.bind (hr₂.bind (hr₃.bind (Reads.pure _ _))), ?_⟩
    intro houter hproper hs hplain
    exact (laid_of_chain hchain houter (hr₁.proper hproper) hs hplain :)

theorem given_of_ofName {space : Option String} (h : Space.ofName space ≠ .root) : Given space := by
  cases space with
  | none => exact absurd rfl h
  | some text =>
    refine ⟨text, rfl, ?_⟩
    rintro rfl
    exact h rfl

theorem dot_notMem_splitName (written : String) (space : Option String) :
    '.' ∉ (splitName written space).1.toList := by
  unfold splitName
  split
  · rename_i hsplit
    simpa using (Text.splitAtLast?_eq_some hsplit).2
  · rename_i hsplit
    exact Text.splitAtLast?_eq_none_iff.mp hsplit

/-- **The protocol of a plain text is settled where reading ends.** -/
theorem follows_protocolDeclaration (disk : Disk) (importer : Importer) :
    Follows protocolOutline (protocolDeclaration disk importer) fun c p c' o =>
      c.session.scope = .initial true true → c.messages = [] → Proper c.tokens →
        o.isPlain = true → p.space ≠ .root →
        Laid (.initial true true) c'.session.scope ∧ c'.session.scope.Ready ∧
          p.Settled c'.session.scope := by
  intro c p c' h
  simp only [protocolDeclaration, yields_bind, yields_pure] at h
  obtain ⟨first, c₀, h₀, props, c₁, h₁, _, c₂, h₂, written, c₃, h₃, space, c₄, h₄, _, c₅, h₅,
    cursor, _, hget, rfl, rfl⟩ := h
  obtain ⟨rfl, -⟩ := looks_peek.reads h₀
  obtain ⟨ts₁, rfl, hr₁⟩ := textual_properties.reads h₁
  obtain ⟨ts₂, rfl, hr₂⟩ := (textual_expectKeyword "protocol").reads h₂
  obtain ⟨ts₃, rfl, hr₃⟩ := textual_identifier.reads h₃
  obtain ⟨rfl, -, -⟩ := yields_declaredSpace h₄
  obtain ⟨os, hr₅, hbody⟩ := follows_protocolBody disk importer space _ _ _ h₅
  obtain ⟨rfl, rfl⟩ := yields_get.mp hget
  refine ⟨⟨props, written, os⟩, hr₁.bind (hr₂.bind (hr₃.bind (hr₅.bind (Reads.pure _ _)))), ?_⟩
  intro hscope hmessages hproper hplain hroot
  simp only [Outline.isPlain, Bool.and_eq_true] at hplain
  obtain ⟨hprops, hplain⟩ := hplain
  have hspace : space = writtenSpace none props written := eq_writtenSpace hprops (by simp) h₄
  rw [← hspace, all_eq_true] at hplain
  have hproper₂ := hr₂.proper (hr₁.proper hproper)
  have hready : (Scope.initial true true).Ready :=
    ⟨Scope.sound_initial, Scope.complete_initial true true,
      fun _ h => absurd h (Nat.not_lt_zero _)⟩
  obtain ⟨hlaid, hs, hsettled⟩ :=
    hbody (given_of_ofName hroot) (hr₃.proper hproper₂) (hscope ▸ hready) hplain
  dsimp only at hlaid hsettled
  rw [hscope] at hlaid
  rw [hmessages] at hsettled
  refine ⟨hlaid, hs, {
    name_ne := (wellDotted_of_identifier h₃ hproper₂).name_ne_empty none
    name_dot := dot_notMem_splitName written none
    space := Space.given_ofName space
    types := hs.complete.types_eq
    messages := fun m hm => ?_
    props := ?_ }⟩
  · rcases hsettled m hm with hm | hsettled
    · cases hm
    · exact hsettled _ ⟨.refl _, hs.complete, hs.spaced⟩
  · show (props.without ["namespace"]).Avoids protocolAttributes
    rw [without_eq_nil hprops (by simp)]
    exact fun m hm => absurd hm not_mem_nil

/-- Reading a text is reading its tokens. -/
theorem yields_readIdl {disk : Disk} {path : Option Path} {p : Protocol} {s s' : Scope}
    (h : Yields (readIdl disk path text) s p s') :
    ∃ (ts : List Token) (c c' : Cursor), tokenize path text = .ok ts ∧ c.session.scope = s ∧
      c.tokens = ts ∧ c.messages = [] ∧ c'.session.scope = s' ∧
      Yields (protocolDeclaration disk (importFile disk (disk.fileCount + 1))) c p c' := by
  let importer := importFile disk (disk.fileCount + 1)
  let session : Session := ⟨s, path.toList.map disk.resolve⟩
  obtain ⟨hfail, hrun⟩ := outcome_loadWith disk importer path text session
  have hread : outcome (readIdl disk path text) s =
      ((outcome (loadWith disk importer path text) session).1,
        (outcome (loadWith disk importer path text) session).2.scope) := rfl
  rw [Yields, hread] at h
  cases ht : tokenize path text with
  | error e =>
    rw [hfail e ht] at h
    cases h
  | ok ts =>
    rw [hrun ts ht] at h
    let start : Cursor := ⟨session, path, ts, []⟩
    have hresult : (outcome (protocolDeclaration disk importer) start).1 = .ok p :=
      congrArg Prod.fst h
    exact ⟨ts, start, (outcome (protocolDeclaration disk importer) start).2, rfl, rfl, rfl, rfl,
      congrArg Prod.snd h, Prod.ext hresult rfl⟩

theorem outline?_eq {ts ts' : List Token} {o : Outline} (ht : tokenize none text = .ok ts)
    (hr : Reads protocolOutline ts o ts') :
    outline? text = some o := by
  have h : outcome protocolOutline { (default : Cursor) with tokens := ts } = (.ok o, _) :=
    hr.2 _ rfl
  rw [outline?, ht]
  dsimp only
  rw [h]
  rfl

/-- **The two front ends agree.**  A plain text is read in an empty registry with all checks, as a
protocol in a namespace.  Then the protocol has a document; the document can be read in an empty
registry with all checks; and the protocol that is read from it has the same full name, the same
document, the same full names of types in the same order and the same names of messages in the same
order. -/
theorem readIdl_document {disk : Disk} {path : Option Path} {text : String} {p : Protocol}
    {s : Scope} (hplain : ∀ o ∈ outline? text, o.isPlain = true)
    (h : Yields (readIdl disk path text) (.initial true true) p s) (hspace : p.space ≠ .root) :
    ∃ (document : Json) (p' : Protocol) (s' : Scope), p.document s.catalog = .ok document ∧
      Yields (readProtocol document) (.initial true true) p' s' ∧
      p'.fullName = p.fullName ∧ p'.document s'.catalog = .ok document ∧
      p'.types.map s'.catalog.fullName = p.types.map s.catalog.fullName ∧
      p'.messages.map (·.name) = p.messages.map (·.name) := by
  obtain ⟨ts, c, c', hts, hscope, rfl, hmessages, rfl, hrun⟩ := yields_readIdl h
  obtain ⟨o, hr, ho⟩ := follows_protocolDeclaration disk _ _ _ _ hrun
  obtain ⟨hlaid, hs, hp⟩ := ho hscope hmessages (wellDotted_of_tokenize hts)
    (hplain o (outline?_eq (tokenize_none hts) hr)) hspace
  obtain ⟨members, types, hdocument, -, -, hreread⟩ := hp.rereads hlaid hs.spaced
  refine ⟨.object members, p.tidy, _, hdocument, hreread, rfl, ?_, ?_, ?_⟩
  · rw [← hp.document_tidy hs.sound, hdocument]
  · exact map_congr_left fun id _ => Catalog.fullName_tidy _ id
  · rw [Protocol.tidy, map_map]
    rfl

/-- A protocol with a record in another namespace, two fields in one declaration, a field whose type
is the record itself, and a message with an error. -/
def lookupText : String :=
  "@namespace(\"m\") protocol P \x7b @namespace(\"n\") record R \x7b int a, b = 2; R? c; \x7d " ++
    "error E \x7b\x7d n.R f(E e) throws E; \x7d"

theorem readIdl_document_lookup :
    ∃ p s, (∀ o ∈ outline? lookupText, o.isPlain = true) ∧
      Yields (readIdl default none lookupText) (.initial true true) p s ∧ p.space ≠ .root ∧
      p.types.map s.catalog.fullName = ["n.R", "m.E"] ∧ p.messages.map (·.name) = ["f"] ∧
      ∃ (document : Json) (p' : Protocol) (s' : Scope), p.document s.catalog = .ok document ∧
        Yields (readProtocol document) (.initial true true) p' s' ∧
        p'.fullName = p.fullName ∧ p'.document s'.catalog = .ok document ∧
        p'.types.map s'.catalog.fullName = p.types.map s.catalog.fullName ∧
        p'.messages.map (·.name) = p.messages.map (·.name) := by
  have hrun : succeeds (readIdl default none lookupText) (.initial true true) (fun p s =>
      (outline? lookupText).all (·.isPlain) && p.space.text?.isSome &&
        p.types.map s.catalog.fullName == ["n.R", "m.E"] &&
        p.messages.map (·.name) == ["f"]) = true := by
    decide +kernel
  obtain ⟨p, s, h, htest⟩ := exists_of_succeeds _ _ _ hrun
  simp only [Bool.and_eq_true, beq_iff_eq, Option.all_eq_true] at htest
  obtain ⟨⟨⟨hplain, htext⟩, htypes⟩, hmessages⟩ := htest
  have hspace : p.space ≠ .root := by
    intro hroot
    rw [hroot] at htext
    cases htext
  exact ⟨p, s, hplain, h, hspace, htypes, hmessages, readIdl_document hplain h hspace⟩

end Avroc.Idl
