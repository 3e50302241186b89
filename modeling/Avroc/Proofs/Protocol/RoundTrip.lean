import Avroc.Proofs.Protocol.Building
import Avroc.Proofs.Protocol.Reread

/-!
# The round trip of a protocol

A protocol document may define types anywhere: in its list of types, inside each other and inside
its messages.  The document written for the protocol defines all of them in its list of types, and
reading it gives the protocol back.

* `readProtocol_document` : the round trip.
-/

namespace Avroc

open List

variable {v : Json} {vs : List Json} {s s' : Scope} {name : String} {space : Space}

/-- All is laid in a state after this one, and every type has a namespace there. -/
structure Scope.Final (s sf : Scope) : Prop where
  laid : Laid s sf
  complete : sf.Complete
  spaced : sf.catalog.Spaced

theorem Scope.Final.of_laid {sf : Scope} (h : s'.Final sf) (hl : Laid s s') : s.Final sf :=
  { h with laid := hl.trans h.laid }

theorem laid_of_readSchema {t : Schema} (hs : s.Sound) (h : Yields (readSchema v space) s t s') :
    Laid s s' ∧ ∀ sf, s'.Final sf → Lays sf (.type t) sf := by
  have hlays := lays_of_readSchema hs h
  exact ⟨hlays.laid trivial, fun sf hf =>
    hlays.again hs trivial hf.laid.grows hf.complete hf.spaced⟩

theorem laid_of_readTypes (hs : s.Sound) (h : Yields (readTypes space vs) s () s') : Laid s s' := by
  induction vs generalizing s with
  | nil =>
    obtain ⟨-, rfl⟩ := yields_pure.mp h
    exact .refl _
  | cons v vs ih =>
    simp only [readTypes, yields_bind] at h
    obtain ⟨t, s₁, ht, h⟩ := h
    have hlaid := (laid_of_readSchema hs ht).1
    cases t with
    | named id => exact hlaid.trans (ih (hlaid.sound hs) h)
    | primitive | array | map | union => simp at h

theorem laid_of_readErrors {ids : List TypeId} (hs : s.Sound)
    (h : Yields (readErrors space vs) s ids s') :
    Laid s s' ∧ ∀ sf, s'.Final sf → ∀ id ∈ ids, Lays sf (.type (.named id)) sf ∧
      ∃ fields, (sf.catalog.definition id).body = .record true fields := by
  induction vs generalizing s ids with
  | nil =>
    obtain ⟨rfl, rfl⟩ := yields_pure.mp h
    exact ⟨.refl _, fun _ _ _ hid => absurd hid not_mem_nil⟩
  | cons v vs ih =>
    simp only [readErrors, yields_bind, yields_pure] at h
    obtain ⟨t, s₁, ht, id, _, hid, ids, _, hids, rfl, rfl⟩ := h
    obtain ⟨rfl, rfl, fields, hbody⟩ := yields_checkErrorType.mp hid
    obtain ⟨hlaid, hagain⟩ := laid_of_readSchema hs ht
    obtain ⟨_, he, -, hlt⟩ := ((lays_of_readSchema hs ht).sound hs).2
    cases he
    obtain ⟨hlaid', hrest⟩ := ih (hlaid.sound hs) hids
    refine ⟨hlaid.trans hlaid', fun sf hf => forall_mem_cons.mpr ⟨?_, hrest sf hf⟩⟩
    have hf₁ := hf.of_laid hlaid'
    exact ⟨hagain sf hf₁, fields, by rw [hf₁.laid.definition_eq hlt, hbody]⟩

theorem laid_of_readRequest {fs : List Field} (hs : s.Sound)
    (h : Yields (readRequest space vs) s fs s') :
    Laid s s' ∧ ∀ sf, s'.Final sf → ∀ f ∈ fs,
      Lays sf (.type f.type) sf ∧ f.Declarable sf.catalog := by
  induction vs generalizing s fs with
  | nil =>
    obtain ⟨rfl, rfl⟩ := yields_pure.mp h
    exact ⟨.refl _, fun _ _ _ hf => absurd hf not_mem_nil⟩
  | cons v vs ih =>
    simp only [readRequest, yields_bind, yields_pure] at h
    obtain ⟨f, s₁, hf, fs, _, hfs, rfl, rfl⟩ := h
    obtain ⟨hlays, hdecl⟩ := lays_of_readField hs hf
    obtain ⟨hs₁, hwithin⟩ := hlays.sound hs
    obtain ⟨hlaid', hrest⟩ := ih hs₁ hfs
    refine ⟨(hlays.laid trivial).trans hlaid', fun sf hf =>
      forall_mem_cons.mpr ⟨?_, hrest sf hf⟩⟩
    have hf₁ := hf.of_laid hlaid'
    exact ⟨hlays.again hs trivial hf₁.laid.grows hf₁.complete hf₁.spaced,
      hf₁.laid.declarable hs₁ hdecl hwithin⟩

/-- A message that was read is settled where all is laid. -/
theorem settled_of_readMessage {m : Message} (hs : s.Sound)
    (h : Yields (readMessage space name v) s m s') :
    Laid s s' ∧ ∀ sf, s'.Final sf → m.Settled sf := by
  obtain ⟨-, hone, hprops, _, _, _, s₁, s₂, herr, hreq, hresp⟩ := exists_of_readMessage h
  obtain ⟨hl₁, herrors⟩ := laid_of_readErrors hs herr
  obtain ⟨hl₂, hrequest⟩ := laid_of_readRequest (hl₁.sound hs) hreq
  obtain ⟨hl₃, hresponse⟩ := laid_of_readSchema (hl₂.sound (hl₁.sound hs)) hresp
  exact ⟨(hl₁.trans hl₂).trans hl₃, fun sf hf => {
    request := hrequest sf (hf.of_laid hl₃)
    response := hresponse sf hf
    errors := herrors sf (hf.of_laid (hl₂.trans hl₃))
    oneWay := hone
    props := hprops }⟩

theorem settled_of_readMessages {members : Members} {ms : List Message} (hs : s.Sound)
    (h : Yields (readMessages space members) s ms s') :
    Laid s s' ∧ ∀ sf, s'.Final sf → ∀ m ∈ ms, m.Settled sf := by
  induction members generalizing s ms with
  | nil =>
    obtain ⟨rfl, rfl⟩ := yields_pure.mp h
    exact ⟨.refl _, fun _ _ _ hm => absurd hm not_mem_nil⟩
  | cons member members ih =>
    simp only [readMessages, yields_bind, yields_pure] at h
    obtain ⟨m, s₁, hm, ms, _, hms, rfl, rfl⟩ := h
    obtain ⟨hlaid, hsettled⟩ := settled_of_readMessage hs hm
    obtain ⟨hlaid', hrest⟩ := ih (hlaid.sound hs) hms
    refine ⟨hlaid.trans hlaid', fun sf hf => ?_⟩
    exact forall_mem_cons.mpr ⟨hsettled sf (hf.of_laid hlaid'), hrest sf hf⟩

/-- The name of a protocol has no dot, and its namespace is given by its member. -/
theorem protocolName_spec {written : String} {value : Json}
    (h : protocolName written value = (name, space)) : '.' ∉ name.toList ∧ space.Given := by
  unfold protocolName at h
  split at h
  · rename_i parts hsplit
    obtain ⟨before, after⟩ := parts
    rw [splitName, hsplit] at h
    cases h
    refine ⟨?_, Space.given_ofName _⟩
    simpa using (Text.splitAtLast?_eq_some hsplit).2
  · rename_i hsplit
    cases h
    exact ⟨Text.splitAtLast?_eq_none_iff.mp hsplit, Space.given_ofJson _⟩

/-- **A protocol that was read is settled where reading ends**, if it has a name and its types have
namespaces. -/
theorem settled_of_readProtocol {p : Protocol}
    (h : Yields (readProtocol v) (.initial true true) p s) :
    Laid (.initial true true) s ∧ p.types = TypeId.upTo s.catalog.size ∧
      (p.name ≠ "" → s.catalog.Spaced → p.Settled s) := by
  have hs := Scope.sound_initial
  obtain ⟨hnew, hprops, ⟨_, _, hspec⟩, _, _, _, s₁, -, htypes, -, hms⟩ := exists_of_readProtocol h
  have hlaid₁ := laid_of_readTypes hs htypes
  obtain ⟨hlaid₂, hsettled⟩ := settled_of_readMessages (hlaid₁.sound hs) hms
  have hlaid := hlaid₁.trans hlaid₂
  have hcomplete := hlaid.complete (Scope.complete_initial true true)
  obtain ⟨hdot, hgiven⟩ := protocolName_spec hspec
  have htypes := hnew.trans hcomplete.types
  exact ⟨hlaid, htypes, fun hname hspaced => {
    name_ne := hname
    name_dot := hdot
    space := hgiven
    types := htypes
    messages := hsettled _ ⟨.refl _, hcomplete, hspaced⟩
    props := hprops }⟩

/-- **The round trip of a protocol.**  A protocol is read in an empty registry with all checks; it
has a name that is not empty, and all its types have namespaces.  Then it has a document.  Reading
the list of types in the document defines all types, those too that were defined inside messages;
and reading the document in a second empty registry gives a protocol with the same document, the
same full names of types in the same order and the same messages in the same order. -/
theorem readProtocol_document {v : Json} {p : Protocol} {s : Scope}
    (h : Yields (readProtocol v) (.initial true true) p s) (hname : p.name ≠ "")
    (hspace : ∀ id ∈ p.types, (s.catalog.definition id).space ≠ none) :
    ∃ (members : Members) (types : List Json) (s₁ : Scope) (p' : Protocol) (s' : Scope),
      p.document s.catalog = .ok (.object members) ∧
      members.get? "types" = some (.array types) ∧
      Yields (readTypes p.space types) (.initial true true) () s₁ ∧
      s₁.registry.names = p.types.map s.catalog.fullName ∧
      Yields (readProtocol (.object members)) (.initial true true) p' s' ∧
      p'.document s'.catalog = .ok (.object members) ∧
      p'.types.map s'.catalog.fullName = p.types.map s.catalog.fullName ∧
      List.Forall₂ (Message.Alike Eq) p.messages p'.messages := by
  obtain ⟨hlaid, htypes, hsettled⟩ := settled_of_readProtocol h
  have hs := hlaid.sound Scope.sound_initial
  have hspaced : s.catalog.Spaced := by
    intro id hid
    obtain ⟨text, ht⟩ := Option.ne_none_iff_exists'.mp
      (hspace id (htypes ▸ TypeId.mem_upTo.mpr hid))
    exact ⟨text, ht, fun he => hs.space id hid (he ▸ ht)⟩
  have hp := hsettled hname hspaced
  obtain ⟨members, types, hdocument, hget, hread, hreread⟩ := hp.rereads hlaid hspaced
  refine ⟨members, types, s.tidy, p.tidy, s.tidy, hdocument, hget, hread, ?_, hreread, ?_, ?_, ?_⟩
  · rw [htypes]
    exact (hlaid.complete (Scope.complete_initial true true)).names
  · rw [← hp.document_tidy hs, hdocument]
  · exact map_congr_left fun id _ => Catalog.fullName_tidy s.catalog id
  · exact (hp.alike_tidy hs).messages.imp fun _ _ hm => hm.mono fun _ _ hab => hab.1

/-- A protocol whose message defines an error and the type of its parameter. -/
def lookupDocument : Json :=
  .object [("protocol", .string "Lookup"), ("namespace", .string "org"),
    ("types", .array [.object [("type", .string "enum"), ("name", .string "Side"),
      ("symbols", .array [.string "LEFT", .string "RIGHT"])]]),
    ("messages", .object [("find", .object [
      ("request", .array [.object [("name", .string "key"), ("type", .object [
        ("type", .string "record"), ("name", .string "Key"), ("fields", .array [
          .object [("name", .string "side"), ("type", .string "Side"),
            ("default", .string "LEFT")]])])]]),
      ("response", .array [.string "null", .string "Key"]),
      ("errors", .array [.object [("type", .string "error"), ("name", .string "Missing"),
        ("fields", .array [])]])])])]

theorem readProtocol_document_lookup :
    ∃ p s, Yields (readProtocol lookupDocument) (.initial true true) p s ∧ p.name ≠ "" ∧
      p.types.map s.catalog.fullName = ["org.Side", "org.Missing", "org.Key"] ∧
      (∀ id ∈ p.types, (s.catalog.definition id).space ≠ none) ∧
      ∃ (members : Members) (types : List Json) (s₁ : Scope) (p' : Protocol) (s' : Scope),
        p.document s.catalog = .ok (.object members) ∧
        members.get? "types" = some (.array types) ∧
        Yields (readTypes p.space types) (.initial true true) () s₁ ∧
        s₁.registry.names = p.types.map s.catalog.fullName ∧
        Yields (readProtocol (.object members)) (.initial true true) p' s' ∧
        p'.document s'.catalog = .ok (.object members) ∧
        p'.types.map s'.catalog.fullName = p.types.map s.catalog.fullName ∧
        List.Forall₂ (Message.Alike Eq) p.messages p'.messages := by
  have hrun : succeeds (readProtocol lookupDocument) (.initial true true) (fun p s =>
      p.name != "" && p.types.map s.catalog.fullName == ["org.Side", "org.Missing", "org.Key"] &&
        p.types.all fun id => (s.catalog.definition id).space.isSome) = true := by
    decide +kernel
  obtain ⟨p, s, h, htest⟩ := exists_of_succeeds _ _ _ hrun
  simp only [Bool.and_eq_true, bne_iff_ne, beq_iff_eq, all_eq_true,
    Option.isSome_iff_ne_none] at htest
  obtain ⟨⟨hname, htypes⟩, hspace⟩ := htest
  exact ⟨p, s, h, hname, htypes, hspace, readProtocol_document h hname hspace⟩

end Avroc
