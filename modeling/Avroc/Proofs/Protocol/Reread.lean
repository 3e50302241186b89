import Avroc.Proofs.Schema.Laid

/-!
# Protocol documents read again

Once the definitions of a protocol are laid, its messages mention types that are all known.  Such a
protocol is *settled*: its document lists the definitions first, so that every message is read again
where nothing is left to define.

* `Protocol.Settled.rereads` : the document of a settled protocol, read again.
* `Protocol.Settled.document_tidy` : what is read has the same document.
-/

namespace Avroc

open List

variable {m : Message} {p : Protocol} {s : Scope} {ρ : Matching} {ids : List TypeId} {c : Catalog}
  {space : Space}

/-! ### Alike messages -/

/-- The two messages show the same. -/
structure Message.Alike (ρ : Matching) (m n : Message) : Prop where
  name : m.name = n.name
  request : List.Forall₂ (Field.Alike ρ) m.request n.request
  response : m.response.Alike ρ n.response
  errors : List.Forall₂ ρ m.errors n.errors
  oneWay : m.oneWay = n.oneWay
  doc : givenText m.doc = givenText n.doc
  props : m.props.tidy = n.props.tidy

theorem Message.Alike.mono {σ : Matching} (h : ∀ a b, ρ a b → σ a b) {n : Message}
    (hm : m.Alike ρ n) : m.Alike σ n :=
  { hm with
    request := hm.request.imp fun _ _ hf => hf.mono h
    response := hm.response.mono h
    errors := hm.errors.imp h }

section
variable {P : List String → Prop} {m m' : Mention} (hm : ∀ a b, ρ a b → SameUnder P (m a) (m' b))
include hm

theorem typeDocuments_sameUnder {ids' : List TypeId} (h : List.Forall₂ ρ ids ids') :
    SameUnder P (typeDocuments m ids) (typeDocuments m' ids') := by
  induction h with
  | nil => exact .pure _
  | cons hid _ ih => exact (hm _ _ hid).bind fun _ => ih.bind fun _ => .pure _

theorem Message.documentWith_sameUnder {x y : Message} (h : x.Alike ρ y) :
    SameUnder P (x.documentWith m) (y.documentWith m') := by
  unfold Message.documentWith
  dsimp only
  refine (Field.documentsWith_sameUnder hm h.request).bind fun request => ?_
  refine (Schema.documentWith_sameUnder hm h.response).bind fun response => ?_
  refine (typeDocuments_sameUnder hm h.errors).bind fun errors => ?_
  rw [h.oneWay, textMember_eq h.doc, withMissing_congr _ h.props]
  exact .pure _

theorem Message.documentsWith_sameUnder {xs ys : List Message}
    (h : List.Forall₂ (Message.Alike ρ) xs ys) :
    SameUnder P (Message.documentsWith m xs) (Message.documentsWith m' ys) := by
  induction h with
  | nil => exact .pure _
  | cons hxy _ ih =>
    refine (Message.documentWith_sameUnder hm hxy).bind fun document => ih.bind fun documents => ?_
    rw [hxy.name]
    exact .pure _

end

/-- The two protocols show the same. -/
structure Protocol.Alike (ρ : Matching) (p q : Protocol) : Prop where
  name : p.name = q.name
  space : p.space = q.space
  doc : givenText p.doc = givenText q.doc
  types : List.Forall₂ ρ p.types q.types
  messages : List.Forall₂ (Message.Alike ρ) p.messages q.messages
  props : p.props.tidy = q.props.tidy

/-- **Alike protocols have the same document.** -/
theorem Protocol.document_alike {c' : Catalog} (hc : c.Alike ρ c')
    (hr : ∀ a b, ρ a b → a.index < c.size ∧ b.index < c'.size) {p q : Protocol} (h : p.Alike ρ q) :
    p.document c = q.document c' := by
  have hm := fun a b (hab : ρ a b) => Catalog.mentions_sameUnder hc hr hab
  have hs : SameUnder
      (fun names => c.unwritten names ≤ c.size ∧ c'.unwritten names ≤ c'.size)
      (p.documentWith c.mentions) (q.documentWith c'.mentions) := by
    unfold Protocol.documentWith
    dsimp only
    refine (typeDocuments_sameUnder hm h.types).bind fun types => ?_
    refine (Message.documentsWith_sameUnder hm h.messages).bind fun messages => ?_
    rw [h.name, h.space, textMember_eq h.doc, withMissing_congr _ h.props]
    exact .pure _
  have he := (hs [] ⟨Nat.le_of_eq c.unwritten_nil, Nat.le_of_eq c'.unwritten_nil⟩).1
  simp only [Protocol.document, StateT.run'_eq, he]

/-! ### Settled messages -/

/-- The message as it comes out of a document. -/
def Message.tidy (m : Message) : Message :=
  { m with
    request := m.request.map Field.tidy, response := m.response.tidy, doc := givenText m.doc,
    props := m.props.tidy }

/-- Every type of the message is known in the state, and the message passes its checks there. -/
structure Message.Settled (s : Scope) (m : Message) : Prop where
  request : ∀ f ∈ m.request, Lays s (.type f.type) s ∧ f.Declarable s.catalog
  response : Lays s (.type m.response) s
  errors : ∀ id ∈ m.errors, Lays s (.type (.named id)) s ∧
    ∃ fields, (s.catalog.definition id).body = .record true fields
  oneWay : m.oneWay = true → m.response.isNull = true ∧ m.errors = []
  props : m.props.Avoids messageAttributes

/-- The members of a message in a document, before the attributes without a meaning of their own. -/
def Message.ownMembers (m : Message) (request : List Json) (response : Json)
    (errors : List Json) : Members :=
  [("request", .array request), ("response", response)] ++ textMember "doc" m.doc ++
    (if errors.isEmpty then [] else [("errors", .array errors)]) ++
    (if m.oneWay then [("one-way", .bool true)] else [])

theorem Message.get?_ownMembers (m : Message) (request : List Json) (response : Json)
    (errors : List Json) (key : String) :
    (m.ownMembers request response errors).get? key =
      if key = "request" then some (.array request)
      else if key = "response" then some response
      else if key = "doc" then (givenText m.doc).map Json.string
      else if key = "errors" ∧ errors ≠ [] then some (.array errors)
      else if key = "one-way" ∧ m.oneWay = true then some (.bool true) else none := by
  simp only [Message.ownMembers, Members.get?_append, Members.get?_cons, Members.get?_nil,
    get?_textMember]
  cases m.oneWay <;> cases errors <;> grind [Members.get?_cons, Members.get?_nil]

section
variable (depth : Nat) (hs : s.Sound) (hc : c.Covers s s) (hplace : c.Placed space)
include hs hc hplace

/-- The parameters of a message, read again. -/
theorem rereads_request {fs : List Field}
    (hfs : ∀ f ∈ fs, Lays s (.type f.type) s ∧ f.Declarable s.catalog) :
    ∃ vs, Writes (Field.documentsWith (c.mention depth) fs) s.registry.names vs s.registry.names ∧
      Yields (readRequest space vs) s.tidy (fs.map Field.tidy) s.tidy := by
  induction fs with
  | nil => exact ⟨[], .pure, .pure⟩
  | cons f fs ih =>
    obtain ⟨⟨hlays, hf⟩, hfs⟩ := forall_mem_cons.mp hfs
    obtain ⟨v, hw, hy⟩ := hlays.rereads hs hc (Nat.le_add_right _ depth) hplace.nests
      (hplace.over _) trivial
    obtain ⟨vs, hws, hys⟩ := ih hfs
    obtain ⟨v', hwf, hyf⟩ := hf.rereads hw hy
    refine ⟨v' :: vs, ?_, ?_⟩
    · exact hwf.bind (hws.bind .pure)
    · exact hyf.bind (hys.bind .pure)

/-- The errors of a message, read again. -/
theorem rereads_errors (hids : ∀ id ∈ ids, Lays s (.type (.named id)) s ∧
      ∃ fields, (s.catalog.definition id).body = .record true fields) :
    ∃ vs, Writes (typeDocuments (c.mention depth) ids) s.registry.names vs s.registry.names ∧
      vs.length = ids.length ∧ Yields (readErrors space vs) s.tidy ids s.tidy := by
  induction ids with
  | nil => exact ⟨[], .pure, rfl, .pure⟩
  | cons id ids ih =>
    obtain ⟨⟨hlays, fields, hbody⟩, hids⟩ := forall_mem_cons.mp hids
    obtain ⟨v, hw, hy⟩ := hlays.rereads hs hc (Nat.le_add_right _ depth) hplace.nests
      (hplace.over _) trivial
    obtain ⟨vs, hws, hlen, hys⟩ := ih hids
    have herror : Yields (checkErrorType (.named id)) s.tidy id s.tidy := by
      refine yields_checkErrorType.mpr ⟨rfl, rfl, fields.map Field.tidy, ?_⟩
      rw [Scope.catalog_tidy, Catalog.definition_tidy, Definition.tidy, hbody]
      rfl
    refine ⟨v :: vs, ?_, by rw [length_cons, length_cons, hlen], ?_⟩
    · exact hw.bind (hws.bind .pure)
    · exact hy.bind (herror.bind (hys.bind .pure))

/-- **A settled message, read again.** -/
theorem Message.Settled.rereads (h : m.Settled s) :
    ∃ v, Writes (m.documentWith (c.mention depth)) s.registry.names v s.registry.names ∧
      Yields (readMessage space m.name v) s.tidy m.tidy s.tidy := by
  obtain ⟨request, hwr, hyr⟩ := rereads_request depth hs hc hplace h.request
  obtain ⟨response, hwt, hyt⟩ :=
    h.response.rereads hs hc (Nat.le_add_right _ depth) hplace.nests (hplace.over _) trivial
  obtain ⟨errors, hwe, hlen, hye⟩ := rereads_errors depth hs hc hplace h.errors
  refine ⟨.object (Members.withMissing (m.ownMembers request response errors) m.props), ?_, ?_⟩
  · exact hwr.bind (hwt.bind (hwe.bind .pure))
  have hshows : (Members.withMissing (m.ownMembers request response errors) m.props).Shows
      (m.ownMembers request response errors) m.props messageAttributes := by
    refine Members.shows_withMissing (fun key hk => ?_) h.props
    simp only [messageAttributes, mem_cons, not_mem_nil, or_false, not_or] at hk
    rw [Message.get?_ownMembers]
    simp [hk]
  obtain ⟨hget, hwithout⟩ := hshows
  generalize Members.withMissing (m.ownMembers request response errors) m.props = M
    at hwithout hget ⊢
  have hrequest : M.get? "request" = some (.array request) := by
    rw [hget (by decide), Message.get?_ownMembers]; rfl
  have hresponse : M.get? "response" = some response := by
    rw [hget (by decide), Message.get?_ownMembers]; rfl
  have hdoc : docOf M = givenText m.doc := by
    refine docOf_eq_givenText ?_
    rw [hget (by decide), Message.get?_ownMembers]
    rfl
  have honeWay : ((M.get? "one-way").getD .null).isTruthy = m.oneWay := by
    rw [hget (by decide), Message.get?_ownMembers]
    cases m.oneWay <;> rfl
  have herrors : Yields (errorList M) s.tidy errors s.tidy := by
    rw [errorList, hget (by decide), Message.get?_ownMembers]
    cases errors with
    | nil => exact .pure
    | cons v vs => exact .pure
  show Yields (readMessageObject space m.name M) _ _ _
  simp only [readMessageObject, hrequest, hresponse, yields_bind]
  refine ⟨errors, _, herrors, m.errors, _, hye, _, _, hyr, _, _, hyt, ?_⟩
  rw [hdoc, honeWay, hwithout, makeMessage, if_neg, yields_pure]
  · exact ⟨rfl, rfl⟩
  · have hnull : m.response.tidy.isNull = m.response.isNull :=
      m.response.alike_tidy.isNull_eq.symm
    cases hone : m.oneWay with
    | false => simp
    | true => simp [hnull, h.oneWay hone]

end

/-! ### Settled protocols -/

/-- The protocol as it comes out of a document. -/
def Protocol.tidy (p : Protocol) : Protocol :=
  { p with
    doc := givenText p.doc, messages := p.messages.map Message.tidy, props := p.props.tidy }

/-- The namespace that the member for a namespace gives. -/
def Space.written (space : Space) : Json :=
  ((Protocol.spaceMember space).get? "namespace").getD .null

/-- The namespace is given by the member that is written for it. -/
def Space.Given (space : Space) : Prop :=
  Space.ofJson space.written = space

theorem Space.given_ofName (name : Option String) : (Space.ofName name).Given := by
  cases name with
  | none => rfl
  | some s =>
    rw [Space.ofName]
    split
    · rfl
    · rename_i hs
      show Space.ofJson (.string s) = _
      rw [Space.ofJson, if_neg hs]

theorem Space.given_ofJson (v : Json) : (Space.ofJson v).Given := by
  by_cases hs : ∃ s, v = .string s
  · obtain ⟨s, rfl⟩ := hs
    exact Space.given_ofName (some s)
  · have hv : Space.ofJson v = if v.isTruthy then .odd v else .root := by
      cases v
      case string s => exact absurd ⟨s, rfl⟩ hs
      all_goals rfl
    unfold Space.Given
    rw [hv]
    split
    · rename_i ht
      show Space.ofJson v = .odd v
      rw [hv, if_pos ht]
    · rfl

/-- All definitions of the protocol are in the catalog of the state, and every message is settled
there. -/
structure Protocol.Settled (s : Scope) (p : Protocol) : Prop where
  name_ne : p.name ≠ ""
  name_dot : '.' ∉ p.name.toList
  space : p.space.Given
  types : p.types = TypeId.upTo s.catalog.size
  messages : ∀ m ∈ p.messages, m.Settled s
  props : p.props.Avoids protocolAttributes

/-- The members of a protocol in a document, before the attributes without a meaning of their
own. -/
def Protocol.ownMembers (p : Protocol) (types : List Json) (messages : Members) : Members :=
  [("protocol", .string p.name)] ++ spaceMember p.space ++ textMember "doc" p.doc ++
    [("types", .array types), ("messages", .object messages)]

theorem Protocol.get?_ownMembers (p : Protocol) (types : List Json) (messages : Members)
    (key : String) :
    (p.ownMembers types messages).get? key =
      if key = "protocol" then some (.string p.name)
      else if key = "namespace" then (spaceMember p.space).get? "namespace"
      else if key = "doc" then (givenText p.doc).map Json.string
      else if key = "types" then some (.array types)
      else if key = "messages" then some (.object messages) else none := by
  simp only [Protocol.ownMembers, Members.get?_append, Members.get?_cons, Members.get?_nil,
    get?_textMember]
  cases p.space <;> grind [Protocol.spaceMember, Members.get?_cons, Members.get?_nil]

section
variable (depth : Nat) (hs : s.Sound) (hc : c.Covers s s) (hplace : c.Placed space)
include hs hc hplace

theorem rereads_messages {ms : List Message} (hms : ∀ m ∈ ms, m.Settled s) :
    ∃ vs, Writes (Message.documentsWith (c.mention depth) ms) s.registry.names vs
        s.registry.names ∧
      Yields (readMessages space vs) s.tidy (ms.map Message.tidy) s.tidy := by
  induction ms with
  | nil => exact ⟨[], .pure, .pure⟩
  | cons m ms ih =>
    obtain ⟨hm, hms⟩ := forall_mem_cons.mp hms
    obtain ⟨v, hw, hy⟩ := hm.rereads depth hs hc hplace
    obtain ⟨vs, hws, hys⟩ := ih hms
    refine ⟨(m.name, v) :: vs, ?_, ?_⟩
    · exact hw.bind (hws.bind .pure)
    · exact hy.bind (hys.bind .pure)

end

/-- The definitions of a settled protocol, all with a namespace, can be listed and read again. -/
theorem Laid.rereads_types (hlaid : Laid (.initial true true) s) (hspaced : s.catalog.Spaced)
    (space : Space) :
    ∃ types, Writes (typeDocuments s.catalog.mentions (TypeId.upTo s.catalog.size)) [] types
        s.registry.names ∧
      Yields (readTypes space types) (.initial true true) () s.tidy := by
  have hcovers : s.catalog.Covers (.initial true true) s :=
    ⟨Nat.le_refl _, fun _ _ => rfl, fun _ _ _ => rfl⟩
  obtain ⟨types, hw, hy⟩ := hlaid.rereads s.catalog.size space Scope.sound_initial
    (Scope.complete_initial true true) hcovers (Nat.le_add_left _ _) hspaced (.inl hspaced)
  rw [TypeId.upTo_eq_between]
  exact ⟨types, hw, hy⟩

/-- **The document of a settled protocol, read again.**  The list of its types alone brings all
definitions back. -/
theorem Protocol.Settled.rereads (h : p.Settled s) (hlaid : Laid (.initial true true) s)
    (hspaced : s.catalog.Spaced) :
    ∃ (members : Members) (types : List Json), p.document s.catalog = .ok (.object members) ∧
      members.get? "types" = some (.array types) ∧
      Yields (readTypes p.space types) (.initial true true) () s.tidy ∧
      Yields (readProtocol (.object members)) (.initial true true) p.tidy s.tidy := by
  obtain ⟨types, hwt, hyt⟩ := hlaid.rereads_types hspaced p.space
  obtain ⟨messages, hwm, hym⟩ := rereads_messages s.catalog.size (hlaid.sound Scope.sound_initial)
    ⟨Nat.le_refl _, fun _ _ => rfl, fun _ _ _ => rfl⟩ (.inl hspaced : s.catalog.Placed p.space)
    h.messages
  refine ⟨Members.withMissing (p.ownMembers types messages) p.props, types, ?_, ?_, hyt, ?_⟩
  · rw [← h.types] at hwt
    have hw : Writes (p.documentWith s.catalog.mentions) [] _ s.registry.names :=
      hwt.bind (hwm.bind .pure)
    exact hw.run'
  all_goals
    have hshows : (Members.withMissing (p.ownMembers types messages) p.props).Shows
        (p.ownMembers types messages) p.props protocolAttributes := by
      refine Members.shows_withMissing (fun key hk => ?_) h.props
      simp only [protocolAttributes, mem_cons, not_mem_nil, or_false, not_or] at hk
      rw [Protocol.get?_ownMembers]
      simp [hk]
    obtain ⟨hget, hwithout⟩ := hshows
  · rw [hget (by decide), Protocol.get?_ownMembers]
    rfl
  generalize Members.withMissing (p.ownMembers types messages) p.props = M at hwithout hget ⊢
  have hname : M.get? "protocol" = some (.string p.name) := by
    rw [hget (by decide), Protocol.get?_ownMembers]; rfl
  have htypes : M.get? "types" = some (.array types) := by
    rw [hget (by decide), Protocol.get?_ownMembers]; rfl
  have hmessages : M.get? "messages" = some (.object messages) := by
    rw [hget (by decide), Protocol.get?_ownMembers]; rfl
  have hspace : protocolName p.name ((M.get? "namespace").getD .null) = (p.name, p.space) := by
    rw [hget (by decide), Protocol.get?_ownMembers, protocolName,
      Text.splitAtLast?_eq_none_iff.mpr h.name_dot]
    exact congrArg (Prod.mk p.name) h.space
  have hdoc : docOf M = givenText p.doc := by
    refine docOf_eq_givenText ?_
    rw [hget (by decide), Protocol.get?_ownMembers]
    rfl
  show Yields (readProtocolObject M) _ _ _
  simp only [readProtocolObject, hname, if_neg h.name_ne, hspace, htypes, hmessages,
    Option.getD_some, yields_bind, yields_get, yields_pure]
  refine ⟨_, _, ⟨rfl, rfl⟩, (), _, hyt, _, _, hym, _, _, ⟨rfl, rfl⟩, ?_, rfl⟩
  have hnew : s.tidy.registry.newTypes (Scope.initial true true).registry.names = p.types := by
    rw [h.types]
    exact (hlaid.complete (Scope.complete_initial true true)).types
  rw [hdoc, hwithout, hnew]
  rfl

theorem Message.Settled.alike_tidy (h : m.Settled s) (hs : s.Sound) :
    m.Alike (Matching.below s.catalog.size) m.tidy where
  name := rfl
  request := by
    rw [Message.tidy, List.forall₂_map_right_iff]
    refine List.forall₂_same.mpr fun f hf => Field.Alike.tidy_right ?_
    exact ⟨rfl, ((h.request f hf).1.sound hs).2, rfl, rfl, rfl, rfl, rfl⟩
  response := Schema.Alike.tidy_right (h.response.sound hs).2
  errors := List.forall₂_same.mpr fun id hid => by
    obtain ⟨id', he, hid'⟩ := ((h.errors id hid).1.sound hs).2
    cases he
    exact hid'
  oneWay := rfl
  doc := (givenText_givenText m.doc).symm
  props := (Members.tidy_tidy m.props).symm

theorem Protocol.Settled.alike_tidy (h : p.Settled s) (hs : s.Sound) :
    p.Alike (Matching.below s.catalog.size) p.tidy where
  name := rfl
  space := rfl
  doc := (givenText_givenText p.doc).symm
  types := List.forall₂_same.mpr fun id hid => ⟨rfl, by rwa [h.types, TypeId.mem_upTo] at hid⟩
  messages := by
    rw [Protocol.tidy, List.forall₂_map_right_iff]
    exact List.forall₂_same.mpr fun m hm => (h.messages m hm).alike_tidy hs
  props := (Members.tidy_tidy p.props).symm

/-- A settled protocol has the document of its tidy form. -/
theorem Protocol.Settled.document_tidy (h : p.Settled s) (hs : s.Sound) :
    p.document s.catalog = p.tidy.document s.tidy.catalog :=
  Protocol.document_alike hs.closed.alike_tidy
    (fun _ _ hab => ⟨hab.2, by rw [Catalog.size_tidy, ← hab.1]; exact hab.2⟩) (h.alike_tidy hs)

end Avroc
