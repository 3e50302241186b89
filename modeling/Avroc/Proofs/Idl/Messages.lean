import Avroc.Proofs.Idl.Declarations

/-!
# Messages in the definition language

The types of a message are known where it stands, and they stay known: a plain message is settled
in every later state.
-/

namespace Avroc.Idl

open List

/-- The named type is known and is an error. -/
def KnownError (s : Scope) (id : TypeId) : Prop :=
  Lays s (.type (.named id)) s ∧ ∃ fields, (s.catalog.definition id).body = .record true fields

/-- The field can be laid where it stands, without a change. -/
def KnownField (s : Scope) (f : Field) : Prop :=
  Lays s (.type f.type) s ∧ f.Declarable s.catalog

/-! ### Parts -/

theorem follows_responseType (outer : Option String) :
    Follows responseOutline (responseType outer)
      (Quiet fun s t props => s.Ready → props = [] → Lays s (.type t) s) := by
  intro c t c' h
  unfold responseType at h
  obtain ⟨void, c₁, h₁, h⟩ := yields_bind.mp h
  obtain ⟨rfl, hr₁⟩ := (looks_atKeyword "void").reads h₁
  cases void with
  | true =>
    simp only [if_true, yields_bind, yields_pure] at h
    obtain ⟨_, c₂, h₂, rfl, rfl⟩ := h
    obtain ⟨ts₂, rfl, hr₂⟩ := textual_next.discard.reads h₂
    refine ⟨[], hr₁.bind (hr₂.bind (Reads.pure _ _)), rfl, fun _ _ => ?_⟩
    exact .primitive fun m hm => absurd hm not_mem_nil
  | false =>
    simp only [Bool.false_eq_true, if_false, yields_bind, yields_pure] at h
    obtain ⟨e, c₂, h₂, rfl, rfl⟩ := h
    obtain ⟨o, hr₂, hc₂, ho⟩ := follows_typeExpr outer outer _ _ _ h₂
    refine ⟨o.props, hr₁.bind (hr₂.bind (Reads.pure _ _)), hc₂, fun hs hprops => ?_⟩
    exact (ho hs hprops).denotes.lays

theorem follows_parameter (outer : Option String) :
    Follows parameterOutline (parameter outer)
      (Quiet fun s f props => s.Ready → props = [] → KnownField s f) := by
  intro c f c' h
  simp only [parameter, yields_bind] at h
  obtain ⟨props, c₁, h₁, e, c₂, h₂, h⟩ := h
  obtain ⟨ts₁, rfl, hr₁⟩ := textual_properties.reads h₁
  obtain ⟨o, hr₂, hc₂, ho⟩ := follows_typeExpr outer outer _ _ _ h₂
  obtain ⟨own, hr₃, hc₃, hf⟩ := follows_declarator outer outer o _ _ _ _ _ _ h
  refine ⟨props ++ o.props ++ own, hr₁.bind (hr₂.bind (hr₃.bind (Reads.pure _ _))), ?_, ?_⟩
  · rw [hc₃, hc₂]
  · intro hs hprops
    rw [append_eq_nil_iff, append_eq_nil_iff] at hprops
    obtain ⟨⟨rfl, hprops⟩, hown⟩ := hprops
    rw [hc₂] at hf
    have hd := hf hs hown rfl (ho hs hprops)
    exact ⟨hd.denotes.lays, hd.declarable⟩

theorem follows_errorType (outer : Option String) :
    Follows identifier (errorType outer) (Quiet fun s id _ => s.Ready → KnownError s id) := by
  intro c id c' h
  simp only [errorType, yields_bind] at h
  obtain ⟨token, c₁, h₁, name, c₂, h₂, h⟩ := h
  obtain ⟨rfl, -⟩ := looks_peek.reads h₁
  obtain ⟨ts₂, rfl, hr₂⟩ := textual_identifier.reads h₂
  obtain ⟨cursor, _, hget, h⟩ := h
  obtain ⟨rfl, rfl⟩ := yields_get.mp hget
  split at h
  · rename_i id' hid
    obtain ⟨s', herror, rfl⟩ := yields_locating.mp h
    obtain ⟨rfl, he, hfields⟩ := yields_checkErrorType.mp herror
    cases he
    exact ⟨name, hr₂, rfl, fun hs => ⟨hs.known hid, hfields⟩⟩
  · simp at h

theorem follows_messageEnd (outer : Option String) :
    Follows messageEndOutline (messageEnd outer)
      (Quiet fun s r _ => s.Ready → ∀ id ∈ r.2, KnownError s id) := by
  intro c r c' h
  unfold messageEnd at h
  obtain ⟨oneWay, c₁, h₁, h⟩ := yields_bind.mp h
  obtain ⟨rfl, hr₁⟩ := (looks_atKeyword "oneway").reads h₁
  cases oneWay with
  | true =>
    simp only [if_true, yields_bind, yields_pure] at h
    obtain ⟨_, c₂, h₂, rfl, rfl⟩ := h
    obtain ⟨ts₂, rfl, hr₂⟩ := textual_next.discard.reads h₂
    exact ⟨(), hr₁.bind hr₂, rfl, fun _ _ hid => absurd hid not_mem_nil⟩
  | false =>
    simp only [Bool.false_eq_true, if_false] at h
    obtain ⟨throws, c₂, h₂, h⟩ := yields_bind.mp h
    obtain ⟨rfl, hr₂⟩ := (looks_atKeyword "throws").reads h₂
    cases throws with
    | true =>
      simp only [if_true, yields_bind, yields_pure] at h
      obtain ⟨_, c₃, h₃, ids, c₄, h₄, rfl, rfl⟩ := h
      obtain ⟨ts₃, rfl, hr₃⟩ := textual_next.discard.reads h₃
      obtain ⟨names, hr₄, hchain⟩ := (follows_errorType outer).commaList _ _ _ h₄
      obtain ⟨hc₄, hids⟩ := hchain.quiet
      refine ⟨(), hr₁.bind (hr₂.bind (hr₃.bind hr₄.discard)), hc₄, fun hs id hid => ?_⟩
      obtain ⟨name, -, hknown⟩ := exists_mem_of_forall₂ hids hid
      exact hknown hs
    | false =>
      obtain ⟨rfl, rfl⟩ := yields_pure.mp h
      exact ⟨(), hr₁.bind (hr₂.bind (Reads.pure _ _)), rfl,
        fun _ _ hid => absurd hid not_mem_nil⟩

/-! ### Messages -/

/-- A message of known types is settled in every later state. -/
theorem settled_of_known {s : Scope} (hs : s.Ready) {m : Message}
    (hrequest : ∀ f ∈ m.request, KnownField s f) (hresponse : Lays s (.type m.response) s)
    (herrors : ∀ id ∈ m.errors, KnownError s id)
    (honeWay : m.oneWay = true → m.response.isNull = true ∧ m.errors = [])
    (hprops : m.props.Avoids messageAttributes) {sf : Scope} (hf : s.Final sf) : m.Settled sf where
  request f hfield := by
    obtain ⟨hlays, hdecl⟩ := hrequest f hfield
    exact ⟨hlays.again hs.sound trivial hf.laid.grows hf.complete hf.spaced,
      hf.laid.declarable hs.sound hdecl (hlays.sound hs.sound).2⟩
  response := hresponse.again hs.sound trivial hf.laid.grows hf.complete hf.spaced
  errors id hid := by
    obtain ⟨hlays, fields, hbody⟩ := herrors id hid
    obtain ⟨_, he, -, hlt⟩ := (hlays.sound hs.sound).2
    cases he
    exact ⟨hlays.again hs.sound trivial hf.laid.grows hf.complete hf.spaced, fields, by
      rw [hf.laid.definition_eq hlt, hbody]⟩
  oneWay := honeWay
  props := hprops

/-- A message is set under its name. -/
theorem map_insertMessage (m : Message) (ms : List Message) :
    (insertMessage m ms).map (fun x => (x.name, x)) =
      putKey m.name m (ms.map fun x => (x.name, x)) := by
  induction ms with
  | nil => rfl
  | cons x ms ih =>
    rw [insertMessage, map_cons, putKey, ← ih]
    split
    · rename_i hx
      rw [map_cons, ← hx]
    · rfl

theorem mem_insertMessage {m x : Message} {ms : List Message} (h : m ∈ insertMessage x ms) :
    m = x ∨ m ∈ ms := by
  have hmem := mem_map_of_mem (f := fun x => (x.name, x)) h
  rw [map_insertMessage] at hmem
  simpa using (mem_putKey hmem).imp_left (congrArg Prod.snd)

/-- **A plain message defines nothing, and is settled in every later state.** -/
theorem follows_messageDeclaration (outer : Option String) (props : Members)
    (doc : Option String) :
    Follows (messageOutline props) (messageDeclaration outer props doc) (ReadsMember outer) := by
  intro c u c' h
  simp only [messageDeclaration, yields_bind] at h
  obtain ⟨start, c₁, h₁, response, c₂, h₂, name, c₃, h₃, _, c₄, h₄, request, c₅, h₅, _, c₆, h₆,
    ⟨oneWay, errors⟩, c₇, h₇, _, c₈, h₈, cursor, c₉, h₉, h⟩ := h
  obtain ⟨rfl, -⟩ := looks_peek.reads h₁
  obtain ⟨o, hr₂, hc₂, ho⟩ := follows_responseType outer _ _ _ h₂
  obtain ⟨ts₃, rfl, hr₃⟩ := textual_simpleIdentifier.reads h₃
  obtain ⟨ts₄, rfl, hr₄⟩ := (textual_expectPunct "(").reads h₄
  obtain ⟨os, hr₅, hchain⟩ := (follows_parameter outer).listUntil ")" _ _ _ h₅
  obtain ⟨hc₅, hrequest⟩ := hchain.quiet
  obtain ⟨ts₆, rfl, hr₆⟩ := (textual_expectPunct ")").reads h₆
  obtain ⟨_, hr₇, hc₇, herrors⟩ := follows_messageEnd outer _ _ _ h₇
  obtain ⟨ts₈, rfl, hr₈⟩ := (textual_expectPunct ";").reads h₈
  obtain ⟨rfl, rfl⟩ := yields_get.mp h₉
  split at h
  · simp at h
  · simp only [yields_bind, yields_modify] at h
    obtain ⟨m, c₁₀, hm, rfl⟩ := h
    obtain ⟨s', hmake, rfl⟩ := yields_locating.mp hm
    unfold makeMessage at hmake
    split at hmake
    · simp at hmake
    · rename_i hrule
      obtain ⟨rfl, rfl⟩ := yields_pure.mp hmake
      refine ⟨.message (props ++ o ++ os.flatten), hr₂.bind (hr₃.discard.bind (hr₄.bind
        (hr₅.bind (hr₆.bind (hr₇.bind (hr₈.bind (Reads.pure _ _))))))), ?_⟩
      intro _ _ hs hplain
      simp only [MemberOutline.isPlain, List.isEmpty_iff, append_eq_nil_iff] at hplain
      obtain ⟨⟨rfl, hresponse⟩, hos⟩ := hplain
      rw [hc₅, hc₂] at hc₇ herrors
      rw [hc₂] at hrequest
      rw [hc₇]
      refine ⟨.refl _, hs, fun m hmem => ?_⟩
      rcases mem_insertMessage hmem with rfl | hmem
      · refine .inr fun sf hf => settled_of_known hs ?_ (ho hs hresponse) (herrors hs) ?_ ?_ hf
        · intro f hf
          obtain ⟨own, hown, hknown⟩ := exists_mem_of_forall₂ hrequest hf
          exact hknown hs (flatten_eq_nil_iff.mp hos own hown)
        · exact fun hone => (by simpa using hrule : _ → _) hone
        · exact fun m hm => absurd hm not_mem_nil
      · exact .inl hmem

/-! ### Texts -/

/-- Loading a file goes through its tokens, if the text has tokens. -/
theorem outcome_loadWith (d : Disk) (importer : Importer) (path : Option Path) (text : String)
    (s : Session) : (∀ e, tokenize path text = .error e →
      outcome (loadWith d importer path text) s = (.error e, s)) ∧
    ∀ tokens, tokenize path text = .ok tokens →
      outcome (loadWith d importer path text) s =
        ((outcome (protocolDeclaration d importer) ⟨s, path, tokens, []⟩).1,
          (outcome (protocolDeclaration d importer) ⟨s, path, tokens, []⟩).2.session) := by
  refine ⟨fun e he => ?_, fun tokens ht => ?_⟩
  · simp only [outcome, loadWith, ExceptT.run, he]
  · simp only [outcome, loadWith, ExceptT.run, ht]
    rfl

end Avroc.Idl
