import Avroc.Proofs.Idl.Observing

/-!
# What the definition language builds

Going through a file of the definition language changes the scope as reading a document does, and
the messages that it collects stand on the names known by then.  If the file and those it may import
write legal attributes, all that is entered and collected keeps the rules for them.  Most steps only
take tokens or look at the scope; the others enter a definition, add fields to the record that is
open, or import.

* `leads_readIdl` : **reading a file with its imports builds, and the protocol stands.**
-/

namespace Avroc.Idl

open List

variable {legal : Prop} {s : Session} {base : Nat} {c c' : Cursor} {P : Scope → Prop}
  {props : Members} {ms : List Message} {text : String} {α : Type} {Q : α → Scope → Prop}
  {path : Path}

/-! ### Steps at a cursor -/

/-- The scope of the session builds, what has been imported stays so, and no file is read again. -/
structure Session.Builds (legal : Prop) (base : Nat) (s s' : Session) : Prop where
  scope : Scope.Builds legal base s.scope s'.scope
  imported : s.imported <+: s'.imported
  once : s.imported.Nodup → s'.imported.Nodup

theorem Session.Builds.refl (h : s.scope.Orderly base) :
    s.Builds legal base s :=
  ⟨.refl h, prefix_refl _, id⟩

instance {base : Nat} :
    Trans (Session.Builds legal base) (Session.Builds legal base) (Session.Builds legal base) :=
  ⟨fun h h' => ⟨h.scope.trans h'.scope, h.imported.trans h'.imported, h'.once ∘ h.once⟩⟩

/-- The message stands, and keeps the rules if what is written is `legal`. -/
def Sound (legal : Prop) (s : Scope) (m : Message) : Prop :=
  m.Stands s ∧ (legal → m.Ruled)

/-- The session of the cursor builds while it moves on, and its messages are those of before or
sound; different names of messages stay so. -/
structure Cursor.Builds (legal : Prop) (base : Nat) (c c' : Cursor) : Prop where
  session : Session.Builds legal base c.session c'.session
  messages : ∀ m ∈ c'.messages, m ∈ c.messages ∨ Sound legal c'.session.scope m
  distinct : (c.messages.map (·.name)).Nodup → (c'.messages.map (·.name)).Nodup
  tokens : Moves c.tokens c'.tokens

theorem Cursor.Moved.builds (h : c.Moved c') (hc : c.session.scope.Orderly base) :
    c.Builds legal base c' := by
  rw [h.rest]
  exact ⟨.refl hc, fun _ hm => .inl hm, id, h.tokens⟩

theorem Cursor.Builds.refl (h : c.session.scope.Orderly base) : c.Builds legal base c :=
  (Cursor.Moved.refl c).builds h

theorem Cursor.Builds.scope (h : c.Builds legal base c') :
    Scope.Builds legal base c.session.scope c'.session.scope :=
  h.session.scope

theorem Cursor.Builds.trans {c₁ : Cursor} (h : c.Builds legal base c₁)
    (h' : c₁.Builds legal base c') : c.Builds legal base c' where
  session := Trans.trans h.session h'.session
  messages m hm := by
    rcases h'.messages m hm with hm | hm
    · exact (h.messages m hm).imp_right fun hm => ⟨hm.1.mono h'.scope.grows, hm.2⟩
    · exact .inr hm
  distinct hd := h'.distinct (h.distinct hd)
  tokens := h.tokens.trans h'.tokens

instance : Trans (Cursor.Builds legal base) (Cursor.Builds legal base) (Cursor.Builds legal base) :=
  ⟨Cursor.Builds.trans⟩

/-- The scope is in order, and the attributes ahead are legal if `legal` holds. -/
structure Cursor.Orderly (legal : Prop) (base : Nat) (c : Cursor) : Prop where
  scope : c.session.scope.Orderly base
  tokens : legal → Legal c.tokens

/-- Wherever `P` holds of the scope, the step builds, and a result `a` comes with `Q a`. -/
def Constructs {α : Type} (legal : Prop) (base : Nat) (P : Scope → Prop) (x : Parsing α)
    (Q : α → Scope → Prop) : Prop :=
  ∀ c : Cursor, c.Orderly legal base → P c.session.scope →
    Leads (Cursor.Builds legal base) c (fun a c' => Q a c'.session.scope) (outcome x c)

section
variable {β : Type} {R : β → Scope → Prop} {x : Parsing α} {f : α → Parsing β}

theorem Cursor.Builds.orderly (h : c.Builds legal base c') (hc : c.Orderly legal base) :
    c'.Orderly legal base :=
  ⟨h.scope.orderly, h.tokens.legal hc.tokens⟩

theorem constructs_pure {a : α} (h : ∀ s, P s → Q a s) : Constructs legal base P (pure a) Q :=
  fun _ hc hp => leads_pure (.refl hc.scope) (h _ hp)

theorem Constructs.bind (hx : Constructs legal base P x Q)
    (hf : ∀ a, Constructs legal base (Q a) (f a) R) : Constructs legal base P (x >>= f) R :=
  fun c hc hp => (hx c hc hp).bind fun a c₁ h₁ ha => hf a c₁ (h₁.orderly hc) ha

/-- A step that only looks comes first. -/
theorem Observes.constructs_bind
    (hx : ∀ s, s.Orderly base → P s → Observes legal s x fun a => Q a s)
    (hf : ∀ a, Constructs legal base (fun s => P s ∧ Q a s) (f a) R) :
    Constructs legal base P (x >>= f) R := by
  intro c hc hp
  have h := hx _ hc.scope hp c rfl hc.tokens
  have hstep : Leads (Cursor.Builds legal base) c
      (fun a c₁ => P c₁.session.scope ∧ Q a c₁.session.scope) (outcome x c) := by
    refine ⟨h.rel.builds hc.scope, fun a ha => ?_⟩
    rw [h.rel.rest]
    exact ⟨hp, h.result a ha⟩
  exact hstep.bind fun a c₁ h₁ ha => hf a c₁ (h₁.orderly hc) ha

theorem Observes.constructs (hx : ∀ s, s.Orderly base → P s → Observes legal s x fun a => Q a s) :
    Constructs legal base P x Q := by
  have hbind : Constructs legal base P (x >>= Pure.pure) Q :=
    Observes.constructs_bind hx fun a => constructs_pure fun _ h => h.2
  rwa [bind_pure] at hbind

/-- A step on tokens comes first. -/
theorem Textual.constructs_bind (hx : Textual x) (hf : ∀ a, Constructs legal base P (f a) R) :
    Constructs legal base P (x >>= f) R :=
  Observes.constructs_bind (Q := fun _ _ => True) (fun _ _ _ => hx.observes) fun a c hc hp =>
    hf a c hc hp.1

theorem constructs_failAt (token : Token) (fault : Fault) :
    Constructs legal base P (failAt token fault) Q :=
  Observes.constructs fun _ _ _ => observes_failAt token fault

theorem constructs_failHere (fault : Fault) : Constructs legal base P (failHere fault) Q :=
  Observes.constructs fun _ _ _ => observes_failHere fault

theorem constructs_get_bind {f : Cursor → Parsing β} (hf : ∀ c, Constructs legal base P (f c) R) :
    Constructs legal base P (get >>= f) R :=
  fun c hc hp => still_get.leads_bind (.refl hc.scope) fun c₀ _ => hf c₀ c hc hp

theorem Constructs.discard (hx : Constructs legal base P x Q) :
    Constructs legal base P (Functor.discard x) fun _ _ => True := by
  show Constructs legal base P ((fun _ => PUnit.unit) <$> x) _
  rw [map_eq_pure_bind]
  exact hx.bind fun _ => constructs_pure fun _ _ => trivial

/-- A step of reading whose refusals are placed at a token. -/
theorem constructs_locating (token : Token) {x : Reading α} (hx : ∀ s, s.Orderly base → P s →
      Leads (Scope.Builds legal base) s (fun a s' => Q a s') (outcome x s)) :
    Constructs legal base P (locating token x) Q := by
  intro c hc hp
  have h := hx _ hc.scope hp
  have hreading : Leads (Cursor.Builds legal base) c (fun a c' => Q a c'.session.scope)
      (outcome (reading x) c) :=
    ⟨⟨⟨h.rel, prefix_refl _, id⟩, fun _ hm => .inl hm, id, .refl _⟩, h.result⟩
  refine leads_tryCatch hreading fun e c₁ h₁ => ?_
  split
  · exact (still_failAt _ _).leads (.refl h₁.scope.orderly) fun _ hy => absurd hy not_yields_failAt
  · exact leads_throw (.refl h₁.scope.orderly) _

/-! ### Repetition -/

/-- What each part leaves as it found it, any number of parts leave so. -/
theorem constructs_many {atEnd : Parsing Bool} (hend : Textual atEnd)
    (hx : Constructs legal base P x fun _ => P) :
    Constructs legal base P (many atEnd x) fun _ => P := by
  refine constructs_get_bind fun cursor => ?_
  induction cursor.tokens.length with
  | zero => exact constructs_pure fun _ h => h
  | succ bound ih =>
    refine hend.constructs_bind fun isEnd => ?_
    split
    · exact constructs_pure fun _ h => h
    · exact hx.bind fun a => ih.bind fun as => constructs_pure fun _ h => h

end

/-! ### Named types -/

section
variable (outer : Option String)

/-- Entering a definition that keeps the rules. -/
theorem constructs_define (token : Token) {d : Definition} (hb : d.body.fields = [])
    (hd : ∀ s, P s → s.registry.checksNames = true → d.Lawful) (hr : ∀ s, P s → legal → d.Ruled) :
    Constructs legal base P (locating token (define d)) fun id s => base ≤ id.index ∧
      ∀ isError, d.body = .record isError [] → s.Open id := by
  refine constructs_locating token fun s hs hp => ?_
  refine (leads_define hs hb (hd s hp) (hr s hp)).imp fun id s' _ ⟨hnew, hid, hs'⟩ => ?_
  subst hid hs'
  exact ⟨hs.base, fun _ hrecord => hs.open_enter hnew hrecord⟩

theorem constructs_recordField (h : Header) {id : TypeId} (hid : base ≤ id.index) :
    Constructs legal base (·.Open id) (recordField outer h id) fun _ s => s.Open id := by
  refine textual_peek.constructs_bind fun first => ?_
  split
  · exact constructs_failHere _
  · refine Observes.constructs_bind (fun s hs _ => observes_fieldDeclaration hs outer h.space)
      fun fields => ?_
    refine textual_peek.constructs_bind fun token => ?_
    exact constructs_locating token fun s hs hp => leads_addFields hs hid hp.1 hp.2

section
variable (hprops : legal → LegalProperties props) (doc : Option String)
include hprops doc

theorem constructs_recordDeclaration :
    Constructs legal base (fun _ => True) (recordDeclaration outer props doc) fun _ _ => True := by
  refine textual_next.constructs_bind fun keyword => ?_
  refine textual_peek.constructs_bind fun start => ?_
  refine Observes.constructs_bind (fun s _ _ => observes_header outer props) fun h => ?_
  refine (constructs_define start rfl (fun s hp hc => ?_) fun s hp hl => ?_).bind
    fun id c hc hp => ?_
  · exact ⟨hp.2.1 hc, nodup_nil, forall_mem_nil _⟩
  · exact .of_aliases (hp.2.2 (hprops hl)) rfl rfl
  · -- the record is one of those from `base` on and open, and its fields leave it open
    suffices hbody : Constructs legal base (·.Open id) (do
        expectPunct "\x7b"
        discard <| many (atPunct "\x7d") (recordField outer h id)
        expectPunct "\x7d") fun _ _ => True from hbody c hc (hp.2 _ rfl)
    refine (textual_expectPunct "\x7b").constructs_bind fun _ => ?_
    refine (constructs_many (textual_atPunct "\x7d")
      (constructs_recordField outer h hp.1)).discard.bind fun _ => ?_
    exact Observes.constructs fun _ _ _ => (textual_expectPunct "\x7d").observes

theorem constructs_enumDeclaration :
    Constructs legal base (fun _ => True) (enumDeclaration outer props doc) fun _ _ => True := by
  refine (textual_expectKeyword "enum").constructs_bind fun _ => ?_
  refine textual_peek.constructs_bind fun start => ?_
  refine Observes.constructs_bind (fun s _ _ => observes_header outer props) fun h => ?_
  refine (textual_expectPunct "\x7b").constructs_bind fun _ => ?_
  refine (textual_listUntil "\x7d" textual_simpleIdentifier).constructs_bind fun written => ?_
  refine (textual_expectPunct "\x7d").constructs_bind fun _ => ?_
  refine textual_enumDefault.constructs_bind fun default => ?_
  refine Observes.constructs_bind (Q := fun symbols s => s.registry.checksNames = true →
    symbols.Nodup ∧ ∀ t ∈ symbols, isLegalName t = true) (fun s _ _ => ?_) fun symbols => ?_
  · refine observes_locating start (steady_checkSymbols [] _).still fun symbols hy hc => ?_
    obtain ⟨-, texts, -, rfl, hnodup, -, hlegal⟩ := yields_checkSymbols.mp hy
    exact ⟨hnodup, hlegal hc⟩
  refine Observes.constructs_bind (Q := fun default _ => ∀ t ∈ default, t ∈ symbols)
    (fun s _ _ => ?_) fun default => ?_
  · refine observes_locating start (steady_checkEnumDefault symbols _).still fun default hy => ?_
    exact (yields_checkEnumDefault.mp hy).2.2
  refine (constructs_define start rfl (fun s hp hc => ?_) fun s hp hl => ?_).discard
  · exact ⟨hp.1.1.2.1 hc, (hp.1.2 hc).1, (hp.1.2 hc).2, hp.2⟩
  · exact .of_aliases (hp.1.1.2.2 (hprops hl)) rfl rfl

theorem constructs_fixedDeclaration :
    Constructs legal base (fun _ => True) (fixedDeclaration outer props doc) fun _ _ => True := by
  have hsplit : fixedDeclaration outer props doc = (do
      let r ← fixedHead outer props
      expectPunct ")"
      expectPunct ";"
      discard <| locating r.1 (define (r.2.1.definition doc (.fixed r.2.2)))) := by
    simp [fixedDeclaration, fixedHead]
  rw [hsplit]
  refine Observes.constructs_bind (fun s _ _ => observes_fixedHead outer props) fun r => ?_
  refine (textual_expectPunct ")").constructs_bind fun _ => ?_
  refine (textual_expectPunct ";").constructs_bind fun _ => ?_
  refine (constructs_define r.1 rfl (fun s hp hc => ?_) fun s hp hl => ?_).discard
  · exact ⟨hp.2.1.1 hc, trivial⟩
  · exact .of_aliases (hp.2.1.2 (hprops hl)) rfl (decide_eq_true (hp.2.2 hl))

end

/-! ### Messages -/

theorem nodup_insertMessage (m : Message) (h : (ms.map (·.name)).Nodup) :
    ((insertMessage m ms).map (·.name)).Nodup := by
  have hkeys : (((insertMessage m ms).map fun x => (x.name, x)).map (·.1)).Nodup := by
    rw [map_insertMessage]
    exact nodup_putKey (by rwa [map_map])
  rwa [map_map] at hkeys

theorem mem_foldl_insertMessage {m : Message} {new : List Message}
    (h : m ∈ new.foldl (fun ms m => insertMessage m ms) ms) : m ∈ new ∨ m ∈ ms := by
  induction new generalizing ms with
  | nil => exact .inr h
  | cons x new ih =>
    rcases ih h with h | h
    · exact .inl (mem_cons_of_mem _ h)
    · rcases mem_insertMessage h with rfl | h
      · exact .inl mem_cons_self
      · exact .inr h

/-- Sound messages join those of a cursor. -/
theorem constructs_insertMessages (new : List Message) :
    Constructs legal base (fun s => ∀ m ∈ new, Sound legal s m) (modify fun cursor =>
      { cursor with messages := new.foldl (fun ms m => insertMessage m ms) cursor.messages })
      fun _ _ => True := by
  refine fun c hc hp => ⟨⟨.refl hc.scope, fun m hm => ?_, fun hd => ?_, .refl _⟩,
    fun _ _ => trivial⟩
  · exact (mem_foldl_insertMessage hm).symm.imp_right (hp m)
  · exact List.foldlRecOn (motive := fun ms : List Message => (ms.map (·.name)).Nodup) new _ hd
      fun ms hms m _ => nodup_insertMessage m hms

theorem constructs_messageDeclaration (props : Members) (doc : Option String) :
    Constructs legal base (fun _ => True) (messageDeclaration outer props doc) fun _ _ => True := by
  refine textual_peek.constructs_bind fun start => ?_
  refine Observes.constructs_bind (fun s hs _ => observes_responseType hs outer) fun response => ?_
  refine textual_simpleIdentifier.constructs_bind fun name => ?_
  refine (textual_expectPunct "(").constructs_bind fun _ => ?_
  refine Observes.constructs_bind
    (fun s hs _ => observes_listUntil ")" (observes_parameter hs outer)) fun request => ?_
  refine (textual_expectPunct ")").constructs_bind fun _ => ?_
  refine Observes.constructs_bind (fun s hs _ => observes_messageEnd hs outer)
    fun ⟨oneWay, errors⟩ => ?_
  refine (textual_expectPunct ";").constructs_bind fun _ => ?_
  refine constructs_get_bind fun cursor => ?_
  split
  · exact constructs_failAt _ _
  · refine Observes.constructs_bind (Q := fun m s => Sound legal s m) (fun s _ hp => ?_)
      fun m c hc hp => constructs_insertMessages [m] c hc (forall_mem_singleton.mpr hp.2)
    refine observes_locating start (still_makeMessage _) fun m hm => ?_
    obtain rfl := eq_of_makeMessage hm
    exact ⟨⟨fun f hf => (hp.1.2 f hf).toStands, hp.1.1.2, hp.2⟩,
      fun hl f hf => (hp.1.2 f hf).ruled hl⟩

end

/-! ### Imports -/

/-- Importing a file that has not been read builds, and the messages of the file are sound. -/
def BuildsMessages (legal : Prop) (d : Disk) (importer : Importer) : Prop :=
  ∀ {base : Nat} {s : Session} (kind : ImportKind) (path : Path), s.scope.Orderly base →
    d.resolve path ∉ s.imported →
    Leads (Session.Builds legal base) s (fun ms s' => ∀ m ∈ ms, Sound legal s'.scope m)
      (outcome (importer kind path) s)

section
variable {d : Disk} {importer : Importer}

theorem leads_importOnce (himport : BuildsMessages legal d importer) (h : s.scope.Orderly base)
    (kind : ImportKind) (word : String) (target : Path) :
    Leads (Session.Builds legal base) s (fun ms s' => ∀ m ∈ ms, Sound legal s'.scope m)
      (outcome (importOnce d importer kind word target) s) := by
  rw [importOnce, outcome_get_bind]
  split
  · exact leads_pure (.refl h) (forall_mem_nil _)
  · rename_i hnew
    refine Leads.bind (Q := fun _ s₁ => s₁.imported = s.imported)
      ⟨⟨(Scope.Builds.refl h).report _, prefix_refl _, id⟩, fun _ _ => rfl⟩ fun _ s₁ h₁ he => ?_
    exact himport kind target h₁.scope.orderly (by simpa [he] using hnew)

theorem constructs_importOnce (himport : BuildsMessages legal d importer) (kind : ImportKind)
    (word : String) (target : Path) :
    Constructs legal base (fun _ => True) (onSession (importOnce d importer kind word target))
      fun ms s => ∀ m ∈ ms, Sound legal s m := by
  intro c hc _
  have h := leads_importOnce himport hc.scope kind word target
  exact ⟨⟨h.rel, fun _ hm => .inl hm, id, .refl _⟩, h.result⟩

theorem constructs_importDeclaration (himport : BuildsMessages legal d importer) :
    Constructs legal base (fun _ => True) (importDeclaration d importer) fun _ _ => True := by
  refine (textual_expectKeyword "import").constructs_bind fun _ => ?_
  refine textual_next.constructs_bind fun token => ?_
  split
  · exact constructs_failAt _ _
  · rename_i kind _
    refine textual_stringLiteral.constructs_bind fun location => ?_
    refine (textual_expectPunct ";").constructs_bind fun _ => ?_
    refine constructs_get_bind fun cursor => ?_
    exact (constructs_importOnce himport kind _ _).bind constructs_insertMessages

/-! ### Files -/

section
variable (himport : BuildsMessages legal d importer)
include himport

/-- **Every declaration of a protocol builds.** -/
theorem constructs_protocolMember (outer : Option String) :
    Constructs legal base (fun _ => True) (protocolMember d importer outer) fun _ _ => True := by
  refine textual_peek.constructs_bind fun first => ?_
  split
  · exact constructs_failHere _
  split
  · exact constructs_importDeclaration himport
  refine Observes.constructs_bind (fun _ _ _ => observes_properties) fun props c hc hp => ?_
  suffices hmember : Constructs legal base (fun _ => True) _ fun _ _ => True from
    hmember c hc trivial
  refine textual_peek.constructs_bind fun token => ?_
  split
  · exact constructs_recordDeclaration outer hp.2 _
  split
  · exact constructs_enumDeclaration outer hp.2 _
  split
  · exact constructs_fixedDeclaration outer hp.2 _
  · exact constructs_messageDeclaration outer props _

theorem constructs_protocolBody (outer : Option String) :
    Constructs legal base (fun _ => True) (protocolBody d importer outer) fun _ _ => True := by
  refine (textual_expectPunct "\x7b").constructs_bind fun _ => ?_
  refine (constructs_many (textual_atPunct "\x7d")
    (constructs_protocolMember himport outer)).discard.bind fun _ => ?_
  refine (textual_expectPunct "\x7d").constructs_bind fun _ => ?_
  refine textual_peek.constructs_bind fun token => ?_
  split
  · exact constructs_failHere _
  · exact constructs_pure fun _ _ => trivial

/-- The protocol of a file has all types of the registry and the messages of the cursor. -/
theorem leads_protocolDeclaration (h : c.Orderly legal base) :
    Leads (Cursor.Builds legal base) c
      (fun p c' => p.types = c'.session.scope.registry.types ∧ p.messages = c'.messages)
      (outcome (protocolDeclaration d importer) c) := by
  have htextual : ∀ {α : Type} {x : Parsing α} {c : Cursor}, Textual x → c.Orderly legal base →
      Leads (Cursor.Builds legal base) c (fun _ c' => c'.Orderly legal base) (outcome x c) :=
    fun hx hc => ⟨(hx.state _).builds hc.scope, fun _ _ =>
      ((hx.state _).builds hc.scope).orderly hc⟩
  refine (htextual textual_peek h).bind fun first c₁ _ h₁ => ?_
  refine (htextual textual_properties h₁).bind fun props c₂ _ h₂ => ?_
  refine (htextual (textual_expectKeyword "protocol") h₂).bind fun _ c₃ _ h₃ => ?_
  refine (htextual textual_identifier h₃).bind fun written c₄ _ h₄ => ?_
  refine (Observes.constructs (P := fun _ => True)
    (fun _ _ _ => observes_declaredSpace written _) c₄ h₄ trivial).bind fun space c₅ h₅ _ => ?_
  refine (constructs_protocolBody himport space c₅ (h₅.orderly h₄) trivial).bind
    fun _ c₆ h₆ _ => ?_
  refine still_get.leads_bind (.refl h₆.scope.orderly) fun _ hget => ?_
  obtain ⟨rfl, -⟩ := yields_get.mp hget
  exact leads_pure (.refl h₆.scope.orderly) ⟨rfl, rfl⟩

end

/-- The protocol stands, and its messages keep the rules if what is written is `legal`. -/
def SoundProtocol (legal : Prop) (s : Scope) (p : Protocol) : Prop :=
  p.Stands s ∧ (legal → ∀ m ∈ p.messages, m.Ruled)

theorem leads_loadWith (himport : BuildsMessages legal d importer) (h : s.scope.Orderly base)
    (path : Option Path) (htext : legal → textIsLegal text = true) :
    Leads (Session.Builds legal base) s (fun p s' => SoundProtocol legal s'.scope p)
      (outcome (loadWith d importer path text) s) := by
  obtain ⟨hfail, hrun⟩ := outcome_loadWith d importer path text s
  cases ht : tokenize path text with
  | error e =>
    rw [hfail e ht]
    exact ⟨.refl h, fun _ hp => nomatch hp⟩
  | ok tokens =>
    rw [hrun tokens ht]
    have hp := leads_protocolDeclaration (d := d) (c := ⟨s, path, tokens, []⟩) himport
      ⟨h, fun hl => legal_of_tokenize (htext hl) ht⟩
    refine ⟨hp.rel.session, fun p hres => ?_⟩
    obtain ⟨htypes, hmessages⟩ := hp.result p hres
    -- the cursor starts without messages
    have hsound := fun m hm => (hp.rel.messages m (hmessages ▸ hm)).resolve_left not_mem_nil
    exact ⟨⟨fun id hid => hp.rel.scope.orderly.stands (htypes ▸ hid), fun m hm => (hsound m hm).1⟩,
      fun hl m hm => (hsound m hm).2 hl⟩

theorem leads_inFile {s : Scope} {x : Reading α}
    (hx : Leads (Scope.Builds legal base) s Q (outcome x s)) :
    Leads (Scope.Builds legal base) s Q (outcome (inFile path x) s) :=
  leads_tryCatch hx fun _ _ h₁ => leads_throw (.refl h₁.orderly) _

theorem leads_readSchemaFile {s : Scope} (h : s.Orderly base) (path : Path) :
    Leads (Scope.Builds True base) s (fun t s' => t.Stands s')
      (outcome (readSchemaFile d path) s) :=
  (still_liftM _).leads_bind (.refl h) fun text _ => leads_inFile (leads_readSchemaText h text)

/-- A step of reading on the scope of a session. -/
theorem leads_onScope {x : Reading α}
    (hx : Leads (Scope.Builds legal base) s.scope Q (outcome x s.scope)) :
    Leads (Session.Builds legal base) s (fun a s' => Q a s'.scope) (outcome (onScope x) s) :=
  ⟨⟨hx.rel, prefix_refl _, id⟩, hx.result⟩

theorem outcome_importText (path : Path) (s : Session) : outcome (importText d path) s =
    (d.readSource path, { s with imported := s.imported ++ [d.resolve path] }) := by
  have hread := outcome_liftM (d.readSource path)
    { s with imported := s.imported ++ [d.resolve path] }
  exact hread

theorem leads_importText (h : s.scope.Orderly base) (hnew : d.resolve path ∉ s.imported) :
    Leads (Session.Builds legal base) s (fun text _ => d.readSource path = .ok text)
      (outcome (importText d path) s) := by
  rw [outcome_importText]
  refine ⟨⟨.refl h, prefix_append _ _, fun hs => ?_⟩, fun _ htext => htext⟩
  have hfresh : ∀ x ∈ s.imported, x ≠ d.resolve path := fun x hx he => hnew (he ▸ hx)
  simpa [nodup_append, hs] using hfresh

/-- **Importing a file builds**, if its own imports do. -/
theorem buildsMessages_importWith (hd : legal → FilesAreLegal d)
    (himport : BuildsMessages legal d importer) :
    BuildsMessages legal d (importWith d importer) := by
  intro base s kind path h hnew
  refine (leads_importText h hnew).bind fun text s₁ h₁ htext => ?_
  cases kind with
  | protocol =>
    refine (leads_onScope (leads_inFile (leads_readProtocolText h₁.scope.orderly text))).bind
      fun _ _ h₂ hp => leads_pure (.refl h₂.scope.orderly) fun m hm =>
        ⟨hp.1.messages m hm, fun hl => hp.2 hl m hm⟩
  | schema =>
    refine (leads_onScope (leads_inFile (leads_readSchemaText h₁.scope.orderly text))).discard.bind
      fun _ _ h₂ _ => leads_pure (.refl h₂.scope.orderly) (forall_mem_nil _)
  | idl =>
    exact (leads_loadWith himport h₁.scope.orderly (some path) fun hl => hd hl path text htext).bind
      fun _ _ h₂ hp => leads_pure (.refl h₂.scope.orderly) fun m hm =>
        ⟨hp.1.messages m hm, fun hl => hp.2 hl m hm⟩

theorem buildsMessages_importFile (hd : legal → FilesAreLegal d) (depth : Nat) :
    BuildsMessages legal d (importFile d depth) := by
  induction depth with
  | zero => exact fun _ _ h _ => leads_pure (.refl h) (forall_mem_nil _)
  | succ depth ih => exact buildsMessages_importWith hd ih

/-- The protocol of a file has all types of the registry, and messages with different names. -/
theorem parts_of_readIdl {s s' : Scope} (h : s.Orderly base) {path : Option Path} {p : Protocol}
    (hp : Yields (readIdl d path text) s p s') :
    p.types = s'.registry.types ∧ (p.messages.map (·.name)).Nodup := by
  let start : Session := ⟨s, path.toList.map d.resolve⟩
  obtain ⟨hfail, hrun⟩ := outcome_loadWith d (importFile d (d.fileCount + 1)) path text start
  have hload : (outcome (load d path text) start).1 = .ok p ∧
      (outcome (load d path text) start).2.scope = s' :=
    ⟨congrArg Prod.fst hp, congrArg Prod.snd hp⟩
  cases ht : tokenize path text with
  | error e =>
    rw [load, hfail e ht] at hload
    cases hload.1
  | ok tokens =>
    rw [load, hrun tokens ht] at hload
    have hleads := leads_protocolDeclaration (d := d) (c := ⟨start, path, tokens, []⟩)
      (buildsMessages_importFile (False.elim ·) (d.fileCount + 1)) ⟨h, False.elim⟩
    obtain ⟨htypes, hmessages⟩ := hleads.result p hload.1
    refine ⟨?_, hmessages ▸ hleads.rel.distinct nodup_nil⟩
    rw [htypes]
    exact congrArg (·.registry.types) hload.2

/-- **Reading a file with its imports builds, and the protocol stands.** -/
theorem leads_readIdl {s : Scope} (h : s.Orderly base) (hd : legal → FilesAreLegal d)
    (path : Option Path) (htext : legal → textIsLegal text = true) :
    Leads (Scope.Builds legal base) s (fun p s' => SoundProtocol legal s' p)
      (outcome (readIdl d path text) s) := by
  have hload := leads_loadWith (s := ⟨s, path.toList.map d.resolve⟩)
    (buildsMessages_importFile hd (d.fileCount + 1)) h path htext
  exact ⟨hload.rel.scope, hload.result⟩

end

end Avroc.Idl
