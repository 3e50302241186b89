import Avroc.Proofs.Json.Distinct
import Avroc.Proofs.Schema.Building
import Avroc.Protocol.Reader

/-!
# What reading a protocol builds

The types of a protocol and those of its messages stand on the names that are known once the
protocol has been read.

* `leads_readProtocolText` : **reading a protocol builds, and the protocol stands.**
-/

namespace Avroc

open List

variable {m : Message} {p : Protocol} {id : TypeId} {space : Space} {v : Json}

/-- The parameters, the answer and the errors of the message stand. -/
structure Message.Stands (s : Scope) (m : Message) : Prop where
  request : ∀ f ∈ m.request, f.Stands s
  response : m.response.Stands s
  errors : ∀ id ∈ m.errors, (Schema.named id).Stands s

/-- The types and the messages of the protocol stand. -/
structure Protocol.Stands (s : Scope) (p : Protocol) : Prop where
  types : ∀ id ∈ p.types, (Schema.named id).Stands s
  messages : ∀ m ∈ p.messages, m.Stands s

section
variable {legal : Prop} {base : Nat} {s s' : Scope}

theorem Message.Stands.mono (h : s.Grows s') (hm : m.Stands s) : m.Stands s' where
  request f hf := (hm.request f hf).mono h
  response := hm.response.mono h
  errors id hid := (hm.errors id hid).mono h

theorem Protocol.Stands.mono (h : s.Grows s') (hp : p.Stands s) : p.Stands s' where
  types id hid := (hp.types id hid).mono h
  messages m hm := (hp.messages m hm).mono h

/-- The types of a registry stand. -/
theorem Scope.Orderly.stands (h : s.Orderly base) (hid : id ∈ s.registry.types) :
    (Schema.named id).Stands s :=
  .named (h.keyed.get?_fullName hid).1 (h.keyed.get?_fullName hid).2

theorem Registry.mem_types_of_newTypes {r : Registry} {before : List String}
    (h : id ∈ r.newTypes before) : id ∈ r.types := by
  obtain ⟨e, he, rfl⟩ := mem_map.mp h
  exact mem_map_of_mem (mem_filter.mp he).1

theorem still_makeMessage (m : Message) : Still (makeMessage m) := by
  unfold makeMessage
  split
  · exact still_refuse _
  · exact still_pure _

theorem eq_of_makeMessage {n : Message} (h : Yields (makeMessage m) s n s') : n = m := by
  unfold makeMessage at h
  split at h
  · cases h
  · exact (yields_pure.mp h).1

theorem leads_readTypes (h : s.Orderly base) (space : Space) (items : List Json) :
    Leads (Scope.Builds legal base) s (fun _ _ => True) (outcome (readTypes space items) s) := by
  induction items generalizing s with
  | nil => exact leads_pure (.refl h) trivial
  | cons v items ih =>
    refine (leads_readSchema h v space).bind fun t s₁ h₁ _ => ?_
    split
    · exact ih h₁.orderly
    · exact (still_documentNow _).leads_bind (.refl h₁.orderly) fun _ _ => leads_refuse _ h₁.orderly

theorem leads_readErrors (h : s.Orderly base) (space : Space) (items : List Json) :
    Leads (Scope.Builds legal base) s (fun ids s' => ∀ id ∈ ids, (Schema.named id).Stands s')
      (outcome (readErrors space items) s) := by
  induction items generalizing s with
  | nil => exact leads_pure (.refl h) (forall_mem_nil _)
  | cons v items ih =>
    refine (leads_readSchema h v space).bind fun t s₁ h₁ ht => ?_
    refine (still_checkErrorType t).leads_bind (.refl h₁.orderly) fun id hid => ?_
    refine (ih h₁.orderly).bind fun ids s₂ h₂ hids => ?_
    refine leads_pure (.refl h₂.orderly) (forall_mem_cons.mpr ⟨?_, hids⟩)
    exact (stands_of_checkErrorType ht hid).mono h₂.grows

theorem leads_readRequest (h : s.Orderly base) (space : Space) (items : List Json) :
    Leads (Scope.Builds legal base) s (fun fs s' => ∀ f ∈ fs, f.Stands s' ∧ (legal → f.Ruled))
      (outcome (readRequest space items) s) := by
  induction items generalizing s with
  | nil => exact leads_pure (.refl h) (forall_mem_nil _)
  | cons v items ih =>
    refine (leads_readField h v space).bind fun f s₁ h₁ hf => ?_
    refine (ih h₁.orderly).bind fun fs s₂ h₂ hfs => ?_
    exact leads_pure (.refl h₂.orderly) (forall_mem_cons.mpr ⟨⟨hf.mono h₂.grows, hf.ruled⟩, hfs⟩)

theorem still_errorList (ms : Members) : Still (errorList ms) := by
  unfold errorList
  split
  · exact still_pure _
  · split
    · exact still_pure _
    · exact still_throw _

theorem leads_readMessage (h : s.Orderly base) (space : Space) (name : String) (v : Json) :
    Leads (Scope.Builds legal base) s (fun m s' => m.Stands s' ∧ (legal → m.Ruled))
      (outcome (readMessage space name v) s) := by
  cases v with
  | object ms =>
    rw [readMessage, readMessageObject]
    split
    · refine (still_errorList ms).leads_bind (.refl h) fun items _ => ?_
      refine (leads_readErrors h space items).bind fun errors s₁ h₁ herrors => ?_
      refine (leads_readRequest h₁.orderly space _).bind fun request s₂ h₂ hrequest => ?_
      refine (leads_readSchema h₂.orderly _ space).bind fun response s₃ h₃ hresponse => ?_
      refine (still_makeMessage _).leads (.refl h₃.orderly) fun m hm => ?_
      obtain rfl := eq_of_makeMessage hm
      refine ⟨⟨fun f hf => (hrequest f hf).1.mono h₃.grows, hresponse, fun id hid => ?_⟩,
        fun hl f hf => (hrequest f hf).2 hl⟩
      exact ((herrors id hid).mono h₂.grows).mono h₃.grows
    · exact leads_refuse _ h
    · exact leads_refuse _ h
  | _ => exact leads_refuse _ h

theorem leads_readMessages (h : s.Orderly base) (space : Space) (ms : Members) :
    Leads (Scope.Builds legal base) s
      (fun messages s' => ∀ m ∈ messages, m.Stands s' ∧ (legal → m.Ruled))
      (outcome (readMessages space ms) s) := by
  induction ms generalizing s with
  | nil => exact leads_pure (.refl h) (forall_mem_nil _)
  | cons m ms ih =>
    refine (leads_readMessage h space m.1 m.2).bind fun message s₁ h₁ hm => ?_
    refine (ih h₁.orderly).bind fun messages s₂ h₂ hms => ?_
    exact leads_pure (.refl h₂.orderly) (forall_mem_cons.mpr ⟨⟨hm.1.mono h₂.grows, hm.2⟩, hms⟩)

theorem leads_readProtocol (h : s.Orderly base) (v : Json) :
    Leads (Scope.Builds legal base) s
      (fun p s' => p.Stands s' ∧ (legal → ∀ m ∈ p.messages, m.Ruled))
      (outcome (readProtocol v) s) := by
  cases v with
  | object ms =>
    rw [readProtocol, readProtocolObject]
    split
    · split
      · exact leads_refuse _ h
      · dsimp only
        split
        · refine still_get.leads_bind (.refl h) fun before _ => ?_
          refine (leads_readTypes h _ _).bind fun _ s₁ h₁ _ => ?_
          split
          · refine (leads_readMessages h₁.orderly _ _).bind fun messages s₂ h₂ hms => ?_
            refine still_get.leads_bind (.refl h₂.orderly) fun s' hs' => ?_
            obtain ⟨rfl, -⟩ := yields_get.mp hs'
            refine leads_pure (.refl h₂.orderly) ⟨⟨fun id hid => ?_, fun m hm => (hms m hm).1⟩,
              fun hl m hm => (hms m hm).2 hl⟩
            exact h₂.orderly.stands (Registry.mem_types_of_newTypes hid)
          · exact leads_refuse _ h₁.orderly
        · exact leads_refuse _ h
    · exact leads_refuse _ h
  | _ => exact leads_refuse _ h

/-- The parts that a message has been read from. -/
theorem exists_of_readMessage {name : String} (h : Yields (readMessage space name v) s m s') :
    m.name = name ∧ (m.oneWay = true → m.response.isNull = true ∧ m.errors = []) ∧
      m.props.Avoids messageAttributes ∧ ∃ errors request response s₁ s₂,
        Yields (readErrors space errors) s m.errors s₁ ∧
        Yields (readRequest space request) s₁ m.request s₂ ∧
        Yields (readSchema response space) s₂ m.response s' := by
  cases v with
  | object ms =>
    rw [readMessage, readMessageObject] at h
    split at h
    · simp only [yields_bind] at h
      obtain ⟨vs, s₀, hlist, errors, s₁, herr, request, s₂, hreq, response, s₃, hresp, h⟩ := h
      obtain rfl := (still_errorList ms).state_eq hlist
      obtain rfl := (still_makeMessage _).state_eq h
      obtain rfl := eq_of_makeMessage h
      refine ⟨rfl, ?_, Members.avoids_without _ _, vs, _, _, s₁, s₂, herr, hreq, hresp⟩
      unfold makeMessage at h
      split at h
      · cases h
      · rename_i hrule
        simpa using hrule
    · cases h
    · cases h
  | _ => cases h

theorem names_of_readMessages {ms : Members} {messages : List Message}
    (h : Yields (readMessages space ms) s messages s') :
    messages.map (·.name) = ms.map (·.1) := by
  induction ms generalizing s s' messages with
  | nil =>
    rw [(yields_pure.mp h).1]
    rfl
  | cons m ms ih =>
    obtain ⟨message, s₁, h₁, h⟩ := yields_bind.mp h
    obtain ⟨rest, s₂, h₂, h⟩ := yields_bind.mp h
    rw [(yields_pure.mp h).1, map_cons, map_cons, (exists_of_readMessage h₁).1, ih h₂]

/-- The parts that a protocol has been read from. -/
theorem exists_of_readProtocol (h : Yields (readProtocol v) s p s') :
    p.types = s'.registry.newTypes s.registry.names ∧ p.props.Avoids protocolAttributes ∧
      (∃ written value, protocolName written value = (p.name, p.space)) ∧
      ∃ ms types messages s₁, v = .object ms ∧ Yields (readTypes p.space types) s () s₁ ∧
        (Members.get? ms "messages").getD (.object []) = .object messages ∧
        Yields (readMessages p.space messages) s₁ p.messages s' := by
  cases v with
  | object ms =>
    rw [readProtocol, readProtocolObject] at h
    split at h
    · split at h
      · cases h
      · dsimp only at h
        split at h
        · rw [yields_get_bind] at h
          obtain ⟨_, s₁, htypes, h⟩ := yields_bind.mp h
          split at h
          · obtain ⟨messages, s₂, hread, h⟩ := yields_bind.mp h
            rw [yields_get_bind] at h
            obtain ⟨rfl, rfl⟩ := yields_pure.mp h
            exact ⟨rfl, Members.avoids_without _ _, ⟨_, _, rfl⟩, ms, _, _, s₁, rfl, htypes, ‹_›,
              hread⟩
          · cases h
        · cases h
    · cases h
  | _ => cases h

/-- The types of a protocol are those that are new once it has been read, and its messages have
different names. -/
theorem parts_of_readProtocol (h : Yields (readProtocol v) s p s') :
    p.types = s'.registry.newTypes s.registry.names ∧
      (v.Distinct → (p.messages.map (·.name)).Nodup) := by
  obtain ⟨htypes, -, -, ms, _, messages, _, rfl, -, hmembers, hread⟩ := exists_of_readProtocol h
  refine ⟨htypes, fun hdistinct => ?_⟩
  rw [names_of_readMessages hread]
  cases hdistinct with
  | object _ hparts =>
    cases hget : Members.get? ms "messages" with
    | none =>
      rw [hget] at hmembers
      cases hmembers
      exact nodup_nil
    | some v =>
      rw [hget] at hmembers
      cases hmembers
      cases hparts _ (Members.mem_of_get? hget) with
      | object hkeys _ => exact hkeys

/-- **Reading a protocol builds, and the protocol stands.** -/
theorem leads_readProtocolText (h : s.Orderly base) (text : String) :
    Leads (Scope.Builds legal base) s
      (fun p s' => p.Stands s' ∧ (legal → ∀ m ∈ p.messages, m.Ruled))
      (outcome (readProtocolText text) s) :=
  (still_liftM _).leads_bind (.refl h) fun v _ => leads_readProtocol h v

theorem parts_of_readProtocolText {text : String} (h : Yields (readProtocolText text) s p s') :
    p.types = s'.registry.newTypes s.registry.names ∧ (p.messages.map (·.name)).Nodup := by
  obtain ⟨v, s₁, hv, hread⟩ := yields_bind.mp h
  obtain rfl := (still_liftM _).state_eq hv
  have hload : loadJson text = .ok v := by
    rw [Yields, outcome_liftM] at hv
    exact congrArg Prod.fst hv
  have hdistinct : v.Distinct := by
    unfold loadJson at hload
    split at hload
    · cases hload
      exact Json.distinct_of_parse ‹_›
    · cases hload
    · cases hload
  exact (parts_of_readProtocol hread).imp_right (· hdistinct)

end

end Avroc
