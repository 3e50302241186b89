import Avroc.Proofs.Idl.Building

/-!
# Registries are closed

Documents of all three kinds are read one after the other in one registry, with names checked.
Some are refused, and a refused document may leave a record without its last fields behind, which
later documents can use.  Whatever is read, no type leads out of the registry: all that its types
and the results reach is in the registry, and keeps the rules.

* `ParseCall.wellFormed_runAll` : **a registry that starts empty stays closed and well formed.**
-/

namespace Avroc

open List

variable {s : Scope} {base : Nat} {r : Parsed}

/-! ### Reading document after document -/

/-- A document to be read. -/
inductive ParseCall
  | schema (text : String)
  | protocol (text : String)
  | idl (disk : Disk) (path : Option Path) (text : String)

/-- What reading a document returns. -/
inductive Parsed
  | schema (type : Schema)
  | protocol (protocol : Protocol)

namespace ParseCall

/-- Reads the document. -/
def run : ParseCall → Reading Parsed
  | schema text => return .schema (← readSchemaText text)
  | protocol text => return .protocol (← readProtocolText text)
  | idl disk path text => return .protocol (← Idl.readIdl disk path text)

/-- Reads documents one after the other, whether they are refused or not: the results and the state
at the end. -/
def runAll : List ParseCall → Scope → List (Except Error Parsed) × Scope
  | [], s => ([], s)
  | call :: rest, s =>
    let first := outcome call.run s
    let others := runAll rest first.2
    (first.1 :: others.1, others.2)

end ParseCall

/-! ### What types lead to -/

/-- What a type that stands reaches stands as well. -/
theorem Schema.Stands.of_reaches (hs : s.Lawful) {t u : Schema} (h : t.Reaches s.catalog u)
    (ht : t.Stands s) : u.Stands s := by
  induction h with
  | refl => exact ht
  | items _ ih =>
    cases ht with
    | array _ hi => exact ih hi
  | values _ ih =>
    cases ht with
    | map _ hv => exact ih hv
  | branch hb _ ih =>
    cases ht with
    | union hts _ _ => exact ih (hts _ hb)
  | field hf _ ih =>
    cases ht with
    | named _ hget =>
      exact ih ((hs _ (mem_map_of_mem (Registry.mem_of_get? hget))).2 _ hf)

namespace Parsed

/-- The parameters of the messages that have been read. -/
def parameters : Parsed → List Field
  | schema _ => []
  | protocol p => p.messages.flatMap (·.request)

/-- The types that have been read: the type itself, or those of a protocol and of its messages. -/
def types : Parsed → List Schema
  | schema t => [t]
  | protocol p => p.types.map .named ++
      p.messages.flatMap fun m => m.request.map (·.type) ++ m.response :: m.errors.map .named

/-- All that has been read stands. -/
def Stands (s : Scope) : Parsed → Prop
  | schema t => t.Stands s
  | protocol p => p.Stands s

variable {s' : Scope}

theorem Stands.mono (h : s.Grows s') (hr : r.Stands s) : r.Stands s' := by
  cases r with
  | schema t => exact Schema.Stands.mono h hr
  | protocol p => exact Protocol.Stands.mono h hr

theorem Stands.types (hr : r.Stands s) : ∀ t ∈ r.types, t.Stands s := by
  cases r with
  | schema t => exact forall_mem_singleton.mpr hr
  | protocol p =>
    refine forall_mem_append.mpr ⟨forall_mem_map.mpr hr.types, fun t ht => ?_⟩
    obtain ⟨m, hm, ht⟩ := mem_flatMap.mp ht
    have hstands := hr.messages m hm
    rcases mem_append.mp ht with ht | ht
    · obtain ⟨f, hf, rfl⟩ := mem_map.mp ht
      exact (hstands.request f hf).type
    · rcases mem_cons.mp ht with rfl | ht
      · exact hstands.response
      · obtain ⟨id, hid, rfl⟩ := mem_map.mp ht
        exact hstands.errors id hid

theorem Stands.parameters (hr : r.Stands s) : ∀ f ∈ r.parameters, f.Stands s := by
  cases r with
  | schema t => exact forall_mem_nil _
  | protocol p =>
    intro f hf
    obtain ⟨m, hm, hf⟩ := mem_flatMap.mp hf
    exact (hr.messages m hm).request f hf

end Parsed

/-! ### Closed registries -/

/-- The registry is closed and keeps the rules, together with what has been read in it. -/
structure Scope.WellFormed (s : Scope) (read : List Parsed) : Prop where
  /-- A named type that is reached is the one of the registry by its full name. -/
  closed : ∀ root ∈ s.registry.types.map .named ++ read.flatMap Parsed.types, ∀ id,
    root.Reaches s.catalog (.named id) → s.registry.get? (s.catalog.fullName id) = some id
  /-- A union that is reached has no union and no two branches of one key among its branches. -/
  unions : ∀ root ∈ s.registry.types.map .named ++ read.flatMap Parsed.types, ∀ branches,
    root.Reaches s.catalog (.union branches) →
      (∀ t ∈ branches, t.isUnion = false) ∧ (branches.map (·.branchKey s.catalog)).Nodup
  /-- The types of the registry have legal names, records have distinct fields with legal names, and
  enums have distinct symbols with legal names and their default among them. -/
  lawful : ∀ id ∈ s.registry.types, (s.catalog.definition id).Lawful
  /-- The parameters of messages have legal names. -/
  parameters : ∀ f ∈ read.flatMap Parsed.parameters, isLegalName f.name = true

theorem Scope.Lawful.wellFormed (hs : s.Lawful) (h : s.Orderly base)
    (hc : s.registry.checksNames = true) {read : List Parsed} (hread : ∀ r ∈ read, r.Stands s) :
    s.WellFormed read := by
  have hroot : ∀ root ∈ s.registry.types.map .named ++ read.flatMap Parsed.types,
      root.Stands s := by
    refine forall_mem_append.mpr ⟨forall_mem_map.mpr fun id hid => h.stands hid, ?_⟩
    intro t ht
    obtain ⟨r, hr, ht⟩ := mem_flatMap.mp ht
    exact (hread r hr).types t ht
  refine ⟨fun root hm id hr => ?_, fun root hm branches hr => ?_, fun id hid => (hs id hid).1,
    fun f hf => ?_⟩
  · cases (hroot root hm).of_reaches hs hr with
    | named _ hget => exact hget
  · cases (hroot root hm).of_reaches hs hr with
    | union _ hu hkeys => exact ⟨hu, hkeys⟩
  · obtain ⟨r, hr, hf⟩ := mem_flatMap.mp hf
    exact ((hread r hr).parameters f hf).name hc

/-- The attributes are legal that are written in the text and in the files that it may import; a
document in JSON may be any. -/
def ParseCall.WritesLegally : ParseCall → Prop
  | .schema _ => True
  | .protocol _ => True
  | .idl disk _ text => Idl.textIsLegal text = true ∧ Idl.FilesAreLegal disk

/-- The parameters of the messages keep the rules. -/
def Parsed.Ruled : Parsed → Prop
  | .schema _ => True
  | .protocol p => ∀ m ∈ p.messages, m.Ruled

namespace ParseCall

variable {legal : Prop}

/-- Reading a document builds, and what is read stands; it keeps the rules if what is written is
`legal`. -/
theorem leads_legal (h : s.Orderly base) {call : ParseCall} (hcall : legal → call.WritesLegally) :
    Leads (Scope.Builds legal base) s (fun r s' => r.Stands s' ∧ (legal → r.Ruled))
      (outcome call.run s) := by
  cases call with
  | schema text =>
    exact (leads_readSchemaText h text).bind fun _ _ h₁ ht =>
      leads_pure (.refl h₁.orderly) ⟨ht, fun _ => trivial⟩
  | protocol text =>
    exact (leads_readProtocolText h text).bind fun _ _ h₁ hp => leads_pure (.refl h₁.orderly) hp
  | idl disk path text =>
    exact (Idl.leads_readIdl h (hcall · |>.2) path (hcall · |>.1)).bind fun _ _ h₁ hp =>
      leads_pure (.refl h₁.orderly) hp

theorem leads_run (h : s.Orderly base) (call : ParseCall) :
    Leads (Scope.Builds False base) s (fun r s' => r.Stands s') (outcome call.run s) :=
  (leads_legal h False.elim).imp fun _ _ _ hr => hr.1

/-- Reading any number of documents builds, and all that is read stands at the end; it keeps the
rules if all that is written is `legal`. -/
theorem leads_legals (h : s.Orderly base) {calls : List ParseCall}
    (hcalls : legal → ∀ call ∈ calls, call.WritesLegally) :
    Scope.Builds legal base s (runAll calls s).2 ∧
      ∀ r, .ok r ∈ (runAll calls s).1 → r.Stands (runAll calls s).2 ∧ (legal → r.Ruled) := by
  induction calls generalizing s with
  | nil => exact ⟨.refl h, fun r hr => absurd hr not_mem_nil⟩
  | cons call calls ih =>
    have hfirst := leads_legal h fun hl => hcalls hl call mem_cons_self
    obtain ⟨hbuilds, hstands⟩ :=
      ih hfirst.rel.orderly fun hl call hm => hcalls hl call (mem_cons_of_mem _ hm)
    refine ⟨hfirst.rel.trans hbuilds, fun r hr => ?_⟩
    rcases mem_cons.mp hr with hr | hr
    · have hr := hfirst.result r hr.symm
      exact ⟨hr.1.mono hbuilds.grows, hr.2⟩
    · exact hstands r hr

theorem builds_runAll (h : s.Orderly base) (calls : List ParseCall) :
    Scope.Builds False base s (runAll calls s).2 ∧
      ∀ r, .ok r ∈ (runAll calls s).1 → r.Stands (runAll calls s).2 :=
  (leads_legals h False.elim).imp_right fun hstands r hr => (hstands r hr).1

theorem lawful_runAll (hempty : s.registry.entries = []) (hc : s.registry.checksNames = true)
    (calls : List ParseCall) :
    (runAll calls s).2.Lawful := by
  refine (builds_runAll (Scope.orderly_of_empty hempty) calls).1.lawful hc fun id hid => ?_
  rw [Registry.types, hempty] at hid
  cases hid

/-- What has been read, without the refusals. -/
def successes (results : List (Except Error Parsed)) : List Parsed :=
  results.filterMap Except.toOption

theorem mem_successes {results : List (Except Error Parsed)} (h : r ∈ successes results) :
    .ok r ∈ results := by
  obtain ⟨result, hm, hr⟩ := mem_filterMap.mp h
  cases result with
  | error e => cases hr
  | ok r' => exact Option.some.inj hr ▸ hm

/-- **A registry that starts empty stays closed and well formed**, whatever documents are read in
it and whether they are refused or not. -/
theorem wellFormed_runAll (s : Scope) (hempty : s.registry.entries = [])
    (hc : s.registry.checksNames = true) (calls : List ParseCall) :
    (runAll calls s).2.WellFormed (successes (runAll calls s).1) := by
  obtain ⟨hbuilds, hstands⟩ := builds_runAll (Scope.orderly_of_empty hempty) calls
  exact (lawful_runAll hempty hc calls).wellFormed hbuilds.orderly
    (hbuilds.grows.checksNames.trans hc) fun r hr => hstands r (mem_successes hr)

/-- A record that is refused at its second field, a record with a field of what is left of it, and
a protocol that uses both. -/
def leftover : List ParseCall :=
  [.schema ("\x7b\"type\":\"record\",\"name\":\"A\",\"fields\":[" ++
      "\x7b\"name\":\"x\",\"type\":\"int\"\x7d,\x7b\"name\":\"y\",\"type\":\"B\"\x7d]\x7d"),
    .schema ("\x7b\"type\":\"record\",\"name\":\"C\",\"fields\":[" ++
      "\x7b\"name\":\"a\",\"type\":\"A\"\x7d]\x7d"),
    .idl ⟨.directory [] 0, [], 0, []⟩ none
      "protocol P \x7b record D \x7b union \x7bnull, A\x7d a; \x7d C f(D d); \x7d"]

theorem wellFormed_leftover :
    let s := Scope.initial true true
    (s.registry.entries = [] ∧ s.registry.checksNames = true) ∧
      ((runAll leftover s).1.map (·.isOk) = [false, true, true] ∧
        (runAll leftover s).2.registry.names = ["A", "C", "D"] ∧
        ((runAll leftover s).2.catalog.definition ⟨0⟩).body.fields.map (·.name) = ["x"]) ∧
      (runAll leftover s).2.WellFormed (successes (runAll leftover s).1) :=
  ⟨⟨rfl, rfl⟩, by decide +kernel, wellFormed_runAll _ rfl rfl leftover⟩

end ParseCall

end Avroc
