import Avroc.Proofs.Batch.Known
import Avroc.Proofs.Registry.Closure
import Avroc.Proofs.Schema.Agree
import Avroc.Proofs.Schema.Document

/-!
# Registries do not disturb each other

Registries share types: a copy of a registry has the same types as the registry, and types of one
can be entered in another.  Reading completes records in place, but only those that it has entered
itself, so that no type that existed before a step is changed by it.

* `Pool.isolated` : **a step changes no registry but its own, and no type at all.**
-/

namespace Avroc

open List

variable {p p' : Pool} {r : Registry} {id : RegistryId} {c : Catalog}

/-! ### Catalogs that are kept -/

/-- The second catalog has all definitions of the first one, as they were. -/
structure Catalog.KeptIn (c c' : Catalog) : Prop where
  size : c.size ≤ c'.size
  definition : ∀ id, id.index < c.size → c'.definition id = c.definition id

namespace Catalog.KeptIn

variable {c' : Catalog}

theorem refl (c : Catalog) : c.KeptIn c :=
  ⟨Nat.le_refl _, fun _ _ => rfl⟩

theorem keyed (h : c.KeptIn c') (hr : r.Keyed c) : r.Keyed c' :=
  hr.mono h.size fun id hid => congrArg Definition.fullName (h.definition id hid)

/-- **A type that is kept is written as before.** -/
theorem document_eq (h : c.KeptIn c') (hc : c.Closed) {t : Schema} (ht : t.Within c.size) :
    t.document c' = t.document c := by
  -- the two catalogs agree on what is below the size of the first, where the type is
  have hsolid : Scope.Solid ⟨c, .empty, []⟩ := ⟨fun _ _ hn => (nomatch hn), hc⟩
  have hkept : Scope.KeptIn ⟨c, .empty, []⟩ ⟨c', .empty, []⟩ :=
    ⟨h.size, h.definition, prefix_refl _, rfl, rfl⟩
  have hagree := Agree.of_kept hsolid hkept
  exact (Schema.document_alike hagree.alike hagree.range ht).symm

end Catalog.KeptIn

theorem Scope.KeptIn.catalog {s s' : Scope} (h : s.KeptIn s') : s.catalog.KeptIn s'.catalog :=
  ⟨h.size, h.definition⟩

/-! ### Steps over registries -/

namespace Pool

/-- A step over the registries of a pool.  Documents and directories are read from the disk as it
is at the time of the step. -/
inductive Action
  | create (checksNames checksDefaults : Bool) (types : List TypeId)
  | define (id : RegistryId) (type : TypeId)
  | addTypes (id : RegistryId) (types : List TypeId)
  | snapshot (id : RegistryId)
  | snapshotShared
  | reset
  | parse (id : RegistryId) (call : ParseCall)
  | compile (disk : Disk) (options : CompileOptions) (source target : Path)
      (start : Option RegistryId)

namespace Action

/-- Takes the step; whether it succeeds, and the pool after it. -/
def run (p : Pool) : Action → Except Error Unit × Pool
  | create checksNames checksDefaults types =>
    (.ok (), (p.create (Registry.addAll ⟨[], checksNames, checksDefaults⟩ p.catalog types)).2)
  | define id type =>
    match p.define id type with
    | .ok p' => (.ok (), p')
    | .error e => (.error e, p)
  | addTypes id types => (.ok (), p.addTypes id types)
  | snapshot id => (.ok (), (p.snapshot id).2)
  | snapshotShared => (.ok (), (p.snapshot p.shared).2)
  | reset => (.ok (), p.reset)
  | parse id call =>
    let (result, p') := p.run id call.run
    (result.map fun _ => (), p')
  | compile disk options source target start =>
    let (result, _, p') := p.compile disk options source target start
    (result.map fun _ => (), p')

/-- The registry that the step works on, if it is one of those there are. -/
def target : Action → Option RegistryId
  | define id _ | addTypes id _ | parse id _ => some id
  | compile _ _ _ _ start => start
  | create .. | snapshot _ | snapshotShared | reset => none

/-- The registries and the types that the step mentions are there. -/
def Valid (p : Pool) : Action → Prop
  | create _ _ types => ∀ type ∈ types, type.index < p.catalog.size
  | define id type => id.index < p.registries.length ∧ type.index < p.catalog.size
  | addTypes id types =>
    id.index < p.registries.length ∧ ∀ type ∈ types, type.index < p.catalog.size
  | snapshot id | parse id _ => id.index < p.registries.length
  | compile _ _ _ _ start => ∀ id ∈ start, id.index < p.registries.length
  | snapshotShared | reset => True

instance (p : Pool) : (a : Action) → Decidable (a.Valid p)
  | create _ _ types => inferInstanceAs (Decidable (∀ type ∈ types, type.index < p.catalog.size))
  | define id type =>
    inferInstanceAs (Decidable (id.index < p.registries.length ∧ type.index < p.catalog.size))
  | addTypes id types => inferInstanceAs (Decidable
      (id.index < p.registries.length ∧ ∀ type ∈ types, type.index < p.catalog.size))
  | snapshot id | parse id _ => inferInstanceAs (Decidable (id.index < p.registries.length))
  | compile _ _ _ _ start =>
    inferInstanceAs (Decidable (∀ id ∈ start, id.index < p.registries.length))
  | snapshotShared | reset => inferInstanceAs (Decidable True)

end Action

/-- The pool is reached by steps from the one with an empty shared registry. -/
inductive Reachable : Pool → Prop
  | initial : Reachable Pool.initial
  | step {p : Pool} {a : Action} : Reachable p → a.Valid p → Reachable (a.run p).2

/-! ### Pools in order -/

/-- Every registry is in order, and definitions mention only definitions. -/
structure Sound (p : Pool) : Prop where
  shared : p.shared.index < p.registries.length
  keyed : ∀ r ∈ p.registries, r.Keyed p.catalog
  closed : p.catalog.Closed

theorem registry_eq_getElem (h : id.index < p.registries.length) :
    p.registry id = p.registries[id.index] := by
  simp [registry, getD_eq_getElem?_getD, h]

theorem Sound.registry_keyed (h : p.Sound) (hid : id.index < p.registries.length) :
    (p.registry id).Keyed p.catalog := by
  rw [registry_eq_getElem hid]
  exact h.keyed _ (getElem_mem hid)

theorem registry_update_of_ne {other : RegistryId} (h : id ≠ other) (r : Registry) :
    (p.update id r).registry other = p.registry other := by
  have hne : id.index ≠ other.index := fun he => h (by cases id; cases other; simp_all)
  simp [registry, update, getD_eq_getElem?_getD, hne]

theorem registry_update_self (h : id.index < p.registries.length) (r : Registry) :
    (p.update id r).registry id = r := by
  simp [registry, update, getD_eq_getElem?_getD, h]

theorem registry_create_of_lt (h : id.index < p.registries.length) (r : Registry) :
    (p.create r).2.registry id = p.registry id := by
  simp [registry, create, getD_eq_getElem?_getD, getElem?_append_left h]

/-- Putting a registry in its own place changes nothing. -/
theorem update_registry (h : id.index < p.registries.length) : p.update id (p.registry id) = p := by
  rw [update, registry_eq_getElem h, set_getElem_self]

/-- What a step that works on one registry, or on none, does to a pool. -/
structure Effect (p : Pool) (target : Option RegistryId) (p' : Pool) : Prop where
  catalog : p.catalog.KeptIn p'.catalog
  others : ∀ id, id.index < p.registries.length → target ≠ some id →
    p'.registry id = p.registry id
  sound : p'.Sound

theorem Sound.effect_refl (h : p.Sound) (target : Option RegistryId) : p.Effect target p :=
  ⟨.refl _, fun _ _ _ => rfl, h⟩

/-- Only types are added. -/
theorem Sound.effect_grow (h : p.Sound) (hc : p.catalog.KeptIn c) (hclosed : c.Closed)
    (log : List LogRecord) : p.Effect none { p with catalog := c, log } :=
  ⟨hc, fun _ _ _ => rfl, h.shared, fun r hr => hc.keyed (h.keyed r hr), hclosed⟩

/-- A registry is replaced by one that is in order in a later catalog. -/
theorem Sound.effect_update (h : p.Sound) (id : RegistryId) (hc : p.catalog.KeptIn c)
    (hclosed : c.Closed) (hr : r.Keyed c) (log : List LogRecord) :
    p.Effect (some id) { p.update id r with catalog := c, log } where
  catalog := hc
  others other _ hne := registry_update_of_ne (fun he => hne (congrArg some he)) r
  sound := by
    refine ⟨by simpa [update] using h.shared, fun r' hr' => ?_, hclosed⟩
    -- a registry of the pool is one of those before, or the new one
    rcases mem_or_eq_of_mem_set hr' with hr' | rfl
    · exact hc.keyed (h.keyed r' hr')
    · exact hr

/-- A registry is added. -/
theorem Sound.effect_create (h : p.Sound) (hr : r.Keyed p.catalog) :
    p.Effect none (p.create r).2 where
  catalog := .refl _
  others id hid _ := registry_create_of_lt hid r
  sound := by
    refine ⟨?_, forall_mem_append.mpr ⟨h.keyed, forall_mem_singleton.mpr hr⟩, h.closed⟩
    exact Nat.lt_of_lt_of_le h.shared (by simp [create])

theorem Sound.effect_reset (h : p.Sound) : p.Effect none p.reset := by
  have hcreate := h.effect_create (.empty true true)
  refine ⟨hcreate.catalog, hcreate.others, ?_, hcreate.sound.keyed, hcreate.sound.closed⟩
  simp [reset, create]

/-! ### One step -/

/-- Reading a document in a registry appends to it. -/
theorem Sound.kept_parse (h : p.Sound) (hid : id.index < p.registries.length) (call : ParseCall) :
    let s : Scope := ⟨p.catalog, p.registry id, p.log⟩
    let s' := (outcome call.run s).2
    s.KeptIn s' ∧ s'.registry.Keyed s'.catalog ∧ s'.catalog.Closed := by
  intro s s'
  have hkeyed := h.registry_keyed hid
  have hbuilds := (call.leads_run (s := s) (Scope.orderly_of_closed hkeyed h.closed)).rel
  exact ⟨hbuilds.kept (Nat.le_refl _), hbuilds.orderly.keyed,
    hbuilds.closed (Nat.le_refl _) hkeyed h.closed⟩

theorem Sound.effect_define (h : p.Sound) {type : TypeId} (hid : id.index < p.registries.length)
    (htype : type.index < p.catalog.size) (he : p.define id type = .ok p') :
    p.Effect (some id) p' := by
  rw [define, Registry.define] at he
  split at he
  · cases he
  · rename_i r hr
    split at hr
    · cases hr
    · cases hr
      cases he
      exact h.effect_update id (.refl _) h.closed ((h.registry_keyed hid).add htype) _

/-- The pool after a compilation: only the registry that it starts from has changed. -/
theorem Sound.compile_pool (h : p.Sound) (disk : Disk) (o : CompileOptions) (source target : Path)
    {start : Option RegistryId} (hstart : ∀ id ∈ start, id.index < p.registries.length) :
    ∃ (learned : Snapshot) (log : List LogRecord),
      Snapshot.Grown ⟨p.catalog, p.registry (start.getD p.shared)⟩ learned ∧
      (p.compile disk o source target start).2.2 =
        { start.elim p (p.update · learned.registry) with catalog := learned.catalog, log } := by
  let known := p.registry (start.getD p.shared)
  let w : World := ⟨disk, p.catalog, p.registry p.shared, p.log, ⟨p.catalog, known⟩⟩
  let w' := (outcome (compileDirectory o source target known) w).2
  have honward : w.Onward w' := onward_compileDirectory o source target known w
  have hknown : known.Keyed p.catalog := by
    cases start with
    | none => exact h.registry_keyed h.shared
    | some id => exact h.registry_keyed (hstart id rfl)
  have hupdate : p.update p.shared w'.shared = p := by
    rw [honward.shared]
    exact update_registry h.shared
  refine ⟨w'.learned, w'.log, honward.grown ⟨hknown, h.closed⟩, ?_⟩
  -- the shared registry is put back as it was
  cases start with
  | none =>
    change { p.update p.shared w'.shared with catalog := w'.learned.catalog, log := w'.log } = _
    rw [hupdate]
    rfl
  | some id =>
    change update { p.update p.shared w'.shared with
      catalog := w'.learned.catalog, log := w'.log } id w'.learned.registry = _
    rw [hupdate]
    rfl

theorem Sound.effect_compile (h : p.Sound) (disk : Disk) (o : CompileOptions) (source target : Path)
    {start : Option RegistryId} (hstart : ∀ id ∈ start, id.index < p.registries.length) :
    p.Effect start (p.compile disk o source target start).2.2 := by
  obtain ⟨learned, log, hgrown, he⟩ := h.compile_pool disk o source target hstart
  rw [he]
  cases start with
  | none => exact h.effect_grow hgrown.kept.catalog hgrown.sound.closed log
  | some id =>
    exact h.effect_update id hgrown.kept.catalog hgrown.sound.closed hgrown.sound.keyed log

namespace Action

/-- **What a step does to a pool in order.** -/
theorem effect (h : p.Sound) {a : Action} (ha : a.Valid p) : p.Effect a.target (a.run p).2 := by
  cases a with
  | create checksNames checksDefaults types =>
    exact h.effect_create ((Registry.Keyed.empty _ _).addAll ha)
  | define id type =>
    rw [run]
    split
    · rename_i he
      exact h.effect_define ha.1 ha.2 he
    · exact h.effect_refl _
  | addTypes id types =>
    exact h.effect_update id (.refl _) h.closed ((h.registry_keyed ha.1).addAll ha.2) _
  | snapshot id => exact h.effect_create (h.registry_keyed ha)
  | snapshotShared => exact h.effect_create (h.registry_keyed h.shared)
  | reset => exact h.effect_reset
  | parse id call =>
    obtain ⟨hkept, hkeyed, hclosed⟩ := h.kept_parse ha call
    exact h.effect_update id hkept.catalog hclosed hkeyed _
  | compile disk o source target start => exact h.effect_compile disk o source target ha

end Action

/-! ### Whole runs -/

theorem sound_initial : Sound .initial := by
  refine ⟨Nat.one_pos, forall_mem_singleton.mpr (.empty true true), fun id hid => ?_⟩
  exact absurd hid (Nat.not_lt_zero _)

/-- **Every pool that steps lead to is in order.** -/
theorem Reachable.sound (h : p.Reachable) : p.Sound := by
  induction h with
  | initial => exact sound_initial
  | step _ ha ih => exact (Action.effect ih ha).sound

/-! ### Isolation -/

/-- The types of a registry are written in the second pool as in the first one. -/
def KeepsTypes (p p' : Pool) (id : RegistryId) : Prop :=
  ∀ type ∈ (p.registry id).types,
    (Schema.named type).document p'.catalog = (Schema.named type).document p.catalog

theorem Effect.keepsTypes {target : Option RegistryId} (h : p.Effect target p') (hp : p.Sound)
    (hid : id.index < p.registries.length) : p.KeepsTypes p' id := by
  intro type ht
  obtain ⟨e, he, rfl⟩ := mem_map.mp ht
  exact h.catalog.document_eq hp.closed ⟨_, rfl, rfl, (hp.registry_keyed hid).lt_size e he⟩

/-- What the registries of a pool are before a step, and what the step leaves as it is. -/
structure Isolated (p : Pool) (a : Action) : Prop where
  /-- Types are in a registry under their full names, each of which is there once. -/
  keys : ∀ r ∈ p.registries, (∀ e ∈ r.entries, p.catalog.fullName e.2 = e.1) ∧ r.names.Nodup
  /-- Other registries keep their entries and the order of them, and their types stay the same. -/
  others : ∀ id, id.index < p.registries.length → a.target ≠ some id →
    (a.run p).2.registry id = p.registry id ∧ p.KeepsTypes (a.run p).2 id
  /-- Reading appends to the registry, and its types stay the same. -/
  parse : ∀ id call, a = .parse id call →
    (p.registry id).entries <+: ((a.run p).2.registry id).entries ∧
      (p.registry id).names <+: ((a.run p).2.registry id).names ∧ p.KeepsTypes (a.run p).2 id
  /-- A type is refused if its full name is taken, and then nothing changes. -/
  define : ∀ id type, a = .define id type →
    ((p.registry id).contains (p.catalog.fullName type) = true ↔ (a.run p).1 ≠ .ok ()) ∧
      ((a.run p).1 ≠ .ok () → (a.run p).2 = p)
  /-- A compilation that starts from no registry in particular leaves the shared one alone. -/
  compile : ∀ disk options source target, a = .compile disk options source target none →
    (a.run p).2.shared = p.shared ∧ (a.run p).2.registry p.shared = p.registry p.shared ∧
      p.KeepsTypes (a.run p).2 p.shared

/-- A type is refused if its full name is taken. -/
theorem Action.run_define (p : Pool) (id : RegistryId) (type : TypeId) :
    ((p.registry id).contains (p.catalog.fullName type) = true ↔
      ((define id type).run p).1 ≠ .ok ()) ∧
    (((define id type).run p).1 ≠ .ok () → ((define id type).run p).2 = p) := by
  rw [run, Pool.define, Registry.define]
  by_cases hc : (p.registry id).contains (p.catalog.fullName type) = true <;> simp [hc]

/-- **A step changes no registry but its own, and no type at all.** -/
theorem isolated {p : Pool} (h : p.Reachable) {a : Action} (ha : a.Valid p) : p.Isolated a := by
  have hs := h.sound
  have heffect := Action.effect hs ha
  refine ⟨fun r hr => ⟨(hs.keyed r hr).fullName, (hs.keyed r hr).nodup⟩,
    fun id hid hne => ⟨heffect.others id hid hne, heffect.keepsTypes hs hid⟩, ?_, ?_, ?_⟩
  · rintro id call rfl
    have hentries : (p.registry id).entries <+:
        (((Action.parse id call).run p).2.registry id).entries := by
      have hkept := (hs.kept_parse ha call).1.entries
      exact (registry_update_self ha _).symm ▸ hkept
    exact ⟨hentries, hentries.map _, heffect.keepsTypes hs ha⟩
  · rintro id type rfl
    exact Action.run_define p id type
  · rintro disk o source target rfl
    have hnone : ∀ id ∈ (none : Option RegistryId), id.index < p.registries.length := nofun
    obtain ⟨_, _, -, he⟩ := hs.compile_pool disk o source target hnone
    have hshared := congrArg shared he
    exact ⟨hshared, heffect.others _ hs.shared (nomatch ·), heffect.keepsTypes hs hs.shared⟩

/-- A shared registry with what is left of a record that is refused at its second field, and a copy
of the registry. -/
def copied : Pool :=
  let refused : Action :=
    .parse ⟨0⟩ (.schema ("\x7b\"type\":\"record\",\"name\":\"A\",\"fields\":[" ++
      "\x7b\"name\":\"x\",\"type\":\"int\"\x7d,\x7b\"name\":\"y\",\"type\":\"B\"\x7d]\x7d"))
  (Action.snapshotShared.run (refused.run .initial).2).2

/-- A record with a field of the type `A`, read in the copy. -/
def furtherRecord : Action :=
  .parse ⟨1⟩ (.schema ("\x7b\"type\":\"record\",\"name\":\"C\",\"fields\":[" ++
    "\x7b\"name\":\"a\",\"type\":\"A\"\x7d]\x7d"))

theorem isolated_copied :
    (copied.Reachable ∧ furtherRecord.Valid copied) ∧
      (copied.registries.map (·.names) = [["A"], ["A"]] ∧
        (furtherRecord.run copied).2.registries.map (·.names) = [["A"], ["A", "C"]]) ∧
      copied.Isolated furtherRecord := by
  have hreach : copied.Reachable := .step (.step .initial (by decide)) trivial
  have hvalid : furtherRecord.Valid copied := by decide +kernel
  exact ⟨⟨hreach, hvalid⟩, by decide +kernel, isolated hreach hvalid⟩

end Pool

end Avroc
