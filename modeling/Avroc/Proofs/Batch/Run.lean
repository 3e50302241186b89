import Avroc.Build.Batch
import Avroc.Proofs.Batch.Reading
import Avroc.Proofs.File.Modules
import Avroc.Proofs.Module.Alike

/-!
# Runs of a batch

A batch tries its files again and again until none is left or a whole round brings nothing.  At
each moment every file is in one of three places: it has been compiled, it has been found where its
type does not belong, or it is left.

* `Progress.attempt`, `Progress.round`, `Progress.rounds` : **that is kept by a try, by a round and
  by all rounds.**
* `Settles`, `settles_compileBatch` : **where a batch comes to an end.**
-/

namespace Avroc

open List

variable {t : Scope} {e : Error} {c : Catalog} {type : Schema} {o : CompileOptions}
  {files : List SourceFile} {sourceRoot target path : Path} {b b' : Batch} {source : SourceInput}
  {again : Bool} {w w' : World} {d d' : Disk} {pending : List SourceInput} {bound : Nat}
  {rest : List Path} {j : Job}

/-! ### Jobs -/

/-- A batch: how files are checked, the disk they are read from, and the types known at first. -/
structure Job where
  options : CompileOptions
  sourceRoot : Path
  disk : Disk
  known : Snapshot

namespace Job

/-- How a file is read. -/
def read (j : Job) (path : Path) : Reading Schema :=
  Idl.readSchemaFile j.disk path

/-- The error of a file that can be read but does not lie where its type belongs. -/
def misplaced? (j : Job) (path : Path) (c : Catalog) (type : Schema) : Option Error :=
  checkLayout j.options c j.sourceRoot path type

/-- The snapshot after the files have been compiled, each with the types that were new then. -/
inductive Accepts (j : Job) : List (Path × List TypeId) → Snapshot → Prop
  | start : Accepts j [] j.known
  | gain {done : List (Path × List TypeId)} {s : Snapshot} {t : Scope} {path : Path}
      {type : Schema} :
      Accepts j done s → Yields (j.read path) s.scope type t →
      j.misplaced? path t.catalog type = none →
      Accepts j (done ++ [(path, t.registry.newTypes s.registry.names)]) t.snapshot

/-- The file could be read on the way to the compiled files, and then had the error. -/
def Misplaced (j : Job) (compiled : List (Path × List TypeId)) (path : Path) (e : Error) : Prop :=
  ∃ done s type t, done <+: compiled ∧ j.Accepts done s ∧ Yields (j.read path) s.scope type t ∧
    j.misplaced? path t.catalog type = some e

end Job

theorem Scope.Solid.snapshot {s : Scope} (h : s.Solid) : s.snapshot.scope.Solid :=
  ⟨h.get?, h.closed⟩

theorem Scope.KeptIn.snapshot {s : Scope} (h : s.KeptIn t) : s.KeptIn t.snapshot.scope :=
  ⟨h.size, h.definition, h.entries, h.checksNames, h.checksDefaults⟩

theorem Snapshot.solid_empty : Snapshot.empty.scope.Solid where
  get? _ _ h := nomatch h
  closed _ h := absurd h (Nat.not_lt_zero _)

namespace Job

variable {done compiled : List (Path × List TypeId)} {s : Snapshot}

theorem Misplaced.append (h : j.Misplaced compiled path e) (more : List (Path × List TypeId)) :
    j.Misplaced (compiled ++ more) path e := by
  obtain ⟨done, s, type, t, hpre, hrest⟩ := h
  exact ⟨done, s, type, t, hpre.trans (prefix_append _ _), hrest⟩

theorem path?_of_misplaced? (h : j.misplaced? path c type = some e) :
    ∃ expected fullName, e = .layout path expected fullName := by
  unfold misplaced? checkLayout at h
  split at h
  · split at h
    · rw [layoutError?] at h
      split at h
      · cases h
      · cases h
        exact ⟨_, _, rfl⟩
    · cases h
  · cases h

theorem Accepts.solid (hj : j.known.scope.Solid) (h : j.Accepts done s) : s.scope.Solid := by
  induction h with
  | start => exact hj
  | gain _ hy _ ih => exact ((adds_readSchemaFile ih hy).solid ih).snapshot

theorem Accepts.kept (hj : j.known.scope.Solid) (h : j.Accepts done s) :
    j.known.scope.KeptIn s.scope := by
  induction h with
  | start => exact .refl _
  | gain hs hy _ ih => exact ih.trans (adds_readSchemaFile (hs.solid hj) hy).kept.snapshot

/-- An entry of the registry that has come in with a compiled file. -/
structure Gained (j : Job) (done : List (Path × List TypeId)) (s : Snapshot) (e : String × TypeId) :
    Prop where
  file : ∃ x ∈ done, j.disk.Defines x.1 e.1
  new : j.known.registry.contains e.1 = false
  upper : e.2.index < s.catalog.size
  fullName : s.catalog.fullName e.2 = e.1
  named : j.known.registry.checksNames = true → (s.catalog.definition e.2).Named

/-- **The registry gets the compiled types at its end, in order.** -/
theorem Accepts.new_entries (hj : j.known.scope.Solid) (h : j.Accepts done s) :
    ∃ new, s.registry.entries = j.known.registry.entries ++ new ∧
      done.flatMap (·.2) = new.map (·.2) ∧ (new.map (·.1)).Nodup ∧
      ∀ e ∈ new, j.Gained done s e := by
  induction h with
  | start => exact ⟨[], (append_nil _).symm, rfl, nodup_nil, forall_mem_nil _⟩
  | @gain done s t path type hs hy _ ih =>
    obtain ⟨old, hold, htypes, hnd, hgained⟩ := ih
    have hadds := adds_readSchemaFile (hs.solid hj) hy
    obtain ⟨new, hnew, htypes', hnd', hentry⟩ := hadds.exists_newTypes
    have hkept := (hs.kept hj).trans hadds.kept
    refine ⟨old ++ new, ?_, ?_, ?_, fun e he => ?_⟩
    · rw [← append_assoc, ← hold]
      exact hnew
    · rw [List.flatMap_append, flatMap_singleton, htypes, map_append]
      exact congrArg _ htypes'
    · rw [map_append, nodup_append]
      refine ⟨hnd, hnd', fun name hn name' hn' heq => ?_⟩
      obtain ⟨e, he, rfl⟩ := mem_map.mp hn'
      refine Registry.notMem_names_of_new (hentry e he).new ?_
      show e.1 ∈ s.registry.names
      rw [Registry.names, hold, map_append, ← heq]
      exact mem_append_right _ hn
    · rcases mem_append.mp he with he | he
      · obtain ⟨⟨x, hx, hdef⟩, hfresh, hupper, hname, hnamed⟩ := hgained e he
        have hsame : t.catalog.definition e.2 = s.catalog.definition e.2 :=
          hadds.kept.definition e.2 hupper
        refine ⟨⟨x, mem_append_left _ hx, hdef⟩, hfresh,
          Nat.lt_of_lt_of_le hupper hadds.kept.size, ?_, fun hc => ?_⟩
        · rw [← hname]
          exact congrArg Definition.fullName hsame
        · show (t.catalog.definition e.2).Named
          rw [hsame]
          exact hnamed hc
      · obtain ⟨hown, hfresh, -, hupper, hname, hnamed⟩ := hentry e he
        refine ⟨⟨_, mem_append_right _ (mem_singleton_self _), hown⟩, ?_, hupper, hname,
          fun hc => hnamed ((hs.kept hj).checksNames.trans hc)⟩
        exact Bool.eq_false_iff.mpr fun hc => Bool.eq_false_iff.mp hfresh ((hs.kept hj).contains hc)

/-- **The names are those of the start, and the full names of the compiled types in order.** -/
theorem Accepts.names (hj : j.known.scope.Solid) (h : j.Accepts done s) :
    s.registry.names = j.known.registry.names ++
      (done.flatMap (·.2)).map s.catalog.fullName := by
  obtain ⟨new, he, htypes, -, hgained⟩ := h.new_entries hj
  rw [htypes, Registry.names, he, map_append, map_map]
  exact congrArg _ (map_congr_left fun e he => (hgained e he).fullName.symm)

end Job

/-! ### One try -/

/-- What a try at a file can do: the file is left with its error, it is misplaced, or it is compiled
and its modules are written. -/
inductive Attempt (o : CompileOptions) (sourceRoot target path : Path) (d : Disk) (b : Batch) :
    Bool → Batch → Disk → Prop
  | failed {e : Error} {t : Scope} :
      outcome (Idl.readSchemaFile d path) b.known.scope = (.error e, t) → e.isReported = true →
      Attempt o sourceRoot target path d b true (b.fail path e) d
  | misplaced {type : Schema} {t : Scope} {e : Error} :
      Yields (Idl.readSchemaFile d path) b.known.scope type t →
      checkLayout o t.catalog sourceRoot path type = some e →
      Attempt o sourceRoot target path d b false
        { b.clear path with errors := b.errors ++ [e] } d
  | compiled {type : Schema} {t : Scope} {files : List SourceFile} {d' : Disk} :
      Yields (Idl.readSchemaFile d path) b.known.scope type t →
      checkLayout o t.catalog sourceRoot path type = none →
      typeModules t.catalog o (t.registry.newTypes b.known.registry.names) = .ok files →
      PlacedAll target files d d' →
      Attempt o sourceRoot target path d b false
        { b.clear path with
          known := ⟨t.catalog, b.known.registry.addAll t.catalog
            (t.registry.newTypes b.known.registry.names)⟩
          written := b.written ++ files.map fun file => target.join file.path } d'

/-- What a try can fail with: an error of the file that is not put down with it, a type that cannot
be written as a module, or a module that cannot be written. -/
inductive Attempt.Fails (o : CompileOptions) (target path : Path) (d : Disk) (b : Batch) (d' : Disk)
    (e : Error) : Prop
  | read {t : Scope} : d' = d → outcome (Idl.readSchemaFile d path) b.known.scope = (.error e, t) →
      ¬ e.isReported = true → Fails o target path d b d' e
  | modules {type : Schema} {t : Scope} {cause : Misuse} :
      d' = d → Yields (Idl.readSchemaFile d path) b.known.scope type t →
      typeModules t.catalog o (t.registry.newTypes b.known.registry.names) = .error cause →
      e = .misuse cause → Fails o target path d b d' e
  | write {type : Schema} {t : Scope} {files : List SourceFile} {w w' : World} :
      Yields (Idl.readSchemaFile d path) b.known.scope type t →
      typeModules t.catalog o (t.registry.newTypes b.known.registry.names) = .ok files →
      w.disk = d → w'.disk = d' → outcome (writeModules target files) w = (.error e, w') →
      Fails o target path d b d' e

theorem outcome_readFrom {α : Type} (known : Snapshot) (step : Reading α) (w : World) :
    outcome (readFrom known step) w =
      (.ok ((outcome step known.scope).1, (outcome step known.scope).2.snapshot),
        { w with log := w.log ++ (outcome step known.scope).2.log }) :=
  rfl

/-- The modules of types have the extension of modules. -/
theorem isModule_of_typeModules {ids : List TypeId} (h : typeModules c o ids = .ok files) :
    ∀ file ∈ files, file.IsModule :=
  fun file hm => (named_of_typeModules h file hm).isModule

/-- **A try does one of the three**, or it fails. -/
theorem ends_attempt (o : CompileOptions) (sourceRoot target : Path) (b : Batch)
    (source : SourceInput) (w : World) :
    Ends (fun r w' => Attempt o sourceRoot target source.path w.disk b r.1 r.2 w'.disk ∧
        w' = { w with disk := w'.disk, log := w'.log, learned := w'.learned })
      (fun e w' => Attempt.Fails o target source.path w.disk b w'.disk e)
      (outcome (attempt o sourceRoot target b source) w) := by
  unfold attempt
  refine Ends.bind (Q := fun d w₁ => d = w.disk ∧ w = w₁) (ends_pure ⟨rfl, rfl⟩) ?_
  rintro _ _ ⟨rfl, rfl⟩
  rw [outcome_bind, outcome_readFrom]
  rcases hread : outcome (Idl.readSchemaFile w.disk source.path) b.known.scope with ⟨e | type, t⟩
  · dsimp only
    split
    · exact ends_pure ⟨.failed hread ‹_›, rfl⟩
    · exact ends_throw (.read rfl hread ‹_›)
  · dsimp only [Scope.snapshot]
    split <;> refine Ends.bind (Q := fun _ w₁ => ∃ log, w₁ = { w with log }) (ends_pure ⟨_, rfl⟩) ?_
    · rintro _ _ ⟨log, rfl⟩
      exact ends_pure ⟨.misplaced hread ‹_›, rfl⟩
    · rintro _ w₁ ⟨log, hw₁⟩
      refine Ends.bind (Q := fun files w₂ => w₁ = w₂ ∧ typeModules t.catalog o
        (t.registry.newTypes b.known.registry.names) = .ok files) ?_ ?_
      · change Ends _ _ (outcome (orFail (typeModules t.catalog o
          (t.registry.newTypes b.known.registry.names))) w₁)
        cases hm : typeModules t.catalog o (t.registry.newTypes b.known.registry.names) with
        | error cause => exact ends_throw (.modules (by rw [hw₁]) hread hm rfl)
        | ok files => exact ends_pure ⟨rfl, rfl⟩
      · rintro files _ ⟨rfl, hm⟩
        refine Ends.bind (Q := fun paths w₂ => Yields (writeModules target files) w₁ paths w₂)
          ⟨fun _ h => Prod.ext h rfl,
            fun _ he => .write hread hm (by rw [hw₁]) rfl (Prod.ext he rfl)⟩
          fun paths w₂ hw => ?_
        obtain ⟨rfl, hworld, hplaced⟩ := yields_writeModules (isModule_of_typeModules hm) hw
        rw [hw₁] at hplaced hworld
        refine Ends.bind (Q := fun _ w₃ => ∃ learned, w₃ = { w₂ with learned })
          (ends_pure ⟨_, rfl⟩) ?_
        rintro _ _ ⟨learned, rfl⟩
        refine ends_pure ⟨.compiled hread ‹_› hm hplaced, ?_⟩
        rw [hworld]

theorem yields_attempt (h : Yields (attempt o sourceRoot target b source) w (again, b') w') :
    Attempt o sourceRoot target source.path w.disk b again b' w'.disk ∧
      w' = { w with disk := w'.disk, log := w'.log, learned := w'.learned } :=
  (ends_attempt o sourceRoot target b source w).of_ok h

/-- A file that can be read, with modules that can be written, is compiled. -/
theorem exists_yields_attempt
    (hread : Yields (Idl.readSchemaFile w.disk source.path) b.known.scope type t)
    (hlayout : checkLayout o t.catalog sourceRoot source.path type = none)
    (hmodules : typeModules t.catalog o (t.registry.newTypes b.known.registry.names) = .ok files)
    (hwrite : ∀ w₁ : World, w₁.disk = w.disk → ∃ paths w',
      Yields (writeModules target files) w₁ paths w') :
    ∃ b' w', Yields (attempt o sourceRoot target b source) w (false, b') w' ∧
      b'.failures = (b.clear source.path).failures ∧
      b'.written = b.written ++ (files.map fun file => target.join file.path) ∧
      PlacedAll target files w.disk w'.disk := by
  have hends := ends_attempt o sourceRoot target b source w
  have hread' :
      outcome (Idl.readSchemaFile w.disk source.path) b.known.scope = (.ok type, t) := hread
  rcases hr : outcome (attempt o sourceRoot target b source) w with ⟨e | ⟨again, b'⟩, w'⟩
  · exfalso
    cases hends.of_error hr with
    | read _ h => simp [hread'] at h
    | modules _ h hm =>
      obtain ⟨rfl, rfl⟩ := hread.unique h
      simp [hmodules] at hm
    | write h hm hw _ he =>
      obtain ⟨rfl, rfl⟩ := hread.unique h
      cases hmodules.symm.trans hm
      obtain ⟨paths, w₁, hok⟩ := hwrite _ hw
      cases he.symm.trans hok
  · have hstep := (hends.of_ok hr).1
    generalize hd : w'.disk = d' at hstep
    cases hstep with
    | failed h => simp [hread'] at h
    | misplaced h hl =>
      obtain ⟨rfl, rfl⟩ := hread.unique h
      simp [hlayout] at hl
    | compiled h _ hm hplaced =>
      obtain ⟨rfl, rfl⟩ := hread.unique h
      cases hmodules.symm.trans hm
      exact ⟨_, w', hr, rfl, rfl, hd ▸ hplaced⟩

theorem Attempt.kept (h : Attempt o sourceRoot target path d b again b' d') :
    d.KeptIn ModulePlace d' := by
  cases h with
  | failed => exact .refl _ _
  | misplaced => exact .refl _ _
  | compiled _ _ _ hplaced => exact hplaced.kept

theorem Batch.setFailure_eq_putKey (path : Path) (e : Error) (failures : List (Path × Error)) :
    setFailure path e failures = putKey path e failures := by
  induction failures with
  | nil => rfl
  | cons x rest ih => rw [setFailure, putKey, ih]

/-! ### Rounds -/

/-- A round tries the first file, and then the others. -/
theorem yields_round_cons {rest left : List SourceInput}
    (h : Yields (round o sourceRoot target b (source :: rest)) w (left, b') w') :
    ∃ again b₁ w₁ left', Yields (attempt o sourceRoot target b source) w (again, b₁) w₁ ∧
      Yields (round o sourceRoot target b₁ rest) w₁ (left', b') w' ∧
      left = if again then source :: left' else left' := by
  rw [round] at h
  obtain ⟨⟨again, b₁⟩, w₁, htry, h⟩ := yields_bind.mp h
  obtain ⟨⟨left', b₂⟩, w₂, hrest, h⟩ := yields_bind.mp h
  obtain ⟨heq, rfl⟩ := yields_pure.mp h
  cases heq
  exact ⟨again, b₁, w₁, left', htry, hrest, rfl⟩

theorem sublist_of_round {left : List SourceInput}
    (h : Yields (round o sourceRoot target b pending) w (left, b') w') : left.Sublist pending := by
  induction pending generalizing left b w with
  | nil =>
    obtain ⟨heq, rfl⟩ := yields_pure.mp h
    cases heq
    exact .refl _
  | cons source rest ih =>
    obtain ⟨again, b₁, w₁, left', -, hrest, rfl⟩ := yields_round_cons h
    split
    · exact (ih hrest).cons_cons source
    · exact (ih hrest).cons source

/-- **The bound on the rounds is never what ends them**: as many rounds as there are files do. -/
theorem outcome_rounds (hb : pending.length ≤ bound) (b : Batch) (w : World) :
    outcome (rounds o sourceRoot target bound pending b) w =
      outcome (rounds o sourceRoot target pending.length pending b) w := by
  induction bound using Nat.strongRecOn generalizing pending b w with
  | ind bound ih =>
    cases bound with
    | zero => rw [Nat.le_zero.mp hb]
    | succ bound =>
      cases pending with
      | nil => rfl
      | cons source rest =>
        rw [length_cons, rounds, rounds, if_neg (by simp), if_neg (by simp), outcome_bind,
          outcome_bind]
        rcases hround : outcome (round o sourceRoot target b (source :: rest)) w with
          ⟨e | ⟨left, b₁⟩, w₁⟩
        · rfl
        · dsimp only
          have hle := (sublist_of_round (show Yields _ _ _ _ from hround)).length_le
          rw [length_cons] at hb hle ⊢
          split
          · rfl
          · -- both sides go on with fewer files than they have rounds left
            rw [ih bound (Nat.lt_succ_self _) (by omega) b₁ w₁]
            by_cases hr : rest.length = bound
            · rw [hr, ih bound (Nat.lt_succ_self _) (by omega) b₁ w₁]
            · rw [ih rest.length (by omega) (by omega) b₁ w₁]

/-- In a round that leaves all files, nothing changes but the errors of the files. -/
theorem stuck_of_round {left : List SourceInput}
    (h : Yields (round o sourceRoot target b pending) w (left, b') w')
    (hleft : left.length = pending.length) :
    left = pending ∧ b'.known = b.known ∧ w'.disk = w.disk ∧
      (∀ path ∉ pending.map (·.path), b'.failures.lookup path = b.failures.lookup path) ∧
      ∀ path ∈ pending.map (·.path), ∃ e t,
        outcome (Idl.readSchemaFile w.disk path) b.known.scope = (.error e, t) ∧
          e.isReported = true ∧ b'.failures.lookup path = some e := by
  induction pending generalizing left b w with
  | nil =>
    obtain ⟨heq, rfl⟩ := yields_pure.mp h
    cases heq
    exact ⟨rfl, rfl, rfl, fun _ _ => rfl, fun _ hp => nomatch hp⟩
  | cons source rest ih =>
    obtain ⟨retry, b₁, w₁, left', htry, hrest, rfl⟩ := yields_round_cons h
    obtain ⟨hstep, -⟩ := yields_attempt htry
    have hle := (sublist_of_round hrest).length_le
    cases retry with
    | false =>
      simp only [Bool.false_eq_true, if_false, length_cons] at hleft
      omega
    | true =>
      simp only [if_true, length_cons, Nat.add_right_cancel_iff] at hleft ⊢
      obtain ⟨rfl, hknown, hdisk, hother, hall⟩ := ih hrest hleft
      generalize w₁.disk = d₁ at hstep hdisk hall
      cases hstep with
      | @failed e t hread he =>
        refine ⟨rfl, hknown, hdisk, fun path hp => ?_, fun path hp => ?_⟩
        · rw [map_cons, mem_cons, not_or] at hp
          rw [hother path hp.2]
          rw [Batch.fail, Batch.setFailure_eq_putKey, lookup_putKey, if_neg hp.1]
        · by_cases hlater : path ∈ left'.map (·.path)
          · exact hall path hlater
          · obtain rfl : path = source.path := by simpa [hlater] using hp
            refine ⟨e, t, hread, he, ?_⟩
            rw [hother _ hlater]
            rw [Batch.fail, Batch.setFailure_eq_putKey, lookup_putKey, if_pos rfl]

/-! ### Tries -/

/-- The batch has come this far by tries at files. -/
inductive Tries (o : CompileOptions) (sourceRoot target : Path) (b₀ : Batch) (w₀ : World) :
    Batch → World → Prop
  | start : Tries o sourceRoot target b₀ w₀ b₀ w₀
  | next {b b' : Batch} {w w' : World} {source : SourceInput} {again : Bool} :
      Tries o sourceRoot target b₀ w₀ b w →
      Yields (attempt o sourceRoot target b source) w (again, b') w' →
      Tries o sourceRoot target b₀ w₀ b' w'

section
variable {b₀ : Batch} {w₀ : World}

theorem Tries.trans (h : Tries o sourceRoot target b₀ w₀ b w)
    (h' : Tries o sourceRoot target b w b' w') : Tries o sourceRoot target b₀ w₀ b' w' := by
  induction h' with
  | start => exact h
  | next _ htry ih => exact ih.next htry

/-- Tries change no file but those of modules. -/
theorem Tries.kept (h : Tries o sourceRoot target b₀ w₀ b w) :
    w₀.disk.KeptIn ModulePlace w.disk ∧
      w = { w₀ with disk := w.disk, log := w.log, learned := w.learned } := by
  induction h with
  | start => exact ⟨.refl _ _, rfl⟩
  | next _ htry ih =>
    obtain ⟨hstep, hw⟩ := yields_attempt htry
    exact ⟨ih.1.trans hstep.kept, by rw [hw, ih.2]⟩

theorem tries_round {left : List SourceInput}
    (h : Yields (round o sourceRoot target b pending) w (left, b') w') :
    Tries o sourceRoot target b w b' w' := by
  induction pending generalizing left b w with
  | nil =>
    obtain ⟨heq, rfl⟩ := yields_pure.mp h
    cases heq
    exact .start
  | cons source rest ih =>
    obtain ⟨again, b₁, w₁, left', htry, hrest, -⟩ := yields_round_cons h
    exact (Tries.start.next htry).trans (ih hrest)

theorem tries_rounds (h : Yields (rounds o sourceRoot target bound pending b) w b' w') :
    Tries o sourceRoot target b w b' w' := by
  induction bound generalizing pending b w with
  | zero =>
    obtain ⟨rfl, rfl⟩ := yields_pure.mp h
    exact .start
  | succ bound ih =>
    rw [rounds] at h
    split at h
    · obtain ⟨rfl, rfl⟩ := yields_pure.mp h
      exact .start
    · obtain ⟨⟨left, b₁⟩, w₁, hround, h⟩ := yields_bind.mp h
      dsimp only at h
      split at h
      · obtain ⟨rfl, rfl⟩ := yields_pure.mp h
        exact tries_round hround
      · exact (tries_round hround).trans (ih h)

end

/-! ### Progress -/

/-- Where a batch stands between two tries: the files that are left, those that have been compiled
with their types, and those that have gone astray with their errors. -/
structure Progress (j : Job) (target : Path) (paths : List Path) (start : Disk) (left : List Path)
    (compiled : List (Path × List TypeId)) (astray : List (Path × Error)) (b : Batch)
    (d : Disk) : Prop where
  perm : (compiled.map (·.1) ++ astray.map (·.1) ++ left).Perm paths
  accepts : j.Accepts compiled b.known
  misplaced : ∀ m ∈ astray, j.Misplaced compiled m.1 m.2
  errors : b.errors = astray.map (·.2)
  modules : ∃ files,
    List.Forall₂ (b.known.catalog.HasModule j.options) (compiled.flatMap (·.2)) files ∧
      PlacedAll target files start d ∧ b.written = files.map fun file => target.join file.path
  nodup : (b.failures.map (·.1)).Nodup
  failing : ∀ x ∈ b.failures, x.1 ∈ left

/-- A source file does not lie where modules lie. -/
theorem not_modulePlace {format : SourceFormat} (hs : path.suffix = format.extension)
    {place : List String} (hl : d.locate path = .ok place) :
    ¬ ModulePlace place := by
  obtain ⟨front, c, hy, hdot, he⟩ : ∃ front c, c ≠ 'y' ∧ c ≠ '.' ∧
      format.extension = String.ofList ('.' :: (front ++ [c])) := by
    cases format with
    | idl => exact ⟨"avd".toList, 'l', by decide, by decide, rfl⟩
    | schema => exact ⟨"avs".toList, 'c', by decide, by decide, rfl⟩
    | protocol => exact ⟨"avp".toList, 'r', by decide, by decide, rfl⟩
  obtain ⟨stem, hlast⟩ := Path.suffix_last (by simp) (hs.trans he)
  have hend : ∀ cs : List Char, stem ++ '.' :: (front ++ [c]) = cs → cs.getLast? = some c := by
    rintro _ rfl
    rw [← cons_append, ← append_assoc, getLast?_concat]
  have hdots : String.ofList (stem ++ '.' :: (front ++ [c])) ≠ ".." := by
    intro h
    have hc := hend "..".toList (String.ofList_injective h)
    exact hdot (Option.some.inj hc).symm
  obtain ⟨parent, -, -, rfl⟩ := Disk.locate_parent hlast hdots hl
  rintro ⟨parent', stem', heq⟩
  have hname := (append_inj' heq rfl).2
  rw [List.cons.injEq, String.ofList_inj] at hname
  have hc := hend _ hname.1
  rw [getLast?_append] at hc
  exact hy (Option.some.inj hc).symm

namespace Progress

variable {paths left : List Path} {start : Disk} {compiled : List (Path × List TypeId)}
  {astray : List (Path × Error)}

/-- The failures without a file are those of the files that are left without it. -/
theorem failing_clear {again : List Path} (h : ∀ x ∈ b.failures, x.1 ∈ again ++ path :: rest) :
    ∀ x ∈ (b.clear path).failures, x.1 ∈ again ++ rest := by
  intro x hx
  rw [Batch.clear, mem_filter, decide_eq_true_iff] at hx
  have hm := h x hx.1
  rw [mem_append, mem_cons] at hm
  rcases hm with hm | hm | hm
  · exact mem_append_left _ hm
  · exact absurd hm hx.2
  · exact mem_append_right _ hm

/-- **A try keeps the batch on its way.**  The disk that files are read from has to be a later one
than that of the try. -/
theorem attempt (hj : j.known.scope.Solid) {again : List Path} {retry : Bool}
    (h : Progress j target paths start (again ++ path :: rest) compiled astray b d)
    (hs : path.suffix = SourceFormat.schema.extension)
    (htry : Attempt j.options j.sourceRoot target path d b retry b' d')
    (hd : d.KeptIn ModulePlace j.disk) :
    ∃ compiled' astray', Progress j target paths start
      (if retry then again ++ path :: rest else again ++ rest) compiled' astray' b' d' := by
  have hread : ∀ {type : Schema} {t : Scope},
      Yields (Idl.readSchemaFile d path) b.known.scope type t →
        Yields (j.read path) b.known.scope type t := fun hy =>
    hd.yields_readSchemaFile (fun _ hl => not_modulePlace hs hl) hy
  have hperm :
      (path :: (compiled.map (·.1) ++ astray.map (·.1) ++ (again ++ rest))).Perm paths := by
    refine (perm_iff_count.mpr fun q => ?_).trans h.perm
    simp only [count_append, count_cons]
    omega
  cases htry with
  | @failed e t hread he =>
    rw [Batch.fail, Batch.setFailure_eq_putKey]
    refine ⟨compiled, astray, { h with
      nodup := nodup_putKey h.nodup
      failing := fun x hx => ?_ }⟩
    rcases mem_keys_putKey.mp (mem_map_of_mem hx) with hp | hp
    · simp [hp]
    · obtain ⟨y, hy, hxy⟩ := mem_map.mp hp
      exact hxy ▸ h.failing y hy
  | @misplaced type t e hy hlayout =>
    refine ⟨compiled, astray ++ [(path, e)], ?_, h.accepts, fun m hm => ?_, ?_, h.modules,
      (filter_sublist.map _).nodup h.nodup, failing_clear h.failing⟩
    · refine (perm_iff_count.mpr fun q => ?_).trans hperm
      simp only [map_append, map_cons, map_nil, count_append, count_cons,
        count_nil, Bool.false_eq_true, if_false]
      omega
    · rcases mem_append.mp hm with hm | hm
      · exact h.misplaced m hm
      · obtain rfl := mem_singleton.mp hm
        exact ⟨compiled, b.known, type, t, prefix_refl _, h.accepts, hread hy, hlayout⟩
    · show b.errors ++ [e] = _
      rw [h.errors, map_append]
      rfl
  | @compiled type t files d' hy hlayout hmodules hplaced =>
    have hsolid := h.accepts.solid hj
    have hadds := adds_readSchemaFile hsolid hy
    have hknown : (⟨t.catalog, b.known.registry.addAll t.catalog
        (t.registry.newTypes b.known.registry.names)⟩ : Snapshot) = t.snapshot := by
      rw [show b.known.registry = b.known.scope.registry from rfl, hadds.addAll_newTypes]
      rfl
    rw [hknown]
    obtain ⟨old, hold, hplacedOld, hwritten⟩ := h.modules
    refine ⟨compiled ++ [(path, t.registry.newTypes b.known.registry.names)], astray, ?_,
      .gain h.accepts (hread hy) hlayout, fun m hm => (h.misplaced m hm).append _, h.errors,
      ⟨old ++ files, ?_, hplacedOld.append hplaced, ?_⟩,
      (filter_sublist.map _).nodup h.nodup, failing_clear h.failing⟩
    · refine (perm_iff_count.mpr fun q => ?_).trans hperm
      simp only [map_append, map_cons, map_nil, count_append, count_cons,
        count_nil, Bool.false_eq_true, if_false]
      omega
    · rw [List.flatMap_append, flatMap_singleton]
      refine rel_append (hold.imp fun id file hm => ?_) ?_
      · exact hm.kept hsolid hadds.kept
      · exact hasModule_of_typeModules hmodules fun id hid => hadds.lt_size hid
    · show b.written ++ _ = _
      rw [hwritten, map_append]

/-- **A round keeps the batch on its way.** -/
theorem round (hj : j.known.scope.Solid) (again : List Path) {left : List SourceInput}
    (hs : ∀ source ∈ pending, source.path.suffix = SourceFormat.schema.extension)
    (h : Progress j target paths start (again ++ pending.map (·.path)) compiled astray b w.disk)
    (hround : Yields (Avroc.round j.options j.sourceRoot target b pending) w (left, b') w')
    (hd : w'.disk.KeptIn ModulePlace j.disk) :
    ∃ compiled' astray',
      Progress j target paths start (again ++ left.map (·.path)) compiled' astray'
      b' w'.disk := by
  induction pending generalizing again left b w compiled astray with
  | nil =>
    obtain ⟨heq, rfl⟩ := yields_pure.mp hround
    cases heq
    exact ⟨compiled, astray, h⟩
  | cons source rest ih =>
    obtain ⟨retry, b₁, w₁, left', htry, hrest, rfl⟩ := yields_round_cons hround
    rw [forall_mem_cons] at hs
    obtain ⟨hstep, -⟩ := yields_attempt htry
    have hd₁ := (tries_round hrest).kept.1.trans hd
    obtain ⟨compiled₁, astray₁, h₁⟩ := h.attempt hj hs.1 hstep (hstep.kept.trans hd₁)
    cases retry with
    | false => exact ih again hs.2 h₁ hrest
    | true =>
      rw [if_pos rfl, ← singleton_append, ← append_assoc] at h₁
      obtain ⟨compiled₂, astray₂, h₂⟩ := ih (again ++ [source.path]) hs.2 h₁ hrest
      rw [append_assoc] at h₂
      exact ⟨compiled₂, astray₂, h₂⟩

/-- **All rounds keep the batch on its way**, and each file that is left in the end fails with the
types that are known then. -/
theorem rounds (hj : j.known.scope.Solid) (hb : pending.length ≤ bound)
    (hs : ∀ source ∈ pending, source.path.suffix = SourceFormat.schema.extension)
    (h : Progress j target paths start (pending.map (·.path)) compiled astray b w.disk)
    (hrounds : Yields (Avroc.rounds j.options j.sourceRoot target bound pending b) w b' w')
    (hd : w'.disk.KeptIn ModulePlace j.disk) :
    ∃ left compiled' astray', Progress j target paths start left compiled' astray' b' w'.disk ∧
      ∀ path ∈ left, ∃ e t,
        outcome (Idl.readSchemaFile w'.disk path) b'.known.scope = (.error e, t) ∧
          e.isReported = true ∧ b'.failures.lookup path = some e := by
  induction bound generalizing pending b w compiled astray with
  | zero =>
    obtain rfl := length_eq_zero_iff.mp (Nat.le_zero.mp hb)
    obtain ⟨rfl, rfl⟩ := yields_pure.mp hrounds
    exact ⟨[], compiled, astray, h, fun _ hp => nomatch hp⟩
  | succ bound ih =>
    rw [Avroc.rounds] at hrounds
    split at hrounds
    · rename_i hempty
      obtain rfl := List.isEmpty_iff.mp hempty
      obtain ⟨rfl, rfl⟩ := yields_pure.mp hrounds
      exact ⟨[], compiled, astray, h, fun _ hp => nomatch hp⟩
    · obtain ⟨⟨left, b₁⟩, w₁, hround, hrounds⟩ := yields_bind.mp hrounds
      dsimp only at hrounds
      split at hrounds
      · rename_i hlength
        obtain ⟨rfl, rfl⟩ := yields_pure.mp hrounds
        obtain ⟨compiled₁, astray₁, h₁⟩ := h.round hj [] hs hround hd
        obtain ⟨rfl, hknown, hdisk, -, hall⟩ := stuck_of_round hround hlength
        refine ⟨_, compiled₁, astray₁, h₁, fun path hp => ?_⟩
        rw [hknown, hdisk]
        exact hall path hp
      · have hd₁ := (tries_rounds hrounds).kept.1.trans hd
        obtain ⟨compiled₁, astray₁, h₁⟩ := h.round hj [] hs hround hd₁
        have hsub := sublist_of_round hround
        have hle := hsub.length_le
        exact ih (by omega) (fun source hm => hs source (hsub.subset hm)) h₁ hrounds

end Progress

/-! ### The end -/

/-- The end of a batch: every file has been compiled or has an error, which it had on the way as a
misplaced file or has with the types that are known in the end. -/
structure Settles (j : Job) (paths : List Path) (compiled : List (Path × List TypeId))
    (errors : List (Path × Error)) (final : Snapshot) : Prop where
  perm : (compiled.map (·.1) ++ errors.map (·.1)).Perm paths
  accepts : j.Accepts compiled final
  errors : ∀ x ∈ errors, j.Misplaced compiled x.1 x.2 ∨
    x.2.isReported = true ∧ (outcome (j.read x.1) final.scope).1 = .error x.2

theorem yields_reportFailures {failures : List (Path × Error)} {u : Unit}
    (h : Yields (reportFailures failures) w u w') : w' = { w with log := w'.log } := by
  induction failures generalizing w with
  | nil =>
    obtain ⟨-, rfl⟩ := yields_pure.mp h
    rfl
  | cons x rest ih =>
    rw [reportFailures] at h
    obtain ⟨_, w₁, hw, h⟩ := yields_bind.mp h
    obtain rfl := yields_modify.mp hw
    rw [ih h]

/-- **A batch that returns has settled its files**, and has written the modules of the compiled
types in order. -/
theorem settles_compileBatch {known : Snapshot} (hknown : known.scope.Solid)
    {files : List SourceInput} (hnd : (files.map (·.path)).Nodup)
    (hs : ∀ source ∈ files, source.path.suffix = SourceFormat.schema.extension)
    (h : Yields (compileBatch o sourceRoot target known files) w b w') :
    w' = { w with disk := w'.disk, log := w'.log, learned := w'.learned } ∧
      ∃ compiled errors modules,
      Settles ⟨o, sourceRoot, w'.disk, known⟩ (files.map (·.path)) compiled errors b.known ∧
      b.errors = errors.map (·.2) ∧
      List.Forall₂ (b.known.catalog.HasModule o) (compiled.flatMap (·.2)) modules ∧
      PlacedAll target modules w.disk w'.disk ∧
      b.written = modules.map fun file => target.join file.path := by
  unfold compileBatch at h
  obtain ⟨b₁, w₁, hrounds, h⟩ := yields_bind.mp h
  obtain ⟨_, w₂, hreport, h⟩ := yields_bind.mp h
  obtain ⟨rfl, rfl⟩ := yields_pure.mp h
  have hw := yields_reportFailures hreport
  have hdisk : w'.disk = w₁.disk := by rw [hw]
  rw [hdisk]
  have hstart : Progress ⟨o, sourceRoot, w₁.disk, known⟩ target (files.map (·.path)) w.disk
      (files.map (·.path)) [] [] ⟨known, [], [], []⟩ w.disk :=
    ⟨.refl _, .start, forall_mem_nil _, rfl, ⟨[], .nil, .nil, rfl⟩, nodup_nil,
      forall_mem_nil _⟩
  obtain ⟨left, compiled, astray, hend, hleft⟩ :=
    hstart.rounds hknown (Nat.le_refl _) hs hrounds (.refl _ _)
  obtain ⟨modules, hmodules, hplaced, hwritten⟩ := hend.modules
  have hfailing : (b₁.failures.map (·.1)).Perm left := by
    have hnodup := (nodup_append.mp (hend.perm.nodup_iff.mpr hnd)).2.1
    refine (perm_ext_iff_of_nodup hend.nodup hnodup).mpr fun path => ⟨fun hp => ?_, fun hp => ?_⟩
    · obtain ⟨x, hx, rfl⟩ := mem_map.mp hp
      exact hend.failing x hx
    · obtain ⟨e, -, -, -, hlookup⟩ := hleft path hp
      obtain ⟨l₁, l₂, hl, -⟩ := lookup_eq_some_iff.mp hlookup
      rw [hl]
      simp
  refine ⟨?_, compiled, astray ++ b₁.failures, modules, ⟨?_, hend.accepts, fun x hx => ?_⟩, ?_,
    hmodules, hplaced, hwritten⟩
  · rw [hw, (tries_rounds hrounds).kept.2]
  · rw [map_append, ← append_assoc]
    exact (hfailing.append_left _).trans hend.perm
  · rcases mem_append.mp hx with hx | hx
    · exact .inl (hend.misplaced x hx)
    · obtain ⟨e, t, hread, he, hlookup⟩ := hleft x.1 (hend.failing x hx)
      rw [lookup_eq_some_of_mem hend.nodup hx, Option.some.injEq] at hlookup
      subst hlookup
      exact .inr ⟨he, congrArg Prod.fst hread⟩
  · rw [hend.errors, map_append]

end Avroc
