import Avroc.Proofs.Batch.Run
import Avroc.Proofs.Schema.Refusal

/-!
# What stops a batch

A file that cannot be compiled is put down with its error, and the batch goes on with the others.
A batch stops only when a module cannot be written, or at a value of the wrong kind: in one of its
files a number with too many digits, or an order or a logical type that is an array or an object;
in a type that was known before, aliases of a field that are no list.  How deep a text is nested
does not matter here: there is no bound on recursion.

* `stops_of_attempt`, `stops_of_round`, `stops_of_rounds` : **the errors of a try, of a round and of
  all rounds.**
* `ends_compileBatch` : **a batch accounts for every file, or it was stopped by one of these.**
-/

namespace Avroc

open List

variable {b b' : Batch} {d d' : Disk} {e : Error} {pending : List SourceInput} {cause : Misuse}
  {path target : Path} {w w' : World} {o : CompileOptions} {source : SourceInput} {again : Bool}
  {bound : Nat}

/-! ### Errors that stop a batch -/

/-- A module cannot be written, or what stands in its place is no text. -/
inductive Error.OfWriting (d : Disk) : Error → Prop
  | disk (fault : DiskFault) (path : Path) :
      OfWriting d (.file (.unwritableModule fault) (some path))
  | encoding {fault : Text.Utf8Fault} {path : Path} :
      d.readText path = .error (.encoding fault) → OfWriting d (.encoding fault)

/-- The file has a number with too many digits, or an order or a logical type that is an array or an
object. -/
inductive Disk.Upsets (d : Disk) (path : Path) : Error → Prop
  | digits {text : String} {count : Nat} :
      d.readSource path = .ok text → loadJson text = .error (.tooManyDigits count) →
      Upsets d path (.tooManyDigits count)
  | value {v : Json} {cause : Misuse} :
      d.document? path = some v → v.Upsets cause → Upsets d path (.misuse cause)

/-- The error stops a batch at the file: a module cannot be written, or there is a value of the
wrong kind in the file or in a type that was known before. -/
inductive Error.Stops (d : Disk) (known : Snapshot) (path : Path) (e : Error) : Prop
  | write : e.OfWriting d → Stops d known path e
  | file : d.Upsets path e → Stops d known path e
  | known {cause : Misuse} : known.catalog.Upsets cause → e = .misuse cause → Stops d known path e

/-! ### Reading -/

/-- The faults of reading the file. -/
def Disk.Faults (d : Disk) (known : Snapshot) (path : Path) (cause : Misuse) : Prop :=
  d.Upsets path (.misuse cause) ∨ known.catalog.Upsets cause

theorem Disk.Faults.stops {known : Snapshot} (h : d.Faults known path cause) :
    Error.Stops d known path (.misuse cause) :=
  h.elim .file fun h => .known h rfl

/-- **Reading a schema file** ends with mild fields, with a refusal that names the file, or with an
error that stops the batch. -/
theorem ends_readSchemaFile (d : Disk) (path : Path) (known : Snapshot) :
    Ends (fun _ t => known.scope.Harmless (d.Faults known path) t)
      (fun e _ => e.isReported = true ∧ e.path? = some path ∨
        e.isReported = false ∧ e.Stops d known path)
      (outcome (Idl.readSchemaFile d path) known.scope) := by
  unfold Idl.readSchemaFile
  cases ht : d.readSource path with
  | error e =>
    unfold Disk.readSource at ht
    split at ht <;> cases ht
    exact ends_throw (.inl ⟨rfl, rfl⟩)
  | ok text =>
    change Ends _ _ (outcome (Idl.inFile path (readSchemaText text)) known.scope)
    rw [outcome_inFile]
    unfold readSchemaText
    cases hj : loadJson text with
    | error e =>
      refine ends_throw ?_
      have hload := hj
      unfold loadJson at hload
      split at hload <;> cases hload
      · exact .inl ⟨rfl, rfl⟩
      · exact .inr ⟨rfl, .file (.digits ht hj)⟩
    | ok v =>
      have hdocument : d.document? path = some v := by
        rw [Disk.document?, ht]
        simp [hj, Except.toOption]
      have hends : Ends (fun _ t => known.scope.Harmless (d.Faults known path) t)
          (fun e _ => e.Refuses (d.Faults known path))
          (outcome (readSchema v .root) known.scope) :=
        ends_readSchema (fun cause h => .inl (.value hdocument h)) (fun cause h => .inr h) .root
      rw [show outcome (liftM (Except.ok v : Except Error Json) >>= fun v => readSchema v .root)
        known.scope = outcome (readSchema v .root) known.scope from rfl]
      generalize outcome (readSchema v .root) known.scope = r at hends
      rcases r with ⟨e | t, s⟩
      · refine ends_throw ?_
        rcases hends.error e rfl with ⟨fault, place, line, rfl⟩ | ⟨cause, rfl, h⟩
        · exact .inl ⟨rfl, rfl⟩
        · exact .inr ⟨rfl, h.stops⟩
      · exact ends_pure (hends.result t rfl)

/-! ### Modules -/

theorem exists_of_mapM_error {α β ε : Type} {f : α → Except ε β} {as : List α} {e : ε}
    (h : as.mapM f = .error e) : ∃ a ∈ as, f a = .error e := by
  induction as with
  | nil => cases h
  | cons a as ih =>
    rw [mapM_cons] at h
    cases ha : f a with
    | error e' =>
      rw [ha] at h
      cases h
      exact ⟨a, mem_cons_self, ha⟩
    | ok b =>
      rw [ha] at h
      cases has : as.mapM f with
      | error e' =>
        rw [has] at h
        cases h
        obtain ⟨x, hx, he⟩ := ih has
        exact ⟨x, mem_cons_of_mem _ hx, he⟩
      | ok bs =>
        rw [has] at h
        cases h

/-- Types with mild fields have modules, but for the faults. -/
theorem fault_of_typeModules {c : Catalog} {ids : List TypeId} {fault : Misuse → Prop}
    (hfields : ∀ id ∈ ids, ∀ f ∈ (c.definition id).body.fields, f.type.Mild fault)
    (hknown : ∀ cause, c.Upsets cause → fault cause) (h : typeModules c o ids = .error cause) :
    fault cause := by
  obtain ⟨id, hid, h⟩ := exists_of_mapM_error h
  rw [typeModule_eq, typeUnit] at h
  exact (handsOut_typeStep o (hfields id hid) fun cause hd =>
    hknown cause (upsets_of_document hd)).fault _ cause .refl (map_eq_error.mp (map_eq_error.mp h))

/-- The errors of reading the file that is there. -/
theorem ofWriting_of_needsWriting {text : String} (h : needsWriting w.disk path text = .error e) :
    e.OfWriting w.disk := by
  unfold needsWriting at h
  split at h
  · split at h <;> cases h
    · exact .disk _ _
    · exact .encoding ‹_›
  · cases h

theorem ends_writeModules {files : List SourceFile} :
    Ends (fun _ _ => True) (fun e w' => e.OfWriting w'.disk)
      (outcome (writeModules target files) w) := by
  induction files generalizing w with
  | nil => exact ends_pure trivial
  | cons file files ih =>
    refine Ends.bind ((ends_writeModule target file .calm w).imp (fun _ _ h => h) ?_)
      fun _ _ _ => ih.bind fun _ _ _ => ends_pure trivial
    rintro _ _ (⟨hneeds, rfl⟩ | ⟨⟨fault, rfl⟩, -, -⟩)
    · exact ofWriting_of_needsWriting hneeds
    · exact .disk _ _

/-! ### Tries -/

variable {sourceRoot : Path}

/-- **The errors of a try stop the batch.** -/
theorem stops_of_attempt (h : outcome (attempt o sourceRoot target b source) w = (.error e, w')) :
    e.Stops w'.disk b.known source.path := by
  have hread := ends_readSchemaFile w.disk source.path b.known
  cases (ends_attempt o sourceRoot target b source w).of_error h with
  | read hd hr he =>
    rcases hread.of_error hr with hreported | hstops
    · exact absurd hreported.1 he
    · exact hd ▸ hstops.2
  | modules hd hr hm he =>
    have hmild := hread.of_ok hr
    have hfault := fault_of_typeModules hmild.newTypes
      (fun cause hc => .inr (hmild.aliases cause hc)) hm
    exact hd ▸ he ▸ hfault.stops
  | write _ _ _ hd hw => exact .write (hd ▸ ends_writeModules.of_error hw)

/-- A try brings in no field whose aliases are no list. -/
theorem Attempt.upsets (h : Attempt o sourceRoot target path d b again b' d')
    (hb : b'.known.catalog.Upsets cause) :
    b.known.catalog.Upsets cause := by
  cases h with
  | failed | misplaced => exact hb
  | @compiled type t files d' hread _ _ _ =>
    exact ((ends_readSchemaFile d path b.known).of_ok hread).aliases cause hb

theorem Error.Stops.of_tries (h : e.Stops d b'.known path)
    (htries : Tries o sourceRoot target b w b' w') : e.Stops d b.known path := by
  induction htries with
  | start => exact h
  | next _ htry ih =>
    refine ih ?_
    cases h with
    | write h => exact .write h
    | file h => exact .file h
    | known h he => exact .known ((yields_attempt htry).1.upsets h) he

/-- **The errors of a round stop the batch at one of its files.** -/
theorem stops_of_round (h : outcome (round o sourceRoot target b pending) w = (.error e, w')) :
    ∃ source ∈ pending, e.Stops w'.disk b.known source.path := by
  induction pending generalizing b w with
  | nil => cases h
  | cons source rest ih =>
    rw [round, outcome_bind] at h
    rcases htry : outcome (attempt o sourceRoot target b source) w with ⟨e' | ⟨again, b₁⟩, w₁⟩ <;>
      rw [htry] at h
    · cases h
      exact ⟨source, mem_cons_self, stops_of_attempt htry⟩
    · dsimp only at h
      rw [outcome_bind] at h
      rcases hrest : outcome (round o sourceRoot target b₁ rest) w₁ with ⟨e' | ⟨left, b₂⟩, w₂⟩ <;>
        rw [hrest] at h
      · cases h
        obtain ⟨other, hother, hstops⟩ := ih hrest
        exact ⟨other, mem_cons_of_mem _ hother, hstops.of_tries (Tries.start.next htry)⟩
      · cases h

/-- **The errors of all rounds stop the batch at one of its files.** -/
theorem stops_of_rounds
    (h : outcome (rounds o sourceRoot target bound pending b) w = (.error e, w')) :
    ∃ source ∈ pending, e.Stops w'.disk b.known source.path := by
  induction bound generalizing pending b w with
  | zero => cases h
  | succ bound ih =>
    rw [rounds] at h
    split at h
    · cases h
    · rw [outcome_bind] at h
      rcases hround : outcome (round o sourceRoot target b pending) w with ⟨e' | ⟨left, b₁⟩, w₁⟩ <;>
        rw [hround] at h
      · cases h
        exact stops_of_round hround
      · dsimp only at h
        split at h
        · cases h
        · obtain ⟨source, hsource, hstops⟩ := ih h
          exact ⟨source, (sublist_of_round hround).subset hsource,
            hstops.of_tries (tries_round hround)⟩

/-! ### What becomes of a file -/

/-- The file has been compiled and its modules are among those written, or it was found out of place
and this error has been put down. -/
inductive Settled (o : CompileOptions) (sourceRoot target : Path) (b₀ : Batch) (w₀ : World)
    (b : Batch) (path : Path) : Prop
  | compiled {b₁ : Batch} {w₁ : World} {type : Schema} {t : Scope} {files : List SourceFile} :
      Tries o sourceRoot target b₀ w₀ b₁ w₁ →
      Yields (Idl.readSchemaFile w₁.disk path) b₁.known.scope type t →
      checkLayout o t.catalog sourceRoot path type = none →
      typeModules t.catalog o (t.registry.newTypes b₁.known.registry.names) = .ok files →
      (∀ file ∈ files, target.join file.path ∈ b.written) →
      Settled o sourceRoot target b₀ w₀ b path
  | misplaced {b₁ : Batch} {w₁ : World} {type : Schema} {t : Scope} {e : Error} :
      Tries o sourceRoot target b₀ w₀ b₁ w₁ →
      Yields (Idl.readSchemaFile w₁.disk path) b₁.known.scope type t →
      checkLayout o t.catalog sourceRoot path type = some e → e ∈ b.errors →
      Settled o sourceRoot target b₀ w₀ b path

theorem Attempt.written (h : Attempt o sourceRoot target path d b again b' d') :
    b.written ⊆ b'.written ∧ b.errors ⊆ b'.errors := by
  cases h with
  | failed => exact ⟨List.Subset.refl _, List.Subset.refl _⟩
  | misplaced => exact ⟨List.Subset.refl _, subset_append_left _ _⟩
  | compiled => exact ⟨subset_append_left _ _, List.Subset.refl _⟩

section
variable {b₀ b b' : Batch} {w₀ w w' : World} {path : Path}

theorem Settled.next (h : Settled o sourceRoot target b₀ w₀ b path)
    (hwritten : b.written ⊆ b'.written) (herrors : b.errors ⊆ b'.errors) :
    Settled o sourceRoot target b₀ w₀ b' path := by
  cases h with
  | compiled hpre hread hlayout hm hfiles =>
    exact .compiled hpre hread hlayout hm fun file hf => hwritten (hfiles file hf)
  | misplaced hpre hread hlayout he => exact .misplaced hpre hread hlayout (herrors he)

theorem Settled.tries (h : Settled o sourceRoot target b₀ w₀ b path)
    (htries : Tries o sourceRoot target b w b' w') : Settled o sourceRoot target b₀ w₀ b' path := by
  induction htries with
  | start => exact h
  | next _ htry ih =>
    obtain ⟨hwritten, herrors⟩ := (yields_attempt htry).1.written
    exact ih.next hwritten herrors

/-- A file that is not to be tried again is settled. -/
theorem settled_of_attempt (hpre : Tries o sourceRoot target b₀ w₀ b w)
    (h : Yields (attempt o sourceRoot target b source) w (false, b') w') :
    Settled o sourceRoot target b₀ w₀ b' source.path := by
  obtain ⟨htry, -⟩ := yields_attempt h
  generalize w'.disk = d' at htry
  cases htry with
  | misplaced hread hlayout =>
    exact .misplaced hpre hread hlayout (mem_append_right _ (mem_singleton_self _))
  | compiled hread hlayout hm _ =>
    exact .compiled hpre hread hlayout hm fun file hf =>
      mem_append_right _ (mem_map_of_mem hf)

/-- **After a round each file is left or settled.** -/
theorem settled_of_round {left : List SourceInput} (hpre : Tries o sourceRoot target b₀ w₀ b w)
    (h : Yields (round o sourceRoot target b pending) w (left, b') w') :
    ∀ source ∈ pending, source ∈ left ∨ Settled o sourceRoot target b₀ w₀ b' source.path := by
  induction pending generalizing left b w with
  | nil => exact forall_mem_nil _
  | cons source rest ih =>
    obtain ⟨again, b₁, w₁, left', htry, hrest, rfl⟩ := yields_round_cons h
    have hothers := ih (hpre.next htry) hrest
    cases again with
    | false =>
      rw [forall_mem_cons]
      exact ⟨.inr ((settled_of_attempt hpre htry).tries (tries_round hrest)), hothers⟩
    | true =>
      rw [forall_mem_cons]
      exact ⟨.inl mem_cons_self,
        fun other hm => (hothers other hm).imp_left (mem_cons_of_mem _)⟩

/-- **After all rounds each file is settled or refused**: it cannot be read with the types that are
known then, and is put down with its error. -/
theorem settled_of_rounds (hb : pending.length ≤ bound) (hpre : Tries o sourceRoot target b₀ w₀ b w)
    (h : Yields (rounds o sourceRoot target bound pending b) w b' w') :
    ∀ source ∈ pending, Settled o sourceRoot target b₀ w₀ b' source.path ∨ ∃ e t,
      outcome (Idl.readSchemaFile w'.disk source.path) b'.known.scope = (.error e, t) ∧
        e.isReported = true ∧ b'.failures.lookup source.path = some e := by
  induction bound generalizing pending b w with
  | zero =>
    obtain rfl := length_eq_zero_iff.mp (Nat.le_zero.mp hb)
    exact forall_mem_nil _
  | succ bound ih =>
    rw [rounds] at h
    split at h
    · rename_i hempty
      obtain rfl := List.isEmpty_iff.mp hempty
      exact forall_mem_nil _
    · obtain ⟨⟨left, b₁⟩, w₁, hround, h⟩ := yields_bind.mp h
      dsimp only at h
      split at h
      · rename_i hlength
        obtain ⟨rfl, rfl⟩ := yields_pure.mp h
        obtain ⟨-, hknown, hdisk, -, hall⟩ := stuck_of_round hround hlength
        intro source hsource
        rw [hknown, hdisk]
        exact .inr (hall source.path (mem_map_of_mem hsource))
      · have hle := (sublist_of_round hround).length_le
        have htries := hpre.trans (tries_round hround)
        intro source hsource
        rcases settled_of_round hpre hround source hsource with hleft | hsettled
        · exact ih (by omega) htries h source hleft
        · exact .inl (hsettled.tries (tries_rounds h))

end

theorem ends_reportFailures {failures : List (Path × Error)} :
    Ends (fun _ w' => w'.disk = w.disk) (fun _ _ => False)
      (outcome (reportFailures failures) w) := by
  induction failures generalizing w with
  | nil => exact ends_pure rfl
  | cons x rest ih =>
    refine Ends.bind (Q := fun _ w₁ => w₁.disk = w.disk) (ends_pure rfl) fun _ w₁ hw₁ => ?_
    exact ih.imp (fun _ w' hw' => hw'.trans hw₁) fun _ _ h => h

/-- The file is refused with the types that are known, with an error that names it and is put
down. -/
def Batch.Refuses (b : Batch) (d : Disk) (path : Path) : Prop :=
  ∃ e t, outcome (Idl.readSchemaFile d path) b.known.scope = (.error e, t) ∧
    e.path? = some path ∧ e ∈ b.errors

/-- **A batch returns with every file compiled, found out of place or refused, or it was stopped.**
No other text of a file keeps it from the end, as long as the recursion into nested values has no
bound. -/
theorem ends_compileBatch (o : CompileOptions) (sourceRoot target : Path) (known : Snapshot)
    (files : List SourceInput) (w : World) :
    Ends (fun b w' => ∀ source ∈ files,
        Settled o sourceRoot target ⟨known, [], [], []⟩ w b source.path ∨
          b.Refuses w'.disk source.path)
      (fun e w' => ∃ source ∈ files, e.Stops w'.disk known source.path)
      (outcome (compileBatch o sourceRoot target known files) w) := by
  unfold compileBatch
  refine Ends.bind (Q := fun b w' => Yields (rounds o sourceRoot target files.length files
    ⟨known, [], [], []⟩) w b w')
      ⟨fun b hb => Prod.ext hb rfl, fun e he => ?_⟩ fun b w₁ hrounds => ?_
  · exact stops_of_rounds (Prod.ext he rfl)
  · refine Ends.bind (ends_reportFailures.imp (fun _ _ h => h) fun _ _ h => h.elim)
      fun _ w₂ hw₂ => ?_
    refine ends_pure fun source hsource => ?_
    have hend := settled_of_rounds (Nat.le_refl _) .start hrounds source hsource
    refine hend.imp (fun hs => ?_) ?_
    · exact hs.next (List.Subset.refl _) (subset_append_left _ _)
    · rintro ⟨e, t, hread, he, hlookup⟩
      refine ⟨e, t, hw₂ ▸ hread, ?_, mem_append_right _ ?_⟩
      · have hends := ends_readSchemaFile w₁.disk source.path b.known
        rw [hread] at hends
        rcases hends.error e rfl with hr | hr
        · exact hr.2
        · rw [he] at hr
          cases hr.1
      · obtain ⟨l₁, l₂, hl, -⟩ := lookup_eq_some_iff.mp hlookup
        rw [hl]
        simp

/-- Two schema files: a record with this order of its field, and a type by itself. -/
def orderDisk (order : String) : Disk :=
  let entries := [
    ("a.avsc", "\x7b\"type\":\"record\",\"name\":\"A\",\"fields\":" ++
      "[\x7b\"name\":\"x\",\"type\":\"int\",\"order\":" ++ order ++ "\x7d]\x7d"),
    ("b.avsc", "\x7b\"type\":\"fixed\",\"name\":\"G\",\"size\":1\x7d")]
  ⟨.directory [("src", .directory (entries.map fun (name, text) => (name, .file (.text text) 0)) 0)]
    0, [], 0, []⟩

/-- The two files. -/
def orderFiles : List SourceInput :=
  ["a", "b"].map fun name => ⟨⟨"", ["src", name ++ ".avsc"]⟩, .schema⟩

/-- A record with an order that there is not is refused, and the other file is compiled. -/
theorem ends_compileBatch_refused :
    ∃ b w', Yields (compileBatch {} ⟨"", ["src"]⟩ ⟨"", ["out"]⟩ .empty orderFiles)
        (.onDisk (orderDisk "\"x\"")) b w' ∧
      b.written = [⟨"", ["out", "G.py"]⟩] ∧ b.errors.length = 1 ∧
      ∀ source ∈ orderFiles,
        Settled {} ⟨"", ["src"]⟩ ⟨"", ["out"]⟩ ⟨.empty, [], [], []⟩ (.onDisk (orderDisk "\"x\"")) b
            source.path ∨
          b.Refuses w'.disk source.path := by
  have hrun : succeeds (compileBatch {} ⟨"", ["src"]⟩ ⟨"", ["out"]⟩ .empty orderFiles)
      (.onDisk (orderDisk "\"x\""))
      (fun b _ => b.written == [⟨"", ["out", "G.py"]⟩] && b.errors.length == 1) = true := by
    decide +kernel
  obtain ⟨b, w', hyields, htest⟩ := exists_of_succeeds _ _ _ hrun
  rw [Bool.and_eq_true, beq_iff_eq, beq_iff_eq] at htest
  have hends := ends_compileBatch {} ⟨"", ["src"]⟩ ⟨"", ["out"]⟩ .empty orderFiles
    (.onDisk (orderDisk "\"x\""))
  rw [show outcome _ _ = _ from hyields] at hends
  exact ⟨b, w', hyields, htest.1, htest.2, hends.result b rfl⟩

/-- The fault that stopped a batch. -/
def Batch.fault? : Except Error Batch → Option Misuse
  | .error (.misuse cause) => some cause
  | _ => none

/-- A record with an array for an order stops the batch, and the other file is not compiled. -/
theorem compileBatch_unhashable :
    ∃ w', outcome (compileBatch {} ⟨"", ["src"]⟩ ⟨"", ["out"]⟩ .empty orderFiles)
        (.onDisk (orderDisk "[]")) = (.error (.misuse (.unhashable "list")), w') ∧
      w'.disk.contains ⟨"", ["out"]⟩ = false := by
  have hrun : Batch.fault? (outcome (compileBatch {} ⟨"", ["src"]⟩ ⟨"", ["out"]⟩ .empty orderFiles)
      (.onDisk (orderDisk "[]"))).1 = some (.unhashable "list") := by
    decide +kernel
  have hdisk : (outcome (compileBatch {} ⟨"", ["src"]⟩ ⟨"", ["out"]⟩ .empty orderFiles)
      (.onDisk (orderDisk "[]"))).2.disk.contains ⟨"", ["out"]⟩ = false := by
    decide +kernel
  generalize outcome (compileBatch {} ⟨"", ["src"]⟩ ⟨"", ["out"]⟩ .empty orderFiles)
    (.onDisk (orderDisk "[]")) = r at hrun hdisk
  rcases r with ⟨r, w'⟩
  unfold Batch.fault? at hrun
  split at hrun <;> cases hrun
  rename_i cause hr
  exact ⟨w', by rw [show r = _ from hr], hdisk⟩

end Avroc
