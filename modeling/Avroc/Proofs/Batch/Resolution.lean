import Avroc.Proofs.Batch.Accounting
import Avroc.Proofs.Batch.Confluence
import Avroc.Proofs.Schema.Describing

/-!
# What the names in the files of a batch stand for

A file is compiled with the types that are known then, and more become known afterwards.  A name
without dots is looked for in the namespace around it first and then outside all namespaces, so
that a type that comes in later can take precedence over the one that the name was read as.

* `Job.Accepts.meant` : **a name stands for what it leads to in the end, or was overlooked.**
-/

namespace Avroc

open List

variable {t : Scope} {x : Path × List TypeId}

/-- A file that can be read has a document, and is read as its document is. -/
theorem document?_of_readSchemaFile {d : Disk} {path : Path} {s : Scope} {type : Schema}
    (h : Yields (Idl.readSchemaFile d path) s type t) :
    ∃ v, d.document? path = some v ∧ Yields (readSchema v .root) s type t := by
  unfold Idl.readSchemaFile at h
  rw [Disk.document?]
  cases ht : d.readSource path with
  | error e =>
    rw [ht] at h
    cases h
  | ok text =>
    rw [ht] at h
    change outcome (Idl.inFile path (readSchemaText text)) s = _ at h
    rw [outcome_inFile] at h
    split at h
    · rename_i type' t' hread
      cases h
      change outcome (readSchemaText text) s = _ at hread
      unfold readSchemaText at hread
      cases hj : loadJson text with
      | error e =>
        rw [hj] at hread
        cases hread
      | ok v =>
        rw [hj] at hread
        exact ⟨v, congrArg Except.toOption hj, hread⟩
    · cases h

namespace Job

variable {j : Job} {front back : List (Path × List TypeId)} {r final : Snapshot}

/-- Compiling goes on from a snapshot on the way as it would start from it. -/
theorem Accepts.after (h : j.Accepts front r) {rest : List (Path × List TypeId)}
    (h' : j.Accepts (front ++ rest) final) : ({ j with known := r } : Job).Accepts rest final := by
  induction rest using List.reverseRecOn generalizing final with
  | nil =>
    rw [append_nil] at h'
    rw [← h.unique h']
    exact .start
  | append_singleton rest x ih =>
    rw [← append_assoc] at h'
    obtain ⟨q, type, t, hq, hy, hplace, htypes, rfl⟩ := h'.of_concat
    have hstep := (ih hq).gain hy hplace
    rw [← htypes] at hstep
    exact hstep

/-- The name, written inside a namespace in a file, stands for the type: the type is what the name
leads to in the end, or it is what the name leads to outside all namespaces, and the namespace has
got a type of this name from one of the later files. -/
def Meant (j : Job) (final : Snapshot) (later : List Path) (name : String) (space : Option String)
    (id : TypeId) : Prop :=
  final.registry.resolve name space = some id ∨
    ∃ s, space.bind spaceOf = some s ∧ '.' ∉ name.toList ∧ final.registry.get? name = some id ∧
      j.known.registry.contains (s ++ "." ++ name) = false ∧
      ∃ path ∈ later, j.disk.Defines path (s ++ "." ++ name)

/-- **What a name led to while a file was read**: what it leads to in the end, or it was
overlooked. -/
theorem Accepts.meant (hj : j.known.scope.Solid) (hr : j.Accepts front r)
    (h : j.Accepts (front ++ x :: back) final) (ht : t.KeptIn final.scope) {name : String}
    {space : Option String} {id : TypeId} (hsee : r.scope.Sees t name space id) :
    j.Meant final ((x :: back).map (·.1)) name space id := by
  obtain ⟨q, hrq, hqt, hid⟩ := hsee
  have hlater {full : String} {id : TypeId} (hn : q.get? full = some id) :
      final.registry.get? full = some id :=
    Registry.get?_of_prefix (hqt.trans ht.entries) hn
  unfold Meant Registry.resolve at *
  split at hid
  · rename_i hdot
    rw [if_pos hdot]
    exact .inl (hlater hid)
  rename_i hdot
  rw [if_neg hdot]
  split at hid
  · rename_i s hs
    rw [hs]
    cases hq : q.get? (s ++ "." ++ name) with
    | some id' =>
      rw [hq, Option.some_or] at hid
      cases hid
      exact .inl (by rw [hlater hq, Option.some_or])
    | none =>
      rw [hq, Option.none_or] at hid
      cases hf : final.registry.get? (s ++ "." ++ name) with
      | none => exact .inl (by rw [Option.none_or, hlater hid])
      | some id' =>
        -- the name in the namespace has come in since the file was begun
        have hnew : r.registry.contains (s ++ "." ++ name) = false := by
          rw [Registry.contains_eq_false_iff, Option.eq_none_iff_forall_ne_some]
          intro id hid
          rw [Registry.get?_of_prefix hrq hid] at hq
          cases hq
        have hknown : j.known.registry.contains (s ++ "." ++ name) = false :=
          Bool.eq_false_iff.mpr fun hc => Bool.eq_false_iff.mp hnew ((hr.kept hj).contains hc)
        have hfinal : final.registry.contains (s ++ "." ++ name) = true := by
          rw [Registry.contains, hf]
          rfl
        rcases (hr.after h).namesFrom (hr.solid hj) _ hfinal with hold | ⟨y, hy, hdefines⟩
        · exact absurd hold (Bool.eq_false_iff.mp hnew)
        · exact .inr ⟨s, rfl, by simpa using hdot, hlater hid, hknown, y.1,
            mem_map_of_mem hy, hdefines⟩
  · rename_i hs
    rw [hs]
    exact .inl (hlater hid)

/-- A compiled file is described by its document. -/
theorem Accepts.describes (hj : j.known.scope.Solid) (h : j.Accepts (front ++ x :: back) final) :
    ∃ v type, j.disk.document? x.1 = some v ∧
      Describes final.catalog final.registry (j.Meant final ((x :: back).map (·.1))) v .root
        type := by
  have hpre : front ++ [x] <+: front ++ x :: back := ⟨back, by simp⟩
  obtain ⟨u, hu⟩ := h.exists_of_isPrefix hpre
  obtain ⟨r, type, t, hr, hread, -, -, rfl⟩ := hu.of_concat
  have ht : t.KeptIn final.scope := by
    have hk := hu.kept_of_isPrefix hj h hpre
    exact ⟨hk.size, hk.definition, hk.entries, hk.checksNames, hk.checksDefaults⟩
  obtain ⟨v, hv, hread⟩ := document?_of_readSchemaFile hread
  have hheld : r.scope.HeldIn t final.catalog final.registry :=
    ⟨fun id _ hlt => ht.definition id hlt, ht.entries⟩
  exact ⟨v, type, hv, (describes_of_readSchema hread hheld).imp fun _ _ _ hsee =>
    hr.meant hj h ht hsee⟩

end Job

/-- **What the names in the files of a batch stand for.**  If the batch returns, every file has been
compiled or has an error, and a compiled file has the form of its document: its definitions are
known under their full names, and every name that it refers to stands for what it leads to in the
end, unless it was read as a type outside all namespaces before this file or a later one brought a
type of the name into the namespace around it. -/
theorem compileBatch_resolves (o : CompileOptions) (sourceRoot target : Path) {known : Snapshot}
    (hknown : known.scope.Solid) {files : List SourceInput} (hnd : (files.map (·.path)).Nodup)
    (hs : ∀ source ∈ files, source.path.suffix = ".avsc") {w w' : World} {b : Batch}
    (h : Yields (compileBatch o sourceRoot target known files) w b w') :
    ∃ compiled : List (Path × List TypeId),
      (⟨o, sourceRoot, w'.disk, known⟩ : Job).Accepts compiled b.known ∧
      (compiled.map (fun x => some x.1) ++ b.errors.map Error.path?).Perm
        (files.map fun source => some source.path) ∧
      ∀ front x back, compiled = front ++ x :: back → ∃ v type,
        w'.disk.document? x.1 = some v ∧
        Describes b.known.catalog b.known.registry
          (Job.Meant ⟨o, sourceRoot, w'.disk, known⟩ b.known ((x :: back).map (·.1))) v .root
          type := by
  obtain ⟨-, compiled, errors, modules, hsettles, herrors, -⟩ :=
    settles_compileBatch hknown hnd hs h
  refine ⟨compiled, hsettles.accepts, ?_, ?_⟩
  · have hpaths := hsettles.each_once hknown
    rw [herrors, map_map]
    rwa [map_map] at hpaths
  · rintro front x back rfl
    exact hsettles.accepts.describes hknown

/-! ### A name that is overlooked -/

/-- A type outside all namespaces, a record in a namespace that refers to a type of this name, and a
type of the name in the namespace. -/
def overlookedDisk : Disk :=
  let entries := [
    ("a.avsc", "\x7b\"type\":\"fixed\",\"name\":\"T\",\"size\":1\x7d"),
    ("b.avsc",
      "\x7b\"type\":\"record\",\"name\":\"p.R\",\"fields\":[" ++
        "\x7b\"name\":\"x\",\"type\":\"T\"\x7d]\x7d"),
    ("c.avsc", "\x7b\"type\":\"fixed\",\"name\":\"p.T\",\"size\":2\x7d")]
  ⟨.directory (entries.map fun (name, text) => (name, .file (.text text) 0)) 0, [], 0, []⟩

/-- The files of the disk. -/
def overlookedFiles : List SourceInput :=
  ["a", "b", "c"].map fun name => ⟨⟨"", [name ++ ".avsc"]⟩, .schema⟩

theorem compileBatch_resolves_overlooked :
    ∃ b w', Yields (compileBatch {} ⟨"", []⟩ ⟨"", ["out"]⟩ .empty overlookedFiles)
        (.onDisk overlookedDisk) b w' ∧ b.known.registry.names = ["T", "p.R", "p.T"] ∧
      ∃ compiled : List (Path × List TypeId),
        (compiled.map (fun x => some x.1) ++ b.errors.map Error.path?).Perm
          (overlookedFiles.map fun source => some source.path) ∧
        ∀ front x back, compiled = front ++ x :: back → ∃ v type,
          w'.disk.document? x.1 = some v ∧
          Describes b.known.catalog b.known.registry
            (Job.Meant ⟨{}, ⟨"", []⟩, w'.disk, .empty⟩ b.known ((x :: back).map (·.1))) v .root
            type := by
  obtain ⟨b, w', h, htest⟩ := exists_of_succeeds
    (compileBatch {} ⟨"", []⟩ ⟨"", ["out"]⟩ .empty overlookedFiles) (.onDisk overlookedDisk)
    (fun b _ => b.known.registry.names == ["T", "p.R", "p.T"]) (by decide +kernel)
  obtain ⟨compiled, -, hrest⟩ := compileBatch_resolves {} ⟨"", []⟩ ⟨"", ["out"]⟩
    Snapshot.solid_empty (by decide) (by decide) h
  exact ⟨b, w', h, beq_iff_eq.mp htest, compiled, hrest⟩

/-- A name of a compiled file can stand for another type than the one that it leads to in the
end. -/
theorem compileBatch_overlooks :
    ∃ b w', Yields (compileBatch {} ⟨"", []⟩ ⟨"", ["out"]⟩ .empty overlookedFiles)
        (.onDisk overlookedDisk) b w' ∧
      b.errors.length = 0 ∧ (b.known.catalog.definition ⟨1⟩).fullName = "p.R" ∧
      (b.known.catalog.definition ⟨1⟩).body.fields.map (·.type.branchKey b.known.catalog) =
        ["T"] ∧
      (b.known.registry.resolve "T" (some "p")).map b.known.catalog.fullName = some "p.T" := by
  obtain ⟨b, w', h, htest⟩ := exists_of_succeeds
    (compileBatch {} ⟨"", []⟩ ⟨"", ["out"]⟩ .empty overlookedFiles) (.onDisk overlookedDisk)
    (fun b _ => decide (b.errors.length = 0 ∧ (b.known.catalog.definition ⟨1⟩).fullName = "p.R" ∧
      (b.known.catalog.definition ⟨1⟩).body.fields.map (·.type.branchKey b.known.catalog) =
        ["T"] ∧
      (b.known.registry.resolve "T" (some "p")).map b.known.catalog.fullName = some "p.T"))
    (by decide +kernel)
  exact ⟨b, w', h, of_decide_eq_true htest⟩

end Avroc
