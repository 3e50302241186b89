import Avroc.Proofs.Batch.Run

/-!
# What becomes of the files of a batch

* `compileBatch_accounts` : **a batch comes to an end, and accounts for every file, every name and
  every module.**
-/

namespace Avroc

open List

variable {j : Job} {paths : List Path} {compiled : List (Path × List TypeId)}
  {errors : List (Path × Error)} {final : Snapshot}

theorem Settles.path?_eq (h : Settles j paths compiled errors final) (hj : j.known.scope.Solid) :
    ∀ x ∈ errors, x.2.path? = some x.1 := by
  intro x hx
  rcases h.errors x hx with ⟨_, _, type, t, -, -, -, he⟩ | ⟨he, hread⟩
  · obtain ⟨_, _, heq⟩ := Job.path?_of_misplaced? he
    rw [heq]
    rfl
  · rcases hr : outcome (j.read x.1) final.scope with ⟨r, t⟩
    rw [hr] at hread
    subst hread
    exact path?_of_readSchemaFile (h.accepts.solid hj) hr he

/-- Every file is compiled or has one error, which names it. -/
theorem Settles.each_once {files : List SourceInput}
    (h : Settles j (files.map (·.path)) compiled errors final) (hj : j.known.scope.Solid) :
    (compiled.map (fun x => some x.1) ++ (errors.map (·.2)).map Error.path?).Perm
      (files.map fun source => some source.path) := by
  have hsome : errors.map (fun x => x.2.path?) = errors.map fun x => some x.1 :=
    map_congr_left (h.path?_eq hj)
  have hperm := h.perm.map some
  rw [map_append, map_map, map_map, map_map] at hperm
  rw [map_map]
  exact hsome ▸ hperm

/-- **A batch comes to an end, and accounts for its files.**  More rounds than files are never
needed.  If the batch returns, every file has been compiled or has exactly one error with its path;
the names are those of the start and the full names of the types of the compiled files, in the order
of compilation; what has been written are the modules of these types in that order; and a file that
could not be read has the same error with the types that are known in the end. -/
theorem compileBatch_accounts (o : CompileOptions) (sourceRoot target : Path) (known : Snapshot)
    (files : List SourceInput) (w : World) (hknown : known.scope.Solid)
    (hnd : (files.map (·.path)).Nodup) (hs : ∀ source ∈ files, source.path.suffix = ".avsc") :
    (∀ bound b, files.length ≤ bound → outcome (rounds o sourceRoot target bound files b) w =
      outcome (rounds o sourceRoot target files.length files b) w) ∧
    ∀ b w', Yields (compileBatch o sourceRoot target known files) w b w' →
      ∃ compiled : List (Path × List TypeId),
        (⟨o, sourceRoot, w'.disk, known⟩ : Job).Accepts compiled b.known ∧
        (compiled.map (fun x => some x.1) ++ b.errors.map Error.path?).Perm
          (files.map fun source => some source.path) ∧
        b.known.registry.names =
          known.registry.names ++ (compiled.flatMap (·.2)).map b.known.catalog.fullName ∧
        b.written = (compiled.flatMap (·.2)).map
          (fun id => target.join (modulePath (b.known.catalog.fullName id))) ∧
        ∀ e ∈ b.errors, (∃ path expected fullName, e = .layout path expected fullName) ∨
          ∃ source ∈ files, e.path? = some source.path ∧
            (outcome (Idl.readSchemaFile w'.disk source.path) b.known.scope).1 = .error e := by
  refine ⟨fun bound b hb => outcome_rounds hb b w, fun b w' h => ?_⟩
  obtain ⟨-, compiled, errors, modules, hsettles, herrors, hmodules, -, hwritten⟩ :=
    settles_compileBatch hknown hnd hs h
  refine ⟨compiled, hsettles.accepts, ?_, hsettles.accepts.names hknown, ?_, fun e he => ?_⟩
  · rw [herrors]
    exact hsettles.each_once hknown
  · have hjoin := congrArg (List.map target.join) (paths_of_forall₂ hmodules)
    simp only [map_map, Function.comp_def] at hjoin
    rw [hwritten, hjoin]
  · rw [herrors] at he
    obtain ⟨x, hx, rfl⟩ := mem_map.mp he
    rcases hsettles.errors x hx with ⟨_, _, type, t, -, -, -, he⟩ | ⟨-, hread⟩
    · obtain ⟨expected, fullName, heq⟩ := Job.path?_of_misplaced? he
      exact .inl ⟨_, expected, fullName, heq⟩
    · have hm := hsettles.perm.subset (mem_append_right _ (mem_map_of_mem hx))
      obtain ⟨source, hsource, hpath⟩ := mem_map.mp hm
      refine .inr ⟨source, hsource, ?_, ?_⟩
      · rw [hsettles.path?_eq hknown x hx, hpath]
      · rw [hpath]
        exact hread

/-- Four schema files: the first refers to the type of the second, the third is no JSON, and the
fourth does not lie where its type belongs. -/
def mixedDisk : Disk :=
  let entries := [
    ("A.avsc",
      "\x7b\"type\":\"record\",\"name\":\"A\",\"fields\":[" ++
        "\x7b\"name\":\"b\",\"type\":\"B\"\x7d]\x7d"),
    ("B.avsc", "\x7b\"type\":\"fixed\",\"name\":\"B\",\"size\":2\x7d"),
    ("C.avsc", "\x7b"),
    ("D.avsc", "\x7b\"type\":\"fixed\",\"name\":\"E\",\"size\":2\x7d")]
  ⟨.directory [("src", .directory (entries.map fun (name, text) => (name, .file (.text text) 0)) 0)]
    0, [], 0, []⟩

/-- The files of the directory. -/
def mixedFiles : List SourceInput :=
  ["A", "B", "C", "D"].map fun name => ⟨⟨"", ["src", name ++ ".avsc"]⟩, .schema⟩

theorem compileBatch_accounts_retry :
    ∃ b w', Yields (compileBatch { checksLayout := true } ⟨"", ["src"]⟩ ⟨"", ["out"]⟩ .empty
        mixedFiles) (.onDisk mixedDisk) b w' ∧
      b.known.registry.names = ["B", "A"] ∧ b.errors.length = 2 ∧
      ∃ compiled : List (Path × List TypeId),
        (compiled.map (fun x => some x.1) ++ b.errors.map Error.path?).Perm
          (mixedFiles.map fun source => some source.path) ∧
        b.written = (compiled.flatMap (·.2)).map
          (fun id => (⟨"", ["out"]⟩ : Path).join (modulePath (b.known.catalog.fullName id))) := by
  have hrun : succeeds (compileBatch { checksLayout := true } ⟨"", ["src"]⟩ ⟨"", ["out"]⟩
      .empty mixedFiles) (.onDisk mixedDisk)
      (fun b _ => b.known.registry.names == ["B", "A"] && b.errors.length == 2) = true := by
    decide +kernel
  obtain ⟨b, w', hyields, htest⟩ := exists_of_succeeds _ _ _ hrun
  rw [Bool.and_eq_true, beq_iff_eq, beq_iff_eq] at htest
  obtain ⟨compiled, -, hperm, -, hwritten, -⟩ := (compileBatch_accounts { checksLayout := true }
    ⟨"", ["src"]⟩ ⟨"", ["out"]⟩ .empty mixedFiles (.onDisk mixedDisk) Snapshot.solid_empty
    (by decide) (by decide)).2 b w' hyields
  exact ⟨b, w', hyields, htest.1, htest.2, compiled, hperm, hwritten⟩

end Avroc
