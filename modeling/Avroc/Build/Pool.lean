import Avroc.Build.Directory
import Avroc.Registry.Pool

/-!
# Compiling with the registries of a pool

A compilation starts from the types of a registry: one that is named, or else a copy of the shared
one.  A named registry gets the types of the schema files that are compiled, also of those before a
failure.
-/

namespace Avroc

/-- Compiles a directory, starting from the types of a registry of the pool or else from those of
the shared one: what it brings, the disk after it and the pool after it. -/
def Pool.compile (p : Pool) (disk : Disk) (o : CompileOptions) (source target : Path)
    (start : Option RegistryId) : Except Error Compilation × Disk × Pool :=
  let known := p.registry (start.getD p.shared)
  let w : World := ⟨disk, p.catalog, p.registry p.shared, p.log, ⟨p.catalog, known⟩⟩
  let (result, w) := (compileDirectory o source target known).run w
  let p := { p.update p.shared w.shared with catalog := w.learned.catalog, log := w.log }
  let p := match start with
    | some id => p.update id w.learned.registry
    | none => p
  (result.map (·.1), w.disk, p)

end Avroc
