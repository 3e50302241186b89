import Avroc.Schema.Scope

/-!
# Pools of registries

Several registries over one catalog.  A registry has an identity, so that it can be shared, and
one of them is shared by all compilations; resetting puts a new one in its place and leaves the
old one to those who hold it.

* `Pool.create`, `Pool.snapshot` : a new registry, and a copy of one.
* `Pool.reset` : a new shared registry.
-/

namespace Avroc

/-- The identity of a registry. -/
structure RegistryId where
  index : Nat
deriving DecidableEq, Repr, Inhabited

/-- Registries over one catalog. -/
structure Pool where
  catalog : Catalog
  registries : List Registry
  /-- The registry that compilations take their types from. -/
  shared : RegistryId
  log : List LogRecord
deriving Inhabited

namespace Pool

def initial : Pool :=
  ⟨.empty, [.empty], ⟨0⟩, []⟩

def registry (p : Pool) (id : RegistryId) : Registry :=
  p.registries.getD id.index .empty

/-- The pool with a registry changed. -/
def update (p : Pool) (id : RegistryId) (r : Registry) : Pool :=
  { p with registries := p.registries.set id.index r }

def create (p : Pool) (r : Registry) : RegistryId × Pool :=
  (⟨p.registries.length⟩, { p with registries := p.registries ++ [r] })

def snapshot (p : Pool) (id : RegistryId) : RegistryId × Pool :=
  p.create (p.registry id)

def reset (p : Pool) : Pool :=
  let (id, p) := p.create .empty
  { p with shared := id, log := p.log ++ [⟨.registry, .info, "Type registry reset"⟩] }

/-- Runs a step of reading in a registry. -/
def run {α : Type} (p : Pool) (id : RegistryId) (step : Reading α) : Except Error α × Pool :=
  let (result, scope) := step.run ⟨p.catalog, p.registry id, p.log⟩
  (result, { p.update id scope.registry with catalog := scope.catalog, log := scope.log })

/-- Enters a type in a registry, unless its full name is taken. -/
def define (p : Pool) (id : RegistryId) (type : TypeId) : Except Error Pool :=
  let name := p.catalog.fullName type
  match (p.registry id).define name type with
  | .error fault => .error (.parse fault none none)
  | .ok r =>
    let record : LogRecord := ⟨.registry, .debug, "Defined type " ++ name⟩
    .ok { p.update id r with log := p.log ++ [record] }

/-- Enters types in a registry, in place of those of the same full names. -/
def addTypes (p : Pool) (id : RegistryId) (types : List TypeId) : Pool :=
  p.update id ((p.registry id).addAll p.catalog types)

end Pool

end Avroc
