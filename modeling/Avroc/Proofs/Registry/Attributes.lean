import Avroc.Proofs.File.Modules
import Avroc.Proofs.Registry.Closure

/-!
# The attributes of registered types

Documents in JSON are read with checks for orders, aliases and sizes.  The definition language takes
these attributes as they are written, so a registry keeps the rules for them as long as the texts
that are read in it do.

* `registeredTypes_ruled` : **the attributes of all types that are read.**
-/

namespace Avroc

open List

/-- **The attributes of all types that are read**, whatever documents are read in a registry that
starts empty, in whatever order and whether they are refused or not.  If the texts of the definition
language among them, and those on their disks, write legal attributes only, then every type of the
registry has texts for aliases, a size that is not negative if it is a fixed type, and fields with
legal orders and texts for aliases; and so have the parameters of the messages.  Documents in JSON
may be any. -/
theorem registeredTypes_ruled (s : Scope) (hempty : s.registry.entries = [])
    (calls : List ParseCall) (hcalls : ∀ call ∈ calls, call.WritesLegally) :
    let s' := (ParseCall.runAll calls s).2
    (∀ id ∈ s'.registry.types, (s'.catalog.definition id).Ruled) ∧
      ∀ r ∈ ParseCall.successes (ParseCall.runAll calls s).1, r.Ruled := by
  intro s'
  obtain ⟨hbuilds, hresults⟩ :=
    ParseCall.leads_legals (Scope.orderly_of_empty hempty) fun _ : True => hcalls
  have hruled : s'.RuledFrom s.catalog.size := hbuilds.ruled trivial fun id hbase hid =>
    absurd hid (Nat.not_lt_of_le hbase)
  refine ⟨fun id hid => ?_, fun r hr => (hresults r (ParseCall.mem_successes hr)).2 trivial⟩
  -- nothing was registered at the start, so the type is one of those defined since
  refine hruled id (Nat.le_of_not_lt fun hlt => ?_) (hbuilds.orderly.keyed.get?_fullName hid).1
  have hold := hbuilds.mem_types hid hlt
  rw [Registry.types, hempty] at hold
  cases hold

/-- The disk with one file. -/
def lonelyFileDisk (name text : String) : Disk :=
  ⟨.directory [(name, .file (.text text) 0)] 0, [], 0, []⟩

theorem filesAreLegal_lonelyFileDisk {name text : String}
    (h : Idl.textIsLegal (String.ofList (Text.unifyNewlines text.toList)) = true) :
    Idl.FilesAreLegal (lonelyFileDisk name text) := by
  intro path shown hread
  have hshown : (lonelyFileDisk name text).readText path = .ok shown := by
    rw [Disk.readSource] at hread
    split at hread
    · rename_i s hs
      rw [hs, Except.ok.inj hread]
    · cases hread
  obtain ⟨content, hcontent, s, hs, rfl⟩ := Disk.readText_eq_ok.mp hshown
  obtain ⟨place, time, -, hk⟩ := Disk.readContent_eq_ok.mp hcontent
  -- the only place with a file is the one in the root
  cases place with
  | nil => cases hk
  | cons first rest =>
    rw [Node.kind?_cons, Option.bind_eq_some_iff] at hk
    obtain ⟨node, hnode, hk⟩ := hk
    have hfile : node = .file (.text text) 0 := by
      rw [show (lonelyFileDisk name text).root.entries = [(name, .file (.text text) 0)] from rfl,
        lookup_cons] at hnode
      split at hnode <;> cases hnode
      rfl
    subst hfile
    cases rest with
    | nil =>
      cases hk
      cases hs
      exact h
    | cons => cases hk

/-- A file of the definition language with an enum that has an alias. -/
def aliasedEnumDisk : Disk :=
  lonelyFileDisk "e" "protocol Q\x7b@aliases([\"D\"])enum E\x7b\x7d\x7d"

/-- A document with an alias, and a text with an import, a size, an order and aliases. -/
def attributed : List ParseCall :=
  [.schema "\x7b\"type\":\"fixed\",\"name\":\"S\",\"size\":2,\"aliases\":[\"T\"]\x7d",
    .idl aliasedEnumDisk none ("protocol P\x7bimport idl \"e\";fixed F(9);" ++
      "record R\x7bF @order(\"ignore\")@aliases([\"z\"])x;\x7d\x7d")]

theorem registeredTypes_ruled_attributed :
    let s := Scope.initial true true
    let s' := (ParseCall.runAll attributed s).2
    (s.registry.entries = [] ∧ ∀ call ∈ attributed, call.WritesLegally) ∧
      ((ParseCall.runAll attributed s).1.map (·.isOk) = [true, true] ∧
        s'.registry.names = ["S", "E", "F", "R"]) ∧
      (∀ id ∈ s'.registry.types, (s'.catalog.definition id).Ruled) ∧
        ∀ r ∈ ParseCall.successes (ParseCall.runAll attributed s).1, r.Ruled := by
  intro s s'
  have hlegal : ∀ call ∈ attributed, call.WritesLegally := by
    refine forall_mem_cons.mpr ⟨trivial, forall_mem_singleton.mpr ⟨?_, ?_⟩⟩
    · decide +kernel
    · exact filesAreLegal_lonelyFileDisk (by decide +kernel)
  exact ⟨⟨rfl, hlegal⟩, by decide +kernel, registeredTypes_ruled s rfl attributed hlegal⟩

/-- A fixed type with a negative size, a field with an order that there is not, and an enum and a
field whose aliases are numbers. -/
def lawlessText : String :=
  "protocol P \x7b fixed F(-1); record R \x7b int @order(\"sideways\") x; \x7d " ++
    "@aliases([1]) enum E \x7b A \x7d record S \x7b int @aliases([2]) y; \x7d \x7d"

theorem registeredTypes_lawless :
    ∃ p s', Yields (Idl.readIdl ⟨.directory [] 0, [], 0, []⟩ none lawlessText)
      (.initial true true) p s' ∧ s'.registry.names = ["F", "R", "E", "S"] ∧
      ∀ id ∈ s'.registry.types, ¬ (s'.catalog.definition id).Ruled := by
  have hread : succeeds (Idl.readIdl ⟨.directory [] 0, [], 0, []⟩ none lawlessText)
      (.initial true true)
      (fun _ s' => decide (s'.registry.names = ["F", "R", "E", "S"] ∧
        ∀ id ∈ s'.registry.types, ¬ (s'.catalog.definition id).Ruled)) = true := by
    decide +kernel
  obtain ⟨p, s', hp, htest⟩ := exists_of_succeeds _ _ _ hread
  exact ⟨p, s', hp, of_decide_eq_true htest⟩

end Avroc
