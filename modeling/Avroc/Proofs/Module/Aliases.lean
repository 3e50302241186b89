import Avroc.Proofs.Module.Handing
import Avroc.Proofs.Module.Members

/-!
# Aliases of libraries

A module uses libraries under aliases, which are chosen one by one while its text is written.  The
class of the module may bind any names, legal or not; no alias is one of them.

* `aliases_unshadowed` : **aliases are found, different, and bound by no class.**
-/

namespace Avroc

open List

variable {o : CompileOptions} {t t' : ImportTable} {className n : String} {library : Library}
  {names reserved : List String} {m : Nat}

/-! ### Aliases and members -/

/-- The alias of a library with a number of underscores after it. -/
def Library.aliasAt (library : Library) (m : Nat) : String :=
  underlined ("_" ++ library.name) m

theorem Library.toList_aliasAt (library : Library) (m : Nat) :
    (library.aliasAt m).toList = '_' :: (library.name.toList ++ List.replicate m '_') := by
  simp [Library.aliasAt]

theorem Library.underscore_notMem_name (library : Library) : '_' ∉ library.name.toList := by
  cases library <;> decide

/-- Different libraries have different aliases: the underscores at the end do not matter. -/
theorem Library.aliasAt_inj {other : Library} {k : Nat} (h : library.aliasAt m = other.aliasAt k) :
    library = other := by
  have hstem : ∀ (library : Library) (m : Nat),
      (library.aliasAt m).toList.reverse.dropWhile (· = '_') =
        ("_" ++ library.name).toList.reverse := by
    intro library m
    rw [aliasAt, toList_underlined, reverse_append, reverse_replicate,
      dropWhile_append_of_pos (by simp)]
    cases library <;> rfl
  have hname := hstem library m
  rw [h, hstem other k] at hname
  revert hname
  cases library <;> cases other <;> decide

/-- A name that does not start with one underscore is no alias. -/
theorem Library.aliasAt_ne (h : n.toList.head? ≠ some '_' ∨ n.toList[1]? = some '_') :
    library.aliasAt m ≠ n := by
  rintro rfl
  rw [library.toList_aliasAt] at h
  cases library <;> simp [Library.name] at h

theorem alias_notMem_memberNames {body : Body} (h : library.aliasAt m ∉ boundNames o body) :
    library.aliasAt m ∉ memberNames o body := by
  have hmethod : library.aliasAt m ≠ "avro_schema" := Library.aliasAt_ne (by decide)
  cases body with
  | record isError fields =>
    rw [memberNames, mem_append, mem_cons, not_or, not_or]
    refine ⟨h, hmethod, fun hm => ?_⟩
    obtain ⟨f, -, hf⟩ := mem_flatMap.mp hm
    have hmem : library.aliasAt m ∈ [f.name].flatMap accessorNames := by simpa using hf
    have hhead := head?_accessor hmem
    rw [library.toList_aliasAt] at hhead
    simp at hhead
  | enum symbols default =>
    rw [memberNames, mem_append, mem_singleton, not_or]
    exact ⟨h, hmethod⟩
  | fixed size =>
    simp only [memberNames, mem_cons, not_mem_nil, or_false, not_or]
    exact ⟨Library.aliasAt_ne (by decide), Library.aliasAt_ne (by decide), hmethod⟩

/-- A mangled name is no alias: what is mangled starts with two underscores but does not end with
two, and only the underscores at the end of an alias stand side by side. -/
theorem eq_alias_of_mangled (h : mangled className n = library.aliasAt m) :
    n = library.aliasAt m := by
  unfold mangled at h
  dsimp only at h
  split at h
  · rename_i hcond
    obtain ⟨⟨rest, hrest⟩, hsuffix, -⟩ := hcond
    have htext := congrArg String.toList h
    rw [String.toList_append, String.toList_ofList, cons_append, Library.toList_aliasAt] at htext
    have hall : ∀ c ∈ n.toList, c = '_' := by
      intro c hc
      rcases append_eq_append_iff.mp (cons.inj htext).2 with ⟨x, hname, hx⟩ | ⟨x, -, hx⟩
      · cases x with
        | nil => exact eq_of_mem_replicate (hx ▸ hc)
        | cons d x =>
          rw [← hrest] at hx
          obtain rfl : '_' = d := (cons.inj hx).1
          exact absurd (hname ▸ mem_append_right _ mem_cons_self) library.underscore_notMem_name
      · exact eq_of_mem_replicate (hx ▸ mem_append_right _ hc)
    refine absurd ?_ hsuffix
    rw [eq_replicate_of_mem hall, ← hrest]
    exact ⟨List.replicate rest.length '_', by simp [replicate_succ']⟩
  · exact h

/-! ### Tables -/

namespace ImportTable

/-- The libraries in the table are different, and each has one of its aliases, which is not
reserved. -/
structure Aliased (t : ImportTable) (reserved : List String) : Prop where
  kept : t.reserved = reserved
  libraries : (t.aliases.map (·.1)).Nodup
  fresh : ∀ a ∈ t.aliases, (∃ m, a.2 = a.1.aliasAt m) ∧ a.2 ∉ reserved

namespace Aliased

theorem withLibrary (h : t.Aliased reserved) (library : Library) (needed : Bool) :
    (t.withLibrary library needed).2.Aliased reserved := by
  obtain ⟨needs, ⟨name, -, he⟩ | ⟨hnew, he⟩⟩ := t.withLibrary_cases library needed <;> rw [he]
  · exact ⟨h.kept, h.libraries, h.fresh⟩
  · obtain ⟨m, halias, hfree, -⟩ := t.freshAlias_cases library
    refine ⟨h.kept, ?_, forall_mem_append.mpr ⟨h.fresh, forall_mem_singleton.mpr
      ⟨⟨m, halias⟩, h.kept ▸ hfree⟩⟩⟩
    rw [map_append, nodup_append]
    refine ⟨h.libraries, by simp, fun a ha b hb hab => ?_⟩
    obtain ⟨x, hx, rfl⟩ := mem_map.mp ha
    exact hnew x hx (hab.trans (mem_singleton.mp hb))

theorem withReference (h : t.Aliased reserved) (d : Definition) :
    (t.withReference d).2.Aliased reserved := by
  rcases t.withReference_cases d with (⟨-, he⟩ | ⟨name, -, he⟩) | ⟨-, he⟩ <;> rw [he]
  · exact h
  · exact h
  · exact ⟨h.kept, h.libraries, h.fresh⟩

end Aliased

/-- **Handing out names keeps aliases apart from what is reserved.** -/
theorem Hands.aliased {c : Catalog} {named : TypeId → Prop} (h : t.Hands c named t')
    (ht : t.Aliased reserved) : t'.Aliased reserved := by
  induction h with
  | refl => exact ht
  | library library needed _ ih => exact ih.withLibrary library needed
  | reference _ _ ih => exact ih.withReference _

/-- The libraries of the table have different aliases, none of which the class binds: neither is one
the name of a member, nor what that is mangled to. -/
structure Unshadowed (t : ImportTable) (className : String) (names : List String) : Prop where
  libraries : (t.aliases.map (·.1)).Nodup
  aliases : (t.aliases.map (·.2)).Nodup
  members : ∀ a ∈ t.aliases, a.2 ∉ names ∧ a.2 ∉ names.map (mangled className)

theorem Aliased.unshadowed (h : t.Aliased reserved)
    (hnames : ∀ (library : Library) m, library.aliasAt m ∉ reserved → library.aliasAt m ∉ names)
    (className : String) : t.Unshadowed className names := by
  refine ⟨h.libraries, h.libraries.of_map.map_on fun a ha b hb hab => ?_, fun a ha => ?_⟩
  · obtain ⟨⟨m, hm⟩, -⟩ := h.fresh a ha
    obtain ⟨⟨k, hk⟩, -⟩ := h.fresh b hb
    exact inj_on_of_nodup_map h.libraries ha hb (Library.aliasAt_inj (hm ▸ hk ▸ hab))
  · obtain ⟨⟨m, hm⟩, hfree⟩ := h.fresh a ha
    rw [hm] at hfree ⊢
    have hmembers := hnames a.1 m hfree
    refine ⟨hmembers, fun hmangled => ?_⟩
    obtain ⟨n, hn, he⟩ := mem_map.mp hmangled
    exact hmembers (eq_alias_of_mangled he ▸ hn)

end ImportTable

/-! ### Modules -/

/-- Whatever a type is, its hint may refer to it. -/
theorem Schema.mentions_true (t : Schema) : t.Mentions (fun _ => True) fun _ => True := by
  induction t using nestedInduction with
  | primitive kind props => exact .primitive fun _ _ => trivial
  | array items props ih => exact .array ih
  | map values props ih => exact .map ih
  | union branches ih => exact .union ih
  | named id => exact .named trivial

section
variable {c : Catalog} {u : SourceFile × ImportTable}

theorem unshadowed_of_typeUnit {id : TypeId} (h : typeUnit c o id = .ok u) :
    u.2.Unshadowed (c.definition id).name (memberNames o (c.definition id).body) := by
  have hhands := (handsOut_typeStep o (fun f _ => f.type.mentions_true)
    fun _ _ => trivial).result _ _ _ .refl (run_of_typeUnit h).2
  refine (hhands.2.aliased ⟨rfl, nodup_nil, forall_mem_nil _⟩).unshadowed (fun library m => ?_) _
  exact alias_notMem_memberNames

theorem unshadowed_of_interfaceUnit {p : Protocol} (h : interfaceUnit c o p = .ok u) :
    u.2.Unshadowed p.name (interfaceNames p) := by
  have hhands := (handsOut_interfaceModule o (fun _ _ f _ => f.type.mentions_true)
    (fun m _ => m.response.mentions_true) (fun _ _ _ _ => trivial)
    fun _ _ => trivial).result _ _ _ .refl (run_of_interfaceUnit h).2
  refine (hhands.2.aliased ⟨rfl, nodup_nil, forall_mem_nil _⟩).unshadowed (fun library m hm => ?_) _
  rw [interfaceNames, mem_append, mem_singleton, not_or]
  exact ⟨hm, Library.aliasAt_ne (by decide)⟩

end

/-- **Aliases of libraries are never shadowed**, whatever names the fields, symbols and messages
have.  The choice of an alias ends with the first one that is not taken, after at most as many
rounds as there are names taken; and in the module of a type or a protocol, for all options, the
aliases are different, and no member of the class has one of them as its name. -/
theorem aliases_unshadowed (c : Catalog) (o : CompileOptions) :
    (∀ (t : ImportTable) (library : Library), ∃ m ≤ (t.reserved ++ t.locals.map (·.1)).length,
      t.freshAlias library = library.aliasAt m ∧
      library.aliasAt m ∉ t.reserved ++ t.locals.map (·.1) ∧
      ∀ k < m, library.aliasAt k ∈ t.reserved ++ t.locals.map (·.1)) ∧
    (∀ id file, typeModule c o id = .ok file → ∃ t, typeUnit c o id = .ok (file, t) ∧
      EndsWithClass file.content (c.definition id).name (memberNames o (c.definition id).body) ∧
      t.Unshadowed (c.definition id).name (memberNames o (c.definition id).body)) ∧
    ∀ p files, protocolModules c o p = .ok files → ∃ types interface t,
      typeModules c o p.types = .ok types ∧ files = types ++ [interface] ∧
      interfaceUnit c o p = .ok (interface, t) ∧
      EndsWithClass interface.content p.name (interfaceNames p) ∧
      t.Unshadowed p.name (interfaceNames p) := by
  refine ⟨fun t library => freshen_first _ _, fun id file hfile => ?_, fun p files hfiles => ?_⟩
  · obtain ⟨t, ht⟩ := exists_of_typeModule hfile
    exact ⟨t, ht, (gives_typeStep c o id).of_run (run_of_typeUnit ht).2, unshadowed_of_typeUnit ht⟩
  · obtain ⟨types, interface, t, htypes, ht, hfiles⟩ := exists_of_protocolModules hfiles
    exact ⟨types, interface, t, htypes, hfiles, ht,
      (gives_interfaceModule c o p).of_run (run_of_interfaceUnit ht).2,
        unshadowed_of_interfaceUnit ht⟩

/-- The aliases of a module, where it can be written. -/
def writtenAliases (unit : Except Misuse (SourceFile × ImportTable)) :
    Option (List (Library × String)) :=
  unit.toOption.map (·.2.aliases)

/-- A record that is named like an alias, with fields that are named like others and one name that
is not legal, and a protocol with such messages. -/
def shadowing : Catalog × Protocol :=
  let field (name : String) : Field := ⟨name, .plain .int, none, none, .null, .null, []⟩
  let message (name : String) : Message := ⟨name, [], .plain .null, [], false, none, []⟩
  (⟨[⟨"_typing", none, none, [], [],
      .record false (["_json", "_json_", "_json__", "a b"].map field)⟩]⟩,
    ⟨"P", .root, none, [⟨0⟩], ["_typing", "_typing_", "_json", ""].map message, []⟩)

theorem aliases_unshadowed_shadowing :
    let c := shadowing.1
    let p := shadowing.2
    (∃ file t, typeModule c {} ⟨0⟩ = .ok file ∧ typeUnit c {} ⟨0⟩ = .ok (file, t) ∧
      t.aliases = [(.dataclasses, "_dataclasses"), (.typing, "_typing_"), (.json, "_json___")] ∧
      t.Unshadowed "_typing" (memberNames {} (c.definition ⟨0⟩).body)) ∧
    ∃ files interface t, protocolModules c {} p = .ok files ∧
      interfaceUnit c {} p = .ok (interface, t) ∧
      t.aliases = [(.typing, "_typing__"), (.json, "_json_")] ∧
      t.Unshadowed "P" (interfaceNames p) := by
  intro c p
  have hfile : (typeModule c {} ⟨0⟩).toOption.isSome = true := by decide +kernel
  have hfiles : (protocolModules c {} p).toOption.isSome = true := by decide +kernel
  obtain ⟨file, hfile⟩ := Option.isSome_iff_exists.mp hfile
  obtain ⟨files, hfiles⟩ := Option.isSome_iff_exists.mp hfiles
  obtain ⟨-, htypes, hprotocols⟩ := aliases_unshadowed c {}
  obtain ⟨t, ht, -, hfree⟩ := htypes ⟨0⟩ file (eq_ok_of_toOption hfile)
  obtain ⟨-, interface, t', -, -, ht', -, hfree'⟩ := hprotocols p _ (eq_ok_of_toOption hfiles)
  have htype : writtenAliases (typeUnit c {} ⟨0⟩) =
      some [(.dataclasses, "_dataclasses"), (.typing, "_typing_"), (.json, "_json___")] := by
    decide +kernel
  have hprotocol : writtenAliases (interfaceUnit c {} p) =
      some [(.typing, "_typing__"), (.json, "_json_")] := by
    decide +kernel
  rw [ht] at htype
  rw [ht'] at hprotocol
  exact ⟨⟨file, t, eq_ok_of_toOption hfile, ht, Option.some.inj htype, hfree⟩, files, interface, t',
    eq_ok_of_toOption hfiles, ht', Option.some.inj hprotocol, hfree'⟩

end Avroc
