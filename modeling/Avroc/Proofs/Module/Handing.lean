import Avroc.Proofs.Module.Naming
import Avroc.Proofs.Module.Rendering
import Avroc.Proofs.Protocol.Building

/-!
# Handing out names

The names that a module imports under are handed out one at a time, while its text is written.  A
library gets an alias that nothing has taken yet.  A type gets its simple name, or if another type
has taken that, its full name with underscores for dots.

* `ImportTable.Hands.ordered` : **handing out names keeps tables in order.**
-/

namespace Avroc

open List

variable {d : Definition} {name fullName : String} {locals : List (String × String)} {c : Catalog}
  {t t' : ImportTable} {id : TypeId} {u : SourceFile × ImportTable}

/-! ### Fresh words -/

/-- The word with underscores after it. -/
def underlined (word : String) (n : Nat) : String :=
  word ++ String.ofList (List.replicate n '_')

@[simp] theorem toList_underlined (word : String) (n : Nat) :
    (underlined word n).toList = word.toList ++ List.replicate n '_' := by
  rw [underlined, String.toList_append, String.toList_ofList]

theorem underlined_succ (word : String) (n : Nat) :
    underlined word (n + 1) = underlined (word ++ "_") n := by
  rw [underlined, underlined, replicate_succ, String.append_assoc, ← String.ofList_append]
  rfl

/-- **A fresh word is found in a bounded number of rounds**: it is the first of the word with no,
one, two and more underscores that is not taken. -/
theorem freshen_first (taken : List String) (word : String) :
    ∃ n ≤ taken.length, freshen taken word = underlined word n ∧ underlined word n ∉ taken ∧
      ∀ m < n, underlined word m ∈ taken := by
  fun_induction freshen taken word with
  | case1 taken word hm ih =>
    obtain ⟨n, hn, he, hfree, htaken⟩ := ih
    rw [← underlined_succ] at he hfree
    have hlength := length_erase_of_mem hm
    have hpos := length_pos_of_mem hm
    refine ⟨n + 1, by omega, he, fun h => hfree ((mem_erase_of_ne fun heq => ?_).mpr h), ?_⟩
    · -- what comes out is longer than the word that was dropped
      have := congrArg String.length heq
      simp [underlined] at this
    · rintro (_ | m) hlt
      · simpa [underlined] using hm
      · rw [underlined_succ]
        exact mem_of_mem_erase (htaken m (by omega))
  | case2 taken word h =>
    exact ⟨0, Nat.zero_le _, by simp [underlined], by simpa [underlined], nofun⟩

/-- Whether a library may get the name as its alias: an underscore, the name of the library and
more underscores. -/
def isAliasLike (name : String) : Bool :=
  Library.all.any fun library =>
    ("_" ++ library.name).toList.isPrefixOf name.toList &&
      (name.toList.drop ("_" ++ library.name).toList.length).all (· = '_')

theorem isAliasLike_freshen (taken : List String) (library : Library) :
    isAliasLike (freshen taken ("_" ++ library.name)) = true := by
  obtain ⟨n, -, hn, -⟩ := freshen_first taken ("_" ++ library.name)
  refine any_eq_true.mpr ⟨library, by cases library <;> decide, ?_⟩
  rw [hn, toList_underlined, Bool.and_eq_true]
  refine ⟨List.isPrefixOf_iff_prefix.mpr (prefix_append _ _), ?_⟩
  rw [drop_left, all_eq_true]
  exact fun c hc => decide_eq_true (eq_of_mem_replicate hc)

/-! ### One name -/

/-- The full name with underscores for dots. -/
def underscored (fullName : String) : String :=
  Text.replaceWord "." "_" fullName

/-- The simple name of a legal definition is at the end of its full name. -/
theorem Definition.Named.lastName_fullName (h : d.Named) : lastName d.fullName = d.name := by
  have hdot := not_dot_mem_of_isLegalName h.1
  rw [lastName, Definition.fullName, joinName]
  split
  · rename_i s _
    rw [splitName, String.toList_append, String.toList_append, append_assoc]
    have hsplit : Text.splitAtLast? '.' (s.toList ++ (".".toList ++ d.name.toList)) =
        some (s.toList, d.name.toList) := Text.splitAtLast?_append s.toList hdot
    rw [hsplit]
    exact String.ofList_toList
  · rw [splitName_of_not_dot_mem hdot]

namespace ImportTable

/-- A fresh alias is an underscore, the name of the library and more underscores; it is neither
bound by the class nor the name of a type. -/
theorem freshAlias_cases (t : ImportTable) (library : Library) :
    ∃ n, t.freshAlias library = underlined ("_" ++ library.name) n ∧
      t.freshAlias library ∉ t.reserved ∧ t.freshAlias library ∉ t.locals.map (·.1) := by
  obtain ⟨n, -, he, hfree, -⟩ :=
    freshen_first (t.reserved ++ t.locals.map (·.1)) ("_" ++ library.name)
  rw [← he, mem_append, not_or] at hfree
  exact ⟨n, he, hfree⟩

/-- A library has an alias, or gets a fresh one. -/
theorem withLibrary_cases (t : ImportTable) (library : Library) (needed : Bool) :
    ∃ needs, (∃ name, (library, name) ∈ t.aliases ∧
        t.withLibrary library needed = (name, { t with needed := needs })) ∨
      (∀ a ∈ t.aliases, a.1 ≠ library) ∧ t.withLibrary library needed = (t.freshAlias library,
        { t with needed := needs, aliases := t.aliases ++ [(library, t.freshAlias library)] }) := by
  have hneeds : ∃ needs, (if needed && !t.needs library then
      { t with needed := t.needed ++ [library] } else t) = { t with needed := needs } := by
    split
    · exact ⟨_, rfl⟩
    · exact ⟨t.needed, rfl⟩
  obtain ⟨needs, hneeds⟩ := hneeds
  refine ⟨needs, ?_⟩
  rw [withLibrary]
  dsimp only
  rw [hneeds]
  split
  · rename_i name hname
    obtain ⟨before, after, he, -⟩ := lookup_eq_some_iff.mp hname
    exact .inl ⟨name, he ▸ mem_append_right _ mem_cons_self, rfl⟩
  · rename_i hnone
    exact .inr ⟨fun a ha he => by simpa [he] using lookup_eq_none_iff.mp hnone a ha, rfl⟩

/-- The types with a name in the module, by their full names: the type of the module itself, and the
types that it refers to. -/
def holders (t : ImportTable) : List (String × String) :=
  t.owner.toList.map (fun fullName => (fullName, lastName fullName)) ++ t.references

/-- The table with a local name for one more type. -/
def withLocal (t : ImportTable) (fullName name : String) : ImportTable :=
  { t with
    references := t.references ++ [(fullName, name)]
    locals := setLocal name fullName t.locals }

theorem holders_withLocal (t : ImportTable) (fullName name : String) :
    (t.withLocal fullName name).holders = t.holders ++ [(fullName, name)] :=
  (append_assoc _ _ _).symm

/-- A type has a name in the module, or it gets one. -/
theorem withReference_cases (t : ImportTable) (d : Definition) :
    ((t.owner = some d.fullName ∧ t.withReference d = (d.name, t)) ∨
      ∃ name, (d.fullName, name) ∈ t.references ∧ t.withReference d = (name, t)) ∨
    ((∀ x ∈ t.holders, x.1 ≠ d.fullName) ∧
      t.withReference d = (t.freshLocal d, t.withLocal d.fullName (t.freshLocal d))) := by
  rw [withReference]
  split
  · exact .inl (.inl ⟨‹_›, rfl⟩)
  · rename_i howner
    split
    · rename_i name hname
      obtain ⟨before, after, he, -⟩ := lookup_eq_some_iff.mp hname
      exact .inl (.inr ⟨name, he ▸ mem_append_right _ mem_cons_self, rfl⟩)
    · rename_i hnone
      refine .inr ⟨forall_mem_append.mpr ⟨?_, fun x hx he => ?_⟩, rfl⟩
      · refine forall_mem_map.mpr fun fullName hf hfull => ?_
        exact howner (hfull ▸ Option.mem_toList.mp hf)
      · have := lookup_eq_none_iff.mp hnone x hx
        simp [he] at this

theorem setLocal_eq_putKey (name fullName : String) (locals : List (String × String)) :
    setLocal name fullName locals = putKey name fullName locals := by
  induction locals with
  | nil => rfl
  | cons x locals ih => rw [setLocal, putKey, ih]

/-! ### Tables in order -/

/-- Each type has one name and each name that has been handed out is taken; aliases look like
aliases, and are not the name of the type of the module. -/
structure Ordered (t : ImportTable) : Prop where
  nodup : (t.holders.map (·.1)).Nodup
  taken : ∀ x ∈ t.holders, x.2 ∈ t.locals.map (·.1)
  held : ∀ p ∈ t.locals, (p.2, p.1) ∈ t.holders
  aliases : ∀ a ∈ t.aliases, isAliasLike a.2 = true ∧ ∀ fullName ∈ t.owner, a.2 ≠ lastName fullName

theorem ordered_ofType (h : d.Named) (reserved : List String) :
    (ofType d reserved).Ordered where
  nodup := by simp [holders, ofType]
  taken := by simp [holders, ofType, h.lastName_fullName]
  held := by simp [holders, ofType, h.lastName_fullName]
  aliases := forall_mem_nil _

theorem ordered_ofNone (reserved : List String) : (ofNone reserved).Ordered where
  nodup := nodup_nil
  taken := forall_mem_nil _
  held := forall_mem_nil _
  aliases := forall_mem_nil _

namespace Ordered

theorem withLibrary (h : t.Ordered) (library : Library) (needed : Bool) :
    (t.withLibrary library needed).2.Ordered := by
  obtain ⟨needs, ⟨name, -, he⟩ | ⟨-, he⟩⟩ := t.withLibrary_cases library needed <;> rw [he]
  · exact ⟨h.nodup, h.taken, h.held, h.aliases⟩
  · refine ⟨h.nodup, h.taken, h.held, forall_mem_append.mpr ⟨h.aliases, ?_⟩⟩
    refine forall_mem_singleton.mpr ⟨isAliasLike_freshen _ library, fun fullName hf heq => ?_⟩
    have htaken := h.taken (fullName, lastName fullName)
      (mem_append_left _ (mem_map_of_mem (Option.mem_toList.mpr hf)))
    rw [← show t.freshAlias library = lastName fullName from heq] at htaken
    exact (t.freshAlias_cases library).choose_spec.2.2 htaken

/-- A type without a name gets its simple name, which is not taken then, or its full name with
underscores, and then another type has its simple name. -/
theorem freshLocal_cases (h : t.Ordered) (hnew : ∀ x ∈ t.holders, x.1 ≠ d.fullName) :
    (d.name ∉ t.locals.map (·.1) ∧ t.freshLocal d = d.name) ∨
      ((∃ x ∈ t.holders, x.2 = d.name) ∧ t.freshLocal d = underscored d.fullName) := by
  rw [freshLocal]
  cases hl : t.locals.lookup d.name with
  | none =>
    refine .inl ⟨fun hm => ?_, if_pos rfl⟩
    obtain ⟨p, hp, he⟩ := mem_map.mp hm
    have := lookup_eq_none_iff.mp hl p hp
    simp [he] at this
  | some fullName =>
    obtain ⟨before, after, he, -⟩ := lookup_eq_some_iff.mp hl
    have hheld := h.held (d.name, fullName) (he ▸ mem_append_right _ mem_cons_self)
    exact .inr ⟨⟨_, hheld, rfl⟩, if_neg (hnew _ hheld)⟩

theorem withReference (h : t.Ordered) (d : Definition) : (t.withReference d).2.Ordered := by
  rcases t.withReference_cases d with (⟨-, he⟩ | ⟨name, -, he⟩) | ⟨hnew, he⟩ <;> rw [he]
  · exact h
  · exact h
  · refine ⟨?_, fun x hx => ?_, fun p hp => ?_, h.aliases⟩
    · rw [holders_withLocal, map_append, nodup_append]
      refine ⟨h.nodup, by simp, fun a ha b hb hab => ?_⟩
      obtain ⟨x, hx, rfl⟩ := mem_map.mp ha
      exact hnew x hx (hab.trans (mem_singleton.mp hb))
    · rw [withLocal, setLocal_eq_putKey]
      refine mem_keys_putKey.mpr ?_
      rw [holders_withLocal] at hx
      rcases mem_append.mp hx with hx | hx
      · exact .inr (h.taken x hx)
      · exact .inl (by rw [mem_singleton.mp hx])
    · rw [holders_withLocal]
      rw [withLocal, setLocal_eq_putKey] at hp
      rcases mem_putKey hp with rfl | hp
      · exact mem_append_right _ (mem_singleton.mpr rfl)
      · exact mem_append_left _ (h.held p hp)

end Ordered

theorem owner_withLibrary (t : ImportTable) (library : Library) (needed : Bool) :
    (t.withLibrary library needed).2.owner = t.owner := by
  obtain ⟨needs, ⟨name, -, he⟩ | ⟨-, he⟩⟩ := t.withLibrary_cases library needed <;> rw [he]

theorem owner_withReference (t : ImportTable) (d : Definition) :
    (t.withReference d).2.owner = t.owner := by
  rcases t.withReference_cases d with (⟨-, he⟩ | ⟨name, -, he⟩) | ⟨-, he⟩ <;> rw [he]
  rfl

theorem Hands.owner_eq {named : TypeId → Prop} (h : t.Hands c named t') : t'.owner = t.owner := by
  induction h with
  | refl => rfl
  | library library needed _ ih => exact (owner_withLibrary _ library needed).trans ih
  | reference _ _ ih => exact (owner_withReference _ _).trans ih

/-- **Handing out names keeps tables in order.** -/
theorem Hands.ordered {named : TypeId → Prop} (h : t.Hands c named t') (ht : t.Ordered) :
    t'.Ordered := by
  induction h with
  | refl => exact ht
  | library library needed _ ih => exact ih.withLibrary library needed
  | reference _ _ ih => exact ih.withReference _

end ImportTable

/-! ### Modules of a registry -/

/-- The type is the one of the registry by its full name. -/
def Scope.Knows (s : Scope) (id : TypeId) : Prop :=
  s.registry.get? (s.catalog.fullName id) = some id

section
variable {s : Scope} {o : CompileOptions}

theorem Scope.Lawful.named (hs : s.Lawful) (hid : s.Knows id) :
    (s.catalog.definition id).Named :=
  (hs id (mem_map_of_mem (Registry.mem_of_get? hid))).1.named

/-- A type that stands mentions types of the registry only. -/
theorem Schema.Stands.mentions {t : Schema} (h : t.Stands s) :
    t.Mentions s.Knows fun _ => True := by
  induction h with
  | primitive kind props => exact .primitive fun _ _ => trivial
  | array props _ ih => exact .array ih
  | map props _ ih => exact .map ih
  | union _ _ _ ih => exact .union ih
  | named _ hget => exact .named hget

/-- The module of a type hands out names to types of the registry. -/
theorem hands_of_typeUnit (hs : s.Upright) (hid : id ∈ s.registry.types)
    (h : typeUnit s.catalog o id = .ok u) :
    u.1.path = modulePath (s.catalog.fullName id) ∧
      (ImportTable.ofType (s.catalog.definition id)
        (boundNames o (s.catalog.definition id).body)).Hands s.catalog s.Knows u.2 := by
  obtain ⟨hpath, hrun⟩ := run_of_typeUnit h
  refine ⟨hpath, ((handsOut_typeStep o (fun f hf => ?_) fun _ _ => trivial).result _ _ _ .refl
    hrun).2⟩
  exact (hs id hid f hf).mentions

/-- The module of a protocol hands out names to types of the registry. -/
theorem hands_of_interfaceUnit {p : Protocol} (hp : p.Stands s)
    (h : interfaceUnit s.catalog o p = .ok u) :
    u.1.path = modulePath p.fullName ∧
      (ImportTable.ofNone (p.messages.map fun m => safeName m.name)).Hands s.catalog
        s.Knows u.2 := by
  obtain ⟨hpath, hrun⟩ := run_of_interfaceUnit h
  refine ⟨hpath, ((handsOut_interfaceModule o (fun m hm f hf => ?_) (fun m hm => ?_)
    (fun m hm id hid => ?_) fun _ _ => trivial).result _ _ _ .refl hrun).2⟩
  · exact ((hp.messages m hm).request f hf).type.mentions
  · exact (hp.messages m hm).response.mentions
  · cases (hp.messages m hm).errors id hid with
    | named _ hget => exact hget

end

end Avroc
