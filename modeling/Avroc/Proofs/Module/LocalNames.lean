import Avroc.Proofs.Module.Handing
import Avroc.Proofs.Registry.Closure
import Mathlib.Data.List.Nodup

/-!
# Local names

A module imports other modules under local names and libraries under aliases.  A simple name that is
handed out to a type is never taken; the full name with underscores is not checked.  So two imports
of a module collide only if such a name is also that of another type, or if a type is called like an
alias.  The class of a protocol is not among the names that are looked at.

* `importNames_apart` : **imported names do not collide where names are apart.**
-/

namespace Avroc

open List

variable {a : String} {d : Definition} {owner : Option String} {names : List String}

/-! ### Names that a type may get -/

/-- Whether another of the full names ends in the same simple name. -/
def sharesName (names : List String) (fullName : String) : Bool :=
  names.any fun other => other != fullName && lastName other == lastName fullName

/-- The local names that a type may get in a module which refers to the types `names`, and defines
`owner`: its simple name, and its full name with underscores if another type has that simple
name. -/
def possibleLocals (owner : Option String) (names : List String) (fullName : String) :
    List String :=
  lastName fullName ::
    if owner ≠ some fullName && sharesName (owner.toList ++ names) fullName then
      [underscored fullName]
    else []

/-- No name that a type may get in place of its simple name is one of another type, and none looks
like an alias. -/
structure NamesApart (owner : Option String) (names : List String) : Prop where
  apart : ∀ a ∈ names, sharesName (owner.toList ++ names) a = true →
    ∀ b ∈ owner.toList ++ names, b ≠ a → underscored a ∉ possibleLocals owner names b
  aliases : ∀ a ∈ names, ∀ name ∈ possibleLocals owner names a, isAliasLike name = false

theorem lastName_mem_possibleLocals (owner : Option String) (names : List String) (a : String) :
    lastName a ∈ possibleLocals owner names a :=
  mem_cons_self

theorem underscored_mem_possibleLocals (ha : owner ≠ some a)
    (h : sharesName (owner.toList ++ names) a = true) :
    underscored a ∈ possibleLocals owner names a := by
  refine mem_cons_of_mem _ ?_
  rw [if_pos (by simp [ha, h])]
  exact mem_singleton.mpr rfl

theorem sharesName_of_mem {all : List String} {b : String} (hb : b ∈ all) (hne : b ≠ a)
    (h : lastName b = lastName a) : sharesName all a = true :=
  any_eq_true.mpr ⟨b, hb, by simp [hne, h]⟩

/-- A name that a type may get is its simple name, or the type shares that. -/
theorem mem_possibleLocals {name : String} (h : name ∈ possibleLocals owner names a) :
    name = lastName a ∨
      (owner ≠ some a ∧ sharesName (owner.toList ++ names) a = true ∧ name = underscored a) := by
  rcases mem_cons.mp h with h | h
  · exact .inl h
  · split at h
    · rename_i hc
      simp only [Bool.and_eq_true, decide_eq_true_eq] at hc
      exact .inr ⟨hc.1, hc.2, mem_singleton.mp h⟩
    · cases h

/-! ### Tables without collisions -/

namespace ImportTable

/-- The types have names that they may get, no two of them the same. -/
structure Spoken (owner : Option String) (names : List String) (t : ImportTable) : Prop
    extends t.Ordered where
  owner_eq : t.owner = owner
  possible : ∀ x ∈ t.holders, x.2 ∈ possibleLocals owner names x.1
  distinct : (t.holders.map (·.2)).Nodup

/-- The imported names do not collide, in a module whose class has the given name. -/
structure Apart (t : ImportTable) (className : String) : Prop where
  /-- Types with different full names have different local names. -/
  references : ∀ x ∈ t.references, ∀ y ∈ t.references, x.1 ≠ y.1 → x.2 ≠ y.2
  /-- No local name of a type is the alias of a library. -/
  aliases : ∀ x ∈ t.references, ∀ a ∈ t.aliases, x.2 ≠ a.2
  /-- No other type has the name of the class as its local name. -/
  classReference : ∀ x ∈ t.references, x.2 ≠ className
  /-- No library has the name of the class as its alias. -/
  classAlias : ∀ a ∈ t.aliases, a.2 ≠ className

variable {t t' : ImportTable}

theorem holders_withLibrary (t : ImportTable) (library : Library) (needed : Bool) :
    (t.withLibrary library needed).2.holders = t.holders := by
  rw [holders, owner_withLibrary, references_withLibrary]
  rfl

namespace Spoken

theorem withLibrary (h : t.Spoken owner names) (library : Library) (needed : Bool) :
    (t.withLibrary library needed).2.Spoken owner names := by
  have hholders := t.holders_withLibrary library needed
  have howner := (t.owner_withLibrary library needed).trans h.owner_eq
  exact ⟨h.toOrdered.withLibrary library needed, howner, hholders ▸ h.possible,
    hholders ▸ h.distinct⟩

/-- A type whose simple name is taken shares it with another type, where names are apart. -/
theorem shares_of_taken (h : t.Spoken owner names) (hu : NamesApart owner names)
    (hmem : ∀ x ∈ t.holders, x.1 ∈ owner.toList ++ names) (ha : a ∈ names) {x : String × String}
    (hx : x ∈ t.holders) (hne : x.1 ≠ a) (he : x.2 = lastName a) :
    sharesName (owner.toList ++ names) a = true := by
  rcases mem_possibleLocals (h.possible x hx) with hsimple | ⟨howner, hshares, hlong⟩
  · exact sharesName_of_mem (hmem x hx) hne (hsimple.symm.trans he)
  · have hmem : x.1 ∈ names := by
      refine (mem_append.mp (hmem x hx)).resolve_left fun hm => ?_
      exact howner (Option.mem_toList.mp hm)
    refine absurd ?_ (hu.apart x.1 hmem hshares a (mem_append_right _ ha) hne.symm)
    rw [← hlong, he]
    exact lastName_mem_possibleLocals owner names a

/-- **The next type gets a name of its own**, where names are apart. -/
theorem withReference (h : t.Spoken owner names) (hu : NamesApart owner names) (hd : d.Named)
    (hmem : ∀ x ∈ (t.withReference d).2.references, x.1 ∈ names) :
    (t.withReference d).2.Spoken owner names := by
  have hordered := h.toOrdered.withReference d
  rcases t.withReference_cases d with (⟨-, he⟩ | ⟨name, -, he⟩) | ⟨hnew, he⟩
  · rwa [he]
  · rwa [he]
  rw [he] at hmem hordered ⊢
  have hall : ∀ x ∈ t.holders, x.1 ∈ owner.toList ++ names := by
    refine forall_mem_append.mpr ⟨forall_mem_map.mpr fun f hf => ?_, fun x hx => ?_⟩
    · exact mem_append_left _ (h.owner_eq ▸ hf)
    · exact mem_append_right _ (hmem x (mem_append_left _ hx))
  have hself : d.fullName ∈ names := hmem _ (mem_append_right _ (mem_singleton.mpr rfl))
  have howner : owner ≠ some d.fullName := by
    intro ho
    refine hnew (d.fullName, lastName d.fullName) (mem_append_left _ ?_) rfl
    exact mem_map_of_mem (by simp [h.owner_eq, ho])
  suffices hfresh : t.freshLocal d ∈ possibleLocals owner names d.fullName ∧
      ∀ x ∈ t.holders, x.2 ≠ t.freshLocal d by
    refine ⟨hordered, h.owner_eq, ?_, ?_⟩ <;> rw [holders_withLocal]
    · exact forall_mem_append.mpr ⟨h.possible, forall_mem_singleton.mpr hfresh.1⟩
    · rw [map_append, nodup_append]
      refine ⟨h.distinct, by simp, fun a ha b hb hab => ?_⟩
      obtain ⟨x, hx, rfl⟩ := mem_map.mp ha
      exact hfresh.2 x hx (hab.trans (mem_singleton.mp hb))
  rcases h.toOrdered.freshLocal_cases hnew with ⟨hfree, hlocal⟩ | ⟨⟨x, hx, hname⟩, hlocal⟩ <;>
    rw [hlocal]
  · -- the simple name is free
    refine ⟨hd.lastName_fullName ▸ lastName_mem_possibleLocals owner names _, fun x hx hxd => ?_⟩
    exact hfree (hxd ▸ h.taken x hx)
  · -- another type has the simple name, so the full name is not one that another type may get
    have hshares := h.shares_of_taken hu hall hself hx (hnew x hx)
      (hname.trans hd.lastName_fullName.symm)
    refine ⟨underscored_mem_possibleLocals howner hshares, fun y hy hyd => ?_⟩
    refine hu.apart d.fullName hself hshares y.1 (hall y hy) (hnew y hy) ?_
    rw [← hyd]
    exact h.possible y hy

end Spoken

/-- **Handing out names keeps them apart**, where the names at the end are apart. -/
theorem Hands.spoken {c : Catalog} {named : TypeId → Prop}
    (hnamed : ∀ id, named id → (c.definition id).Named) (h : t.Hands c named t')
    (hu : NamesApart owner names) (ht : t.Spoken owner names)
    (hmem : ∀ x ∈ t'.references, x.1 ∈ names) : t'.Spoken owner names := by
  induction h with
  | refl => exact ht
  | @library t' library needed _ ih =>
    rw [references_withLibrary] at hmem
    exact (ih hmem).withLibrary library needed
  | @reference t' id hid _ ih =>
    have hless : ∀ x ∈ t'.references, x.1 ∈ names := by
      intro x hx
      refine hmem x ?_
      rcases t'.withReference_cases (c.definition id) with (⟨-, he⟩ | ⟨name, -, he⟩) | ⟨-, he⟩ <;>
        rw [he]
      · exact hx
      · exact hx
      · exact mem_append_left _ hx
    exact (ih hless).withReference hu (hnamed id hid) hmem

namespace Spoken

/-- Names that have been handed out without a collision are apart, if the name of the class is. -/
theorem apart (h : t.Spoken owner names) (hu : NamesApart owner names)
    (hmem : ∀ x ∈ t.references, x.1 ∈ names) {className : String}
    (hreference : ∀ x ∈ t.references, x.2 ≠ className) (halias : ∀ a ∈ t.aliases, a.2 ≠ className) :
    t.Apart className where
  references x hx y hy hne he := by
    have heq := inj_on_of_nodup_map h.distinct (mem_append_right _ hx)
      (mem_append_right _ hy) he
    exact hne (congrArg Prod.fst heq)
  aliases x hx a ha he := by
    have hname := hu.aliases x.1 (hmem x hx) x.2 (h.possible x (mem_append_right _ hx))
    rw [he, (h.aliases a ha).1] at hname
    cases hname
  classReference := hreference
  classAlias := halias

/-- The class of a type has its simple name, which is handed out to no other type. -/
theorem apart_own {fullName : String} (h : t.Spoken (some fullName) names)
    (hu : NamesApart (some fullName) names) (hmem : ∀ x ∈ t.references, x.1 ∈ names) :
    t.Apart (lastName fullName) := by
  have hown : (fullName, lastName fullName) ∈ t.owner.toList.map fun f => (f, lastName f) :=
    mem_map_of_mem (by simp [h.owner_eq])
  refine h.apart hu hmem (fun x hx he => ?_) fun a ha => (h.aliases a ha).2 fullName h.owner_eq
  have hdistinct := h.distinct
  rw [holders, map_append, nodup_append] at hdistinct
  exact hdistinct.2.2 _ (mem_map_of_mem hown) _ (mem_map_of_mem hx) he.symm

end Spoken

theorem spoken_ofType (h : d.Named) (reserved names : List String) :
    (ofType d reserved).Spoken (some d.fullName) names where
  toOrdered := ordered_ofType h reserved
  owner_eq := rfl
  possible := by simpa [holders, ofType] using lastName_mem_possibleLocals _ _ _
  distinct := by simp [holders, ofType]

theorem spoken_ofNone (reserved names : List String) :
    (ofNone reserved).Spoken none names where
  toOrdered := ordered_ofNone reserved
  owner_eq := rfl
  possible := forall_mem_nil _
  distinct := nodup_nil

end ImportTable

/-! ### Modules of accepted documents -/

/-- The class of a protocol may get its name without a collision: no type may get the name, and it
does not look like an alias. -/
structure Unclaimed (className : String) (names : List String) : Prop where
  references : ∀ a ∈ names, className ∉ possibleLocals none names a
  aliases : isAliasLike className = false

section
variable {s : Scope} {o : CompileOptions} {u : SourceFile × ImportTable}

theorem apart_of_typeUnit (hs : s.Lawful) {id : TypeId} (hid : id ∈ s.registry.types)
    (h : typeUnit s.catalog o id = .ok u) :
    (∀ a ∈ u.2.aliases, a.2 ≠ (s.catalog.definition id).name) ∧
      (NamesApart (some (s.catalog.fullName id)) (u.2.references.map (·.1)) →
        u.2.Apart (s.catalog.definition id).name) := by
  have hown := (hs id hid).1.named
  obtain ⟨-, hhands⟩ := hands_of_typeUnit (fun id hid => (hs id hid).2) hid h
  rw [← hown.lastName_fullName]
  refine ⟨fun a ha => ?_, fun hu => ?_⟩
  · have hordered := hhands.ordered (ImportTable.ordered_ofType hown _)
    exact (hordered.aliases a ha).2 _ hhands.owner_eq
  · have hmem : ∀ x ∈ u.2.references, x.1 ∈ u.2.references.map (·.1) :=
      fun x hx => mem_map_of_mem hx
    exact (hhands.spoken (fun _ => hs.named) hu (ImportTable.spoken_ofType hown _ _) hmem).apart_own
      hu hmem

theorem apart_of_interfaceUnit (hs : s.Lawful) {p : Protocol} (hp : p.Stands s)
    (h : interfaceUnit s.catalog o p = .ok u)
    (hu : NamesApart none (u.2.references.map (·.1)))
    (hclass : Unclaimed p.name (u.2.references.map (·.1))) : u.2.Apart p.name := by
  obtain ⟨-, hhands⟩ := hands_of_interfaceUnit hp h
  have hmem : ∀ x ∈ u.2.references, x.1 ∈ u.2.references.map (·.1) :=
    fun x hx => mem_map_of_mem hx
  have hspoken := hhands.spoken (fun _ => hs.named) hu (ImportTable.spoken_ofNone _ _) hmem
  refine hspoken.apart hu hmem (fun x hx he => ?_) fun a ha he => ?_
  · refine hclass.references x.1 (hmem x hx) ?_
    rw [← he]
    exact hspoken.possible x (mem_append_right _ hx)
  · have halias := (hspoken.toOrdered.aliases a ha).1
    rw [he, hclass.aliases] at halias
    cases halias

end

/-- **Imported names do not collide where names are apart**, whatever documents are read in a
registry that starts empty with names checked, and for all options.  In the module of a type no
alias is the name of its class; if no name that a type may get in place of its simple name is one of
another type and none looks like an alias, then different types have different local names, and
these are neither aliases nor the name of the class.  The same holds for the module of a protocol,
if its name is not one that a type or a library may get. -/
theorem importNames_apart (s : Scope) (hempty : s.registry.entries = [])
    (hc : s.registry.checksNames = true) (calls : List ParseCall) (o : CompileOptions) :
    let s' := (ParseCall.runAll calls s).2
    (∀ id ∈ s'.registry.types,
      typeModule s'.catalog o id = (typeUnit s'.catalog o id).map Prod.fst ∧
      ∀ u, typeUnit s'.catalog o id = .ok u →
        (∀ a ∈ u.2.aliases, a.2 ≠ (s'.catalog.definition id).name) ∧
        (NamesApart (some (s'.catalog.fullName id)) (u.2.references.map (·.1)) →
          u.2.Apart (s'.catalog.definition id).name)) ∧
    ∀ p, .ok (.protocol p) ∈ (ParseCall.runAll calls s).1 →
      protocolModules s'.catalog o p = (protocolUnits s'.catalog o p).map (List.map Prod.fst) ∧
      ∀ u, interfaceUnit s'.catalog o p = .ok u →
        NamesApart none (u.2.references.map (·.1)) → Unclaimed p.name (u.2.references.map (·.1)) →
          u.2.Apart p.name := by
  intro s'
  have hstands := (ParseCall.builds_runAll (Scope.orderly_of_empty hempty) calls).2
  have hlawful : s'.Lawful := ParseCall.lawful_runAll hempty hc calls
  refine ⟨fun id hid => ⟨typeModule_eq _ _ _, fun u => apart_of_typeUnit hlawful hid⟩,
    fun p hp => ⟨protocolModules_eq _ _ _, fun u hu => ?_⟩⟩
  exact apart_of_interfaceUnit hlawful (hstands (.protocol p) hp) hu

/-- The full names that the module of a type imports, with their local names. -/
def typeReferences (c : Catalog) (o : CompileOptions) (id : TypeId) :
    Option (List (String × String)) :=
  (typeUnit c o id).toOption.map (·.2.references)

/-- The full names that the module of a protocol imports, with their local names. -/
def interfaceReferences (c : Catalog) (o : CompileOptions) (p : Protocol) :
    Option (List (String × String)) :=
  (interfaceUnit c o p).toOption.map (·.2.references)

/-- A protocol with two types of one simple name, in different namespaces, and a library. -/
def sharedNameText : String :=
  "@namespace(\"p\") protocol P \x7b @namespace(\"q\") fixed B(1); " ++
    "@namespace(\"r\") fixed B(2); record A \x7b q.B x; r.B y; date z; \x7d " ++
    "A m(q.B x, r.B y, date z); \x7d"

theorem importNames_apart_sharedName :
    let call := ParseCall.idl ⟨.directory [] 0, [], 0, []⟩ none sharedNameText
    let s := Scope.initial true true
    (s.registry.entries = [] ∧ s.registry.checksNames = true) ∧
    ∃ p s', ParseCall.runAll [call] s = ([.ok (.protocol p)], s') ∧
      (∃ id ∈ s'.registry.types, ∃ u, typeUnit s'.catalog {} id = .ok u ∧
        u.2.references = [("q.B", "B"), ("r.B", "r_B")] ∧
        NamesApart (some (s'.catalog.fullName id)) (u.2.references.map (·.1)) ∧
        u.2.Apart (s'.catalog.definition id).name) ∧
      ∃ u, interfaceUnit s'.catalog {} p = .ok u ∧
        u.2.references = [("q.B", "B"), ("r.B", "r_B"), ("p.A", "A")] ∧
        NamesApart none (u.2.references.map (·.1)) ∧
        Unclaimed p.name (u.2.references.map (·.1)) ∧ u.2.Apart p.name := by
  intro call s
  have hread : succeeds (Idl.readIdl ⟨.directory [] 0, [], 0, []⟩ none sharedNameText) s
      (fun p s' => p.name == "P" && s'.registry.types.contains ⟨2⟩ && s'.catalog.fullName ⟨2⟩ == "p.A" &&
        typeReferences s'.catalog {} ⟨2⟩ == some [("q.B", "B"), ("r.B", "r_B")] &&
        interfaceReferences s'.catalog {} p ==
          some [("q.B", "B"), ("r.B", "r_B"), ("p.A", "A")]) = true := by
    decide +kernel
  obtain ⟨p, s', hp, htest⟩ := exists_of_succeeds _ _ _ hread
  simp only [Bool.and_eq_true, beq_iff_eq, contains_iff_mem, typeReferences,
    interfaceReferences, Option.map_eq_some_iff] at htest
  obtain ⟨⟨⟨⟨hname, hid⟩, hfull⟩, u, hu, hreferences⟩, v, hv, hlocals⟩ := htest
  have hcall : Yields call.run s (.protocol p) s' :=
    hp.bind .pure
  have hrun : ParseCall.runAll [call] s = ([.ok (.protocol p)], s') := by
    rw [ParseCall.runAll, ParseCall.runAll, hcall]
  have htypes : NamesApart (some (s'.catalog.fullName ⟨2⟩)) (u.2.references.map (·.1)) := by
    rw [hfull, hreferences]
    exact ⟨by decide +kernel, by decide +kernel⟩
  have hinterface : NamesApart none (v.2.references.map (·.1)) := by
    rw [hlocals]
    exact ⟨by decide +kernel, by decide +kernel⟩
  have hclass : Unclaimed p.name (v.2.references.map (·.1)) := by
    rw [hname, hlocals]
    exact ⟨by decide +kernel, by decide +kernel⟩
  have hmain := importNames_apart s rfl rfl [call] {}
  simp only [hrun] at hmain
  refine ⟨⟨rfl, rfl⟩, p, s', hrun, ⟨⟨2⟩, hid, u, eq_ok_of_toOption hu, hreferences, htypes, ?_⟩,
    v, eq_ok_of_toOption hv, hlocals, hinterface, hclass, ?_⟩
  · exact ((hmain.1 ⟨2⟩ hid).2 u (eq_ok_of_toOption hu)).2 htypes
  · exact (hmain.2 p mem_cons_self).2 v (eq_ok_of_toOption hv) hinterface hclass

/-- A record with a field of a type that has the same simple name and no namespace: the local name
of that type, its full name with underscores, is the name of the class. -/
def namesakeText : String :=
  "\x7b\"type\":\"record\",\"name\":\"p.X\",\"fields\":[\x7b\"name\":\"x\",\"type\":" ++
    "\x7b\"type\":\"fixed\",\"name\":\"X\",\"namespace\":\"\",\"size\":1\x7d\x7d]\x7d"

theorem importNames_collide :
    ∃ t s', Yields (readSchemaText namesakeText) (.initial true true) t s' ∧
      ∃ id ∈ s'.registry.types, ∃ u, typeUnit s'.catalog {} id = .ok u ∧
        ("X", "X") ∈ u.2.references ∧ s'.catalog.fullName id = "p.X" ∧
        (s'.catalog.definition id).name = "X" ∧ ¬u.2.Apart (s'.catalog.definition id).name := by
  have hread : succeeds (readSchemaText namesakeText) (.initial true true) (fun _ s' =>
      s'.registry.types.contains ⟨0⟩ && s'.catalog.fullName ⟨0⟩ == "p.X" &&
        (s'.catalog.definition ⟨0⟩).name == "X" &&
        typeReferences s'.catalog {} ⟨0⟩ == some [("X", "X")]) = true := by
    decide +kernel
  obtain ⟨t, s', hs', htest⟩ := exists_of_succeeds _ _ _ hread
  simp only [Bool.and_eq_true, beq_iff_eq, contains_iff_mem, typeReferences,
    Option.map_eq_some_iff] at htest
  obtain ⟨⟨⟨hid, hfull⟩, hname⟩, u, hu, hreferences⟩ := htest
  have hmem : ("X", "X") ∈ u.2.references := by simp [hreferences]
  exact ⟨t, s', hs', ⟨0⟩, hid, u, eq_ok_of_toOption hu, hmem, hfull, hname,
    fun h => h.classReference _ hmem hname.symm⟩

end Avroc
