import Avroc.Proofs.Module.Linking
import Mathlib.Data.List.Nodup

/-!
# What generated classes bind

The class of a type binds its fields or symbols, a method that returns the document, and for records
two accessors of each field.  The class of a protocol binds its messages and such a method.  A name
with two underscores in front is bound with the name of the class before it.

* `gives_typeStep`, `gives_interfaceModule` : **what the text of a class binds.**
* `members_distinct_iff` : **the members of a class are different exactly if there is no clash**,
  and none is a keyword.
-/

namespace Avroc

open List

variable {names lines : List String} {a name x y n className : String}

/-! ### Lines of a class body -/

/-- The line binds nothing in the class: it is empty, a comment, a decorator or indented further. -/
def Inert (line : String) : Prop :=
  line = "" ∨ ∃ start ∈ ["    # ", "    @", "        "], start.toList <+: line.toList

instance (line : String) : Decidable (Inert line) :=
  inferInstanceAs (Decidable (_ ∨ _))

theorem inert_append {start : String} (h : start ∈ ["    # ", "    @", "        "])
    (text : String) : Inert (start ++ text) :=
  .inr ⟨start, h, text.toList, String.toList_append.symm⟩

/-- The lines of a class body bind the names, in order: an attribute has a type or a value, and a
method its parameters. -/
inductive Binds : List String → List String → Prop
  | nil : Binds [] []
  | inert {line : String} {lines names : List String} :
      Inert line → Binds lines names → Binds (line :: lines) names
  | typed (name text : String) {lines names : List String} : Binds lines names →
      Binds (("    " ++ (name ++ (": " ++ text))) :: lines) (name :: names)
  | value (name text : String) {lines names : List String} : Binds lines names →
      Binds (("    " ++ (name ++ (" = " ++ text))) :: lines) (name :: names)
  | method (name text : String) {lines names : List String} : Binds lines names →
      Binds (("    def " ++ (name ++ ("(" ++ text))) :: lines) (name :: names)

theorem Binds.append {lines' names' : List String} (h : Binds lines names)
    (h' : Binds lines' names') : Binds (lines ++ lines') (names ++ names') := by
  induction h with
  | nil => exact h'
  | inert hline _ ih => exact .inert hline ih
  | typed name text _ ih => exact .typed name text ih
  | value name text _ ih => exact .value name text ih
  | method name text _ ih => exact .method name text ih

theorem Binds.of_inert (h : ∀ line ∈ lines, Inert line) : Binds lines [] := by
  induction lines with
  | nil => exact .nil
  | cons line lines ih =>
    obtain ⟨hline, hlines⟩ := forall_mem_cons.mp h
    exact .inert hline (ih hlines)

/-- The lines of a documentation string inside a method bind nothing. -/
theorem inert_docString (text : String) {line : String} (h : line ∈ docString text "        ") :
    Inert line := by
  have hinner : ∀ text, Inert ("        " ++ text) := inert_append (by decide)
  unfold docString at h
  split at h
  · rw [mem_singleton.mp h, String.append_assoc]
    exact hinner _
  · rw [mem_singleton.mp h, String.append_assoc, String.append_assoc]
    exact hinner _
  · rw [mem_append, mem_append, mem_singleton, mem_singleton, mem_map] at h
    rcases h with (rfl | ⟨line, -, rfl⟩) | rfl
    · rw [String.append_assoc]
      exact hinner _
    · split
      · exact .inl rfl
      · exact hinner _
    · exact hinner _

/-! ### Texts of modules -/

/-- The results of the step have the property. -/
abbrev Gives {σ α : Type} (step : StateT σ (Except Misuse) α) (P : α → Prop) : Prop :=
  Renders (fun _ => True) (fun _ => True) P step

theorem Gives.of_run {σ α : Type} {step : StateT σ (Except Misuse) α} {P : α → Prop}
    (h : Gives step P) {t t' : σ} {a : α} (hr : step.run t = .ok (a, t')) : P a :=
  (h.result t a t' trivial hr).1

/-- What comes before may be anything. -/
theorem gives_bind {σ α β : Type} {Q : β → Prop} {x : StateT σ (Except Misuse) α}
    {f : α → StateT σ (Except Misuse) β} (hf : ∀ a, Gives (f a) Q) : Gives (x >>= f) Q :=
  Renders.bind (P := fun _ => True) ⟨fun _ _ _ _ _ => ⟨trivial, trivial⟩, fun _ _ _ _ => trivial⟩
    fun a _ => hf a

/-- The text ends with a class of the name, whose body binds the names after its documentation. -/
def EndsWithClass (text name : String) (names : List String) : Prop :=
  ∃ front mark more doc body, (mark = "(" ∨ mark = ":") ∧ Binds body names ∧
    text = linesText
      (front ++ ("class " ++ (name ++ (mark ++ more))) :: (docString doc "    " ++ body))

theorem Binds.endsWithClass {body names : List String} (h : Binds body names) {mark : String}
    (hmark : mark = "(" ∨ mark = ":") (front : List String) (name more doc : String) :
    EndsWithClass (linesText
      (front ++ ("class " ++ (name ++ (mark ++ more))) :: (docString doc "    " ++ body)))
      name names := ⟨front, mark, more, doc, body, hmark, h, rfl⟩

theorem gives_schemaMethod (constant method : String) :
    Gives (schemaMethod constant method) fun lines => Binds lines [method] := by
  refine gives_bind fun typing => gives_bind fun json => renders_pure ?_
  have hopen : "(cls) -> dict[str, " = "(" ++ "cls) -> dict[str, " := by decide
  have hreturn : "        return " = "        " ++ "return " := by decide
  have hinner : ∀ text, Inert ("        " ++ text) := inert_append (by decide)
  simp only [hopen, hreturn, String.append_assoc]
  exact .inert (by decide) (.method method _ (.inert (hinner _) (.inert (hinner _) .nil)))

/-- The names of the accessors of a field. -/
def accessorNames (name : String) : List String :=
  ["get_" ++ name, "set_" ++ name]

theorem binds_accessors (name slot hint : String) :
    Binds ((accessors name slot hint).flatMap fun line => ["", line]) (accessorNames name) := by
  have hget : "    def get_" ++ name = "    def " ++ ("get_" ++ name) := by
    rw [← String.append_assoc]
    rfl
  have hset : "    def set_" ++ name = "    def " ++ ("set_" ++ name) := by
    rw [← String.append_assoc]
    rfl
  have hself : "(self) -> " = "(" ++ "self) -> " := by decide
  have hvalue : "(self, value: " = "(" ++ "self, value: " := by decide
  rw [accessors, hget, hset, hself, hvalue, accessorNames]
  generalize "get_" ++ name = getter
  generalize "set_" ++ name = setter
  simp only [flatMap_cons, flatMap_nil, cons_append, nil_append,
    String.append_assoc]
  exact .inert (.inl rfl) (.method getter _ (.inert (.inl rfl) (.method setter _ .nil)))

theorem binds_fieldComment (doc : Option String) : Binds (fieldComment doc) [] := by
  refine .of_inert fun line hline => ?_
  unfold fieldComment at hline
  split at hline
  · obtain ⟨text, -, rfl⟩ := mem_map.mp hline
    exact inert_append (by decide) text
  · cases hline

theorem gives_fieldLines (c : Catalog) (o : CompileOptions) (f : Field) :
    Gives (fieldLines c o f) fun lines => Binds lines.1 [attributeName o f.name] ∧
      Binds (lines.2.flatMap fun line => ["", line]) (accessorNames f.name) := by
  refine gives_bind fun hint => gives_bind fun value => renders_pure ⟨?_, binds_accessors _ _ _⟩
  simp only [String.append_assoc]
  exact (binds_fieldComment f.doc).append (.typed _ _ .nil)

/-- The names that the class of a type binds. -/
def memberNames (o : CompileOptions) : Body → List String
  | .record _ fields => fields.map (fun f => attributeName o f.name) ++
      "avro_schema" :: fields.flatMap fun f => accessorNames f.name
  | .enum symbols _ => symbols.map safeName ++ ["avro_schema"]
  | .fixed _ => ["SIZE", "__new__", "avro_schema"]

/-- The names that the class of a protocol binds. -/
def interfaceNames (p : Protocol) : List String :=
  p.messages.map (fun m => safeName m.name) ++ ["avro_protocol"]

section
variable (c : Catalog) (o : CompileOptions)

theorem gives_recordModule (id : TypeId) (isError : Bool) (fields : List Field) :
    Gives (recordModule c o id isError fields) fun text =>
      EndsWithClass text (c.definition id).name (memberNames o (.record isError fields)) := by
  refine (renders_mapM fun f (_ : f ∈ fields) => gives_fieldLines c o f).bind fun parts hparts => ?_
  refine gives_bind fun dataclasses => ?_
  refine (gives_schemaMethod _ _).bind fun method hmethod => ?_
  refine gives_bind fun imports => gives_bind fun document => renders_pure ?_
  have hbody : Binds (parts.flatMap (·.1)) (fields.map fun f => attributeName o f.name) ∧
      Binds ((parts.flatMap (·.2)).flatMap fun line => ["", line])
        (fields.flatMap fun f => accessorNames f.name) := by
    clear hmethod
    induction hparts with
    | nil => exact ⟨.nil, .nil⟩
    | cons hpart _ ih =>
      rw [flatMap_cons, flatMap_cons, List.flatMap_append]
      exact ⟨hpart.1.append ih.1, hpart.2.append ih.2⟩
  have hlines : Binds (if (parts.flatMap (·.1)).isEmpty then [] else "" :: parts.flatMap (·.1))
      (fields.map fun f => attributeName o f.name) := by
    split
    · rename_i hempty
      rw [List.isEmpty_iff.mp hempty] at hbody
      exact hbody.1
    · exact .inert (.inl rfl) hbody.1
  obtain ⟨mark, more, hmark, hbases⟩ : ∃ mark more, (mark = "(" ∨ mark = ":") ∧
      (if isError = true then "(Exception)" else "") ++ ":" = mark ++ more := by
    cases isError
    · exact ⟨":", "", .inr rfl, by decide⟩
    · exact ⟨"(", "Exception):", .inl rfl, by decide⟩
  have hclass := (hlines.append (.inert (.inl rfl) (hmethod.append hbody.2))).endsWithClass hmark
  rw [memberNames]
  generalize headerLines _ _ _ = header
  generalize documentConstant _ _ = constant
  generalize Option.getD _ _ = doc
  simp only [String.append_assoc, hbases]
  have hlist := hclass (header ++ (imports ++ ["", constant, "", "", "@" ++ (dataclasses ++
    (".dataclass(kw_only=True" ++ ((if isError = true then ", eq=False" else "") ++ ")")))]))
    (c.definition id).name more doc
  simpa only [append_assoc, cons_append, nil_append] using hlist

theorem gives_enumModule (id : TypeId) (symbols : List String) (default : Option String) :
    Gives (enumModule c id symbols) fun text =>
      EndsWithClass text (c.definition id).name (memberNames o (.enum symbols default)) := by
  refine gives_bind fun base => ?_
  refine (gives_schemaMethod _ _).bind fun method hmethod => ?_
  refine gives_bind fun imports => gives_bind fun document => renders_pure ?_
  have hsymbols : ∀ symbols : List String, Binds (symbols.map fun symbol =>
      "    " ++ (safeName symbol ++ (" = " ++ Json.renderString symbol)))
        (symbols.map safeName) := by
    intro symbols
    induction symbols with
    | nil => exact .nil
    | cons symbol symbols ih => exact .value _ _ ih
  have hblank : Binds (if symbols.isEmpty then [] else [""]) [] := by
    split
    · exact .nil
    · exact .inert (.inl rfl) .nil
  have hclass := Binds.inert (.inl rfl) ((hsymbols symbols).append (hblank.append hmethod))
  rw [memberNames]
  generalize headerLines _ _ _ = header
  generalize documentConstant _ _ = constant
  generalize Option.getD _ _ = doc
  simp only [String.append_assoc]
  have hlist := hclass.endsWithClass (.inl rfl) (header ++ (imports ++ ["", constant, "", ""]))
    (c.definition id).name (base ++ ".Enum):") doc
  simpa only [append_assoc, cons_append, nil_append] using hlist

theorem gives_fixedModule (id : TypeId) (size : Int) :
    Gives (fixedModule c id size) fun text =>
      EndsWithClass text (c.definition id).name (memberNames o (.fixed size)) := by
  have hcheck : Binds
      ["        if len(value) != cls.SIZE:",
       "            raise ValueError(",
       "                \"%s requires %d bytes, got %d\" % (cls.__name__, cls.SIZE, len(value))",
       "            )",
       "        return super().__new__(cls, value)",
       ""] [] := .of_inert (by decide)
  refine (gives_schemaMethod _ _).bind fun method hmethod => ?_
  refine gives_bind fun imports => gives_bind fun document => renders_pure ?_
  have hsize : ∀ text, "    SIZE = " ++ text = "    " ++ ("SIZE" ++ (" = " ++ text)) := by
    intro text
    simp only [← String.append_assoc]
    rfl
  have hnew : ∀ text, "    def __new__(cls, value: bytes = bytes(" ++ text =
      "    def " ++ ("__new__" ++ ("(" ++ ("cls, value: bytes = bytes(" ++ text))) := by
    intro text
    simp only [← String.append_assoc]
    rfl
  have hempty : Inert "" := .inl rfl
  have hclass := Binds.inert hempty (.value "SIZE" (toString size) (.inert hempty
    (.method "__new__" ("cls, value: bytes = bytes(" ++ (toString size ++ (")) -> " ++
      ((c.definition id).name ++ ":")))) (hcheck.append hmethod))))
  rw [memberNames]
  generalize headerLines _ _ _ = header
  generalize documentConstant _ _ = constant
  generalize Option.getD _ _ = doc
  have hbytes : "(bytes):" = "(" ++ "bytes):" := by decide
  simp only [String.append_assoc, hsize, hnew, hbytes]
  have hlist := hclass.endsWithClass (.inl rfl) (header ++ (imports ++ ["", constant, "", ""]))
    (c.definition id).name "bytes):" doc
  simpa only [append_assoc, cons_append, nil_append] using hlist

/-- **The class of a type binds the names of its members.** -/
theorem gives_typeStep (id : TypeId) : Gives (typeStep c o id) fun text =>
    EndsWithClass text (c.definition id).name (memberNames o (c.definition id).body) := by
  unfold typeStep
  cases (c.definition id).body with
  | record isError fields => exact gives_recordModule c o id isError fields
  | enum symbols default => exact gives_enumModule c o id symbols default
  | fixed size => exact gives_fixedModule c o id size

theorem gives_messageMethod (m : Message) :
    Gives (messageMethod c o m) fun lines => Binds lines [safeName m.name] := by
  refine gives_bind fun parameters => ?_
  have hlines : ∀ errors result, Binds (["    def " ++ safeName m.name ++ "(" ++
      ", ".intercalate ("self" :: parameters) ++ ") -> " ++ result ++ ":"] ++
        docString (messageDoc m errors) "        " ++ ["        ..."]) [safeName m.name] := by
    intro errors result
    simp only [String.append_assoc, cons_append, nil_append]
    refine .method _ _ (.of_inert fun line hline => ?_)
    rcases mem_append.mp hline with hline | hline
    · exact inert_docString _ hline
    · rw [mem_singleton.mp hline]
      decide
  dsimp only
  split
  · exact gives_bind fun result => gives_bind fun errors => renders_pure (hlines errors result)
  · exact gives_bind fun result => gives_bind fun errors => renders_pure (hlines errors result)

/-- **The class of a protocol binds the names of its messages.** -/
theorem gives_interfaceModule (p : Protocol) :
    Gives (interfaceModule c o p) fun text => EndsWithClass text p.name (interfaceNames p) := by
  refine (renders_mapM fun m (_ : m ∈ p.messages) => gives_messageMethod c o m).bind
    fun methods hmethods => ?_
  refine gives_bind fun typing => ?_
  refine (gives_schemaMethod _ _).bind fun method hmethod => ?_
  refine gives_bind fun imports => gives_bind fun document => renders_pure ?_
  have hbody : Binds (methods.flatMap fun lines => "" :: lines)
      (p.messages.map fun m => safeName m.name) := by
    clear hmethod
    revert hmethods
    generalize p.messages = messages
    intro hmethods
    induction hmethods with
    | nil => exact .nil
    | cons hlines _ ih => exact .append (.inert (.inl rfl) hlines) ih
  have hclass := hbody.append (.inert (.inl rfl) hmethod)
  rw [interfaceNames]
  generalize headerLines _ _ _ = header
  generalize documentConstant _ _ = constant
  generalize Option.getD _ _ = doc
  simp only [String.append_assoc]
  have hlist := hclass.endsWithClass (.inl rfl) (header ++ (imports ++ ["", constant, "", ""]))
    p.name (typing ++ ".Protocol):") doc
  simpa only [append_assoc, cons_append, nil_append] using hlist

end

/-! ### Mangled names -/

/-- The name that a class binds for one in its body: a name with two underscores in front, and not
at its end, gets the name of the class in front. -/
def mangled (className name : String) : String :=
  let stem := className.toList.dropWhile (· = '_')
  if ['_', '_'] <+: name.toList ∧ ¬ ['_', '_'] <:+ name.toList ∧ stem ≠ [] then
    String.ofList ('_' :: stem) ++ name
  else name

theorem mangled_of_ne (h : mangled className x ≠ x) : mangled className x =
    String.ofList ('_' :: className.toList.dropWhile (· = '_')) ++ x ∧
      className.toList.dropWhile (· = '_') ≠ [] := by
  unfold mangled at h ⊢
  dsimp only at h ⊢
  split at h
  · rename_i hcond
    rw [if_pos hcond]
    exact ⟨rfl, hcond.2.2⟩
  · exact absurd rfl h

theorem mangled_inj (hx : mangled className x ≠ x) (hy : mangled className y ≠ y)
    (h : mangled className x = mangled className y) : x = y := by
  rw [(mangled_of_ne hx).1, (mangled_of_ne hy).1] at h
  simpa [String.toList_inj] using congrArg String.toList h

/-- A mangled name is not mangled again: one underscore is in front of it. -/
theorem mangled_mangled : mangled className (mangled className x) = mangled className x := by
  by_cases hx : mangled className x = x
  · rw [hx, hx]
  · obtain ⟨he, hstem⟩ := mangled_of_ne hx
    have hhead := head?_dropWhile_not (· = '_') className.toList
    generalize hrest : className.toList.dropWhile (· = '_') = stem at he hstem hhead
    cases stem with
    | nil => exact absurd rfl hstem
    | cons c stem =>
      have hc : '_' ≠ c := by
        intro hc
        simp [← hc] at hhead
      rw [he, mangled, if_neg]
      rw [String.toList_append, String.toList_ofList]
      intro hp
      exact hc (cons_prefix_cons.mp (cons_prefix_cons.mp hp.1).2).1

/-- A mangled name is also the name of another member. -/
def MangleClash (className : String) (names : List String) : Prop :=
  ∃ n ∈ names, mangled className n ≠ n ∧ mangled className n ∈ names

theorem nodup_mangled_iff : (names.map (mangled className)).Nodup ↔
    names.Nodup ∧ ¬ MangleClash className names := by
  refine ⟨fun h => ⟨h.of_map, ?_⟩, fun h => h.1.map_on fun a ha b hb hab => ?_⟩
  · rintro ⟨n, hn, hne, hm⟩
    exact hne (inj_on_of_nodup_map h hm hn mangled_mangled)
  · by_cases ha' : mangled className a = a
    · by_cases hb' : mangled className b = b
      · rw [← ha', hab, hb']
      · exact absurd ⟨b, hb, hb', hab ▸ ha'.symm ▸ ha⟩ h.2
    · by_cases hb' : mangled className b = b
      · exact absurd ⟨a, ha, ha', hab ▸ hb'.symm ▸ hb⟩ h.2
      · exact mangled_inj ha' hb' hab

/-! ### Escaped names -/

/-- No escape leads to the name: it is no keyword, and no keyword with an underscore after it. -/
def Unescaped (name : String) : Prop :=
  ∀ k ∈ keywords, k ≠ name ∧ k ++ "_" ≠ name

instance (name : String) : Decidable (Unescaped name) :=
  inferInstanceAs (Decidable (∀ k ∈ keywords, _))

/-- The name of a keyword, and the name that it is escaped to, are both there. -/
def EscapeClash (names : List String) : Prop :=
  ∃ k ∈ keywords, k ∈ names ∧ k ++ "_" ∈ names

theorem escaped_notMem : ∀ k ∈ keywords, k ++ "_" ∉ keywords := by
  decide

theorem safeName_of_mem (h : name ∈ keywords) : safeName name = name ++ "_" := by
  rw [safeName, if_pos (contains_iff_mem.mpr h)]

theorem safeName_of_notMem (h : name ∉ keywords) : safeName name = name := by
  rw [safeName, if_neg (mt contains_iff_mem.mp h)]

theorem safeName_notMem (name : String) : safeName name ∉ keywords := by
  by_cases h : name ∈ keywords
  · rw [safeName_of_mem h]
    exact escaped_notMem name h
  · rwa [safeName_of_notMem h]

theorem Unescaped.notMem (h : Unescaped name) : name ∉ keywords :=
  fun hm => (h name hm).1 rfl

theorem mem_map_safeName (h : Unescaped name) : name ∈ names.map safeName ↔ name ∈ names := by
  refine ⟨fun hm => ?_, fun hm => mem_map.mpr ⟨name, hm, safeName_of_notMem h.notMem⟩⟩
  obtain ⟨n, hn, he⟩ := mem_map.mp hm
  by_cases hk : n ∈ keywords
  · rw [safeName_of_mem hk] at he
    exact absurd he (h n hk).2
  · rw [safeName_of_notMem hk] at he
    exact he ▸ hn

theorem nodup_safeNames_iff (h : names.Nodup) :
    (names.map safeName).Nodup ↔ ¬ EscapeClash names := by
  refine ⟨fun hd => ?_, fun hc => h.map_on fun a ha b hb hab => ?_⟩
  · rintro ⟨k, hk, hm, hm'⟩
    have hsafe : safeName k = safeName (k ++ "_") := by
      rw [safeName_of_mem hk, safeName_of_notMem (escaped_notMem k hk)]
    exact escaped_notMem k hk (inj_on_of_nodup_map hd hm hm' hsafe ▸ hk)
  · by_cases ha' : a ∈ keywords
    · by_cases hb' : b ∈ keywords
      · rw [safeName_of_mem ha', safeName_of_mem hb'] at hab
        simpa [String.toList_inj] using congrArg String.toList hab
      · rw [safeName_of_mem ha', safeName_of_notMem hb'] at hab
        exact absurd ⟨a, ha', ha, hab ▸ hb⟩ hc
    · by_cases hb' : b ∈ keywords
      · rw [safeName_of_notMem ha', safeName_of_mem hb'] at hab
        exact absurd ⟨b, hb', hb, hab ▸ ha⟩ hc
      · rwa [safeName_of_notMem ha', safeName_of_notMem hb'] at hab

/-- The names meet each other once they are escaped, or the name of the method. -/
def Clash (method : String) (names : List String) : Prop :=
  EscapeClash names ∨ method ∈ names

theorem nodup_safeNames_method_iff {method : String} (hm : Unescaped method) (h : names.Nodup) :
    (names.map safeName ++ [method]).Nodup ↔ ¬ Clash method names := by
  rw [nodup_append, nodup_safeNames_iff h, Clash, not_or, ← mem_map_safeName hm]
  simp

/-! ### Names of members -/

/-- A name with one of the given words in front is no keyword, and none is escaped to it. -/
theorem unescaped_append {word : String} (h : word ∈ ["_", "get_", "set_"]) (name : String) :
    Unescaped (word ++ name) := by
  have hwords : ∀ word ∈ ["_", "get_", "set_"], ∀ k ∈ keywords,
      ¬ word.toList <+: k.toList ∧ ¬ word.toList <+: (k ++ "_").toList := by decide
  intro k hk
  refine ⟨fun he => (hwords word h k hk).1 ?_, fun he => (hwords word h k hk).2 ?_⟩
  · rw [he, String.toList_append]
    exact prefix_append _ _
  · rw [he, String.toList_append]
    exact prefix_append _ _

theorem unescaped_accessor (h : a ∈ accessorNames x) : Unescaped a := by
  simp only [accessorNames, mem_cons, not_mem_nil, or_false] at h
  rcases h with rfl | rfl
  · exact unescaped_append (by decide) x
  · exact unescaped_append (by decide) x

theorem accessorNames_inj (hx : a ∈ accessorNames x) (hy : a ∈ accessorNames y) :
    x = y := by
  simp only [accessorNames, mem_cons, not_mem_nil, or_false] at hx hy
  rcases hx with rfl | rfl <;> rcases hy with h | h <;>
    simpa [String.toList_inj] using congrArg String.toList h

theorem head?_accessor (h : a ∈ names.flatMap accessorNames) :
    a.toList.head? = some 'g' ∨ a.toList.head? = some 's' := by
  obtain ⟨x, -, ha⟩ := mem_flatMap.mp h
  simp only [accessorNames, mem_cons, not_mem_nil, or_false] at ha
  rcases ha with rfl | rfl <;> simp

theorem nodup_accessors (h : names.Nodup) : (names.flatMap accessorNames).Nodup := by
  refine nodup_flatMap.mpr ⟨fun x _ => ?_, h.imp fun hne a ha hb => ?_⟩
  · have hne : "get_" ++ x ≠ "set_" ++ x := by
      intro he
      simpa using congrArg String.toList he
    simp [accessorNames, hne]
  · exact hne (accessorNames_inj ha hb)

theorem nodup_members_iff {attributes : List String} (h : names.Nodup) :
    (attributes ++ "avro_schema" :: names.flatMap accessorNames).Nodup ↔ attributes.Nodup ∧
      "avro_schema" ∉ attributes ∧ ∀ a ∈ names.flatMap accessorNames, a ∉ attributes := by
  have hmethod : "avro_schema" ∉ names.flatMap accessorNames := by
    intro hm
    exact absurd (head?_accessor hm) (by decide)
  rw [nodup_append, nodup_cons]
  constructor
  · rintro ⟨ha, -, hne⟩
    exact ⟨ha, fun hm => hne _ hm _ mem_cons_self rfl,
      fun a hm hm' => hne a hm' a (mem_cons_of_mem _ hm) rfl⟩
  · rintro ⟨ha, hm, hne⟩
    refine ⟨ha, ⟨hmethod, nodup_accessors h⟩, ?_⟩
    rintro a haA b hb rfl
    rcases mem_cons.mp hb with rfl | hb
    · exact hm haA
    · exact hne a hb haA

/-- Two members of the class get one name, before any is mangled. -/
def Body.Clash (o : CompileOptions) : Body → Prop
  | .record _ fields => o.visibility ≠ .isPrivate ∧
      (Avroc.Clash "avro_schema" (fields.map (·.name)) ∨
        ∃ x ∈ fields.map (·.name), ∃ a ∈ accessorNames x, a ∈ fields.map (·.name))
  | .enum symbols _ => Avroc.Clash "avro_schema" symbols
  | .fixed _ => False

theorem nodup_memberNames_iff (o : CompileOptions) {body : Body} (h : body.Lawful) :
    (memberNames o body).Nodup ↔ ¬ body.Clash o := by
  cases body with
  | record isError fields =>
    have hnames : (fields.map (·.name)).Nodup := h.1
    have hmembers : memberNames o (.record isError fields) =
        (fields.map (·.name)).map (attributeName o) ++
          "avro_schema" :: (fields.map (·.name)).flatMap accessorNames := by
      rw [memberNames, map_map, flatMap_map]
      rfl
    rw [hmembers, nodup_members_iff hnames, Body.Clash]
    generalize fields.map (·.name) = names at hnames
    by_cases hprivate : o.visibility = .isPrivate
    · have hslot : attributeName o = ("_" ++ ·) := by
        funext name
        rw [attributeName, if_pos hprivate]
      rw [hslot]
      refine iff_of_true ⟨?_, ?_, ?_⟩ fun hc => hc.1 hprivate
      · exact hnames.map fun x y hxy => by
          simpa [String.toList_inj] using congrArg String.toList hxy
      · intro hm
        obtain ⟨x, -, he⟩ := mem_map.mp hm
        simpa using congrArg String.toList he
      · intro a ha hm
        obtain ⟨x, -, rfl⟩ := mem_map.mp hm
        simpa using head?_accessor ha
    · have hslot : attributeName o = safeName := by
        funext name
        rw [attributeName, if_neg hprivate]
      have hfree : (∀ a ∈ names.flatMap accessorNames, a ∉ names.map safeName) ↔
          ¬ ∃ x ∈ names, ∃ a ∈ accessorNames x, a ∈ names := by
        refine ⟨?_, fun h a ha hm => ?_⟩
        · rintro h ⟨x, hx, a, ha, hm⟩
          exact h a (mem_flatMap.mpr ⟨x, hx, ha⟩)
            ((mem_map_safeName (unescaped_accessor ha)).mpr hm)
        · obtain ⟨x, hx, hax⟩ := mem_flatMap.mp ha
          exact h ⟨x, hx, a, hax, (mem_map_safeName (unescaped_accessor hax)).mp hm⟩
      rw [hslot, nodup_safeNames_iff hnames, mem_map_safeName (by decide), Avroc.Clash, hfree]
      simp only [ne_eq, hprivate, not_false_eq_true, true_and, not_or, and_assoc]
  | enum symbols default => exact nodup_safeNames_method_iff (by decide) h.1
  | fixed size => exact iff_of_true (show ["SIZE", "__new__", "avro_schema"].Nodup by decide) id

/-- No member is a keyword. -/
theorem memberNames_notMem (o : CompileOptions) (body : Body) (h : n ∈ memberNames o body) :
    n ∉ keywords := by
  have hmethod : "avro_schema" ∉ keywords := by decide
  cases body with
  | record isError fields =>
    rw [memberNames, mem_append, mem_cons] at h
    rcases h with h | rfl | h
    · obtain ⟨f, -, rfl⟩ := mem_map.mp h
      rw [attributeName]
      split
      · exact (unescaped_append (by decide) f.name).notMem
      · exact safeName_notMem f.name
    · exact hmethod
    · obtain ⟨f, -, hf⟩ := mem_flatMap.mp h
      exact (unescaped_accessor hf).notMem
  | enum symbols default =>
    rw [memberNames, mem_append, mem_singleton] at h
    rcases h with h | rfl
    · obtain ⟨symbol, -, rfl⟩ := mem_map.mp h
      exact safeName_notMem symbol
    · exact hmethod
  | fixed size =>
    revert n
    show ∀ n ∈ ["SIZE", "__new__", "avro_schema"], n ∉ keywords
    decide

theorem interfaceNames_notMem (p : Protocol) (h : n ∈ interfaceNames p) :
    n ∉ keywords := by
  rw [interfaceNames, mem_append, mem_singleton] at h
  rcases h with h | rfl
  · obtain ⟨m, -, rfl⟩ := mem_map.mp h
    exact safeName_notMem m.name
  · decide

/-! ### Classes -/

/-- The members of the class are different, and neither they nor the class have a keyword as
name. -/
structure BoundOnce (className : String) (names : List String) : Prop where
  distinct : (names.map (mangled className)).Nodup
  members : ∀ n ∈ names, n ∉ keywords
  name : className ∉ keywords

theorem boundOnce_iff {clash : Prop} (hnames : ∀ n ∈ names, n ∉ keywords)
    (hclash : names.Nodup ↔ ¬ clash) :
    BoundOnce className names ↔
      className ∉ keywords ∧ ¬ clash ∧ ¬ MangleClash className names := by
  rw [← hclash, ← nodup_mangled_iff]
  exact ⟨fun h => ⟨h.name, h.distinct⟩, fun h => ⟨h.2, hnames, h.1⟩⟩

/-- The messages of protocols that have been read have different names. -/
theorem ParseCall.nodup_messages {base : Nat} {s : Scope} (h : s.Orderly base)
    (calls : List ParseCall) {p : Protocol} (hp : .ok (.protocol p) ∈ (runAll calls s).1) :
    (p.messages.map (·.name)).Nodup := by
  induction calls generalizing s with
  | nil => cases hp
  | cons call calls ih =>
    rcases mem_cons.mp hp with hp | hp
    · have hrun : Yields call.run s (.protocol p) (outcome call.run s).2 := Prod.ext hp.symm rfl
      cases call with
      | schema text =>
        obtain ⟨_, _, -, hr⟩ := yields_bind.mp hrun
        cases (yields_pure.mp hr).1
      | protocol text =>
        obtain ⟨_, _, hread, hr⟩ := yields_bind.mp hrun
        cases (yields_pure.mp hr).1
        exact (parts_of_readProtocolText hread).2
      | idl disk path text =>
        obtain ⟨_, _, hread, hr⟩ := yields_bind.mp hrun
        cases (yields_pure.mp hr).1
        exact (Idl.parts_of_readIdl h hread).2
    · exact ih (leads_run h call).rel.orderly hp

/-- **The members of a class are different exactly if there is no clash**: two that get one name, or
a mangled name that another has.  None is a keyword, but the class may have one as its name. -/
theorem members_distinct_iff (s : Scope) (hempty : s.registry.entries = [])
    (hc : s.registry.checksNames = true) (calls : List ParseCall) (o : CompileOptions) :
    let read := (ParseCall.runAll calls s).1
    let catalog := (ParseCall.runAll calls s).2.catalog
    (∀ id ∈ (ParseCall.runAll calls s).2.registry.types,
      let d := catalog.definition id
      (∀ file, typeModule catalog o id = .ok file →
        EndsWithClass file.content d.name (memberNames o d.body)) ∧
      (BoundOnce d.name (memberNames o d.body) ↔
        d.name ∉ keywords ∧ ¬ d.body.Clash o ∧ ¬ MangleClash d.name (memberNames o d.body))) ∧
    ∀ p, .ok (.protocol p) ∈ read →
      (∀ files, protocolModules catalog o p = .ok files → ∃ types interface,
        files = types ++ [interface] ∧
          EndsWithClass interface.content p.name (interfaceNames p)) ∧
      (BoundOnce p.name (interfaceNames p) ↔
        p.name ∉ keywords ∧ ¬ Clash "avro_protocol" (p.messages.map (·.name)) ∧
          ¬ MangleClash p.name (interfaceNames p)) := by
  refine ⟨fun id hid => ⟨fun file hfile => ?_, ?_⟩, fun p hp => ⟨fun files hfiles => ?_, ?_⟩⟩
  · obtain ⟨t, ht⟩ := exists_of_typeModule hfile
    exact (gives_typeStep _ o id).of_run (run_of_typeUnit ht).2
  · exact boundOnce_iff (fun n => memberNames_notMem o _)
      (nodup_memberNames_iff o (ParseCall.lawful_runAll hempty hc calls id hid).1.body)
  · obtain ⟨types, interface, t, -, ht, hfiles⟩ := exists_of_protocolModules hfiles
    exact ⟨types, interface, hfiles,
      (gives_interfaceModule _ o p).of_run (run_of_interfaceUnit ht).2⟩
  · have hnames := ParseCall.nodup_messages (Scope.orderly_of_empty hempty) calls hp
    refine boundOnce_iff (fun n => interfaceNames_notMem p) ?_
    rw [← nodup_safeNames_method_iff (by decide) hnames, map_map]
    rfl

/-- A record whose name is a keyword, with a field for which there is an accessor of another; an
enum with a keyword and what it is escaped to; and a protocol with a mangled name. -/
def crowded : List ParseCall :=
  [.schema ("\x7b\"type\":\"record\",\"name\":\"class\",\"fields\":[" ++
      "\x7b\"name\":\"x\",\"type\":\"int\"\x7d,\x7b\"name\":\"get_x\",\"type\":\"int\"\x7d]\x7d"),
    .schema "\x7b\"type\":\"enum\",\"name\":\"E\",\"symbols\":[\"in\",\"in_\"]\x7d",
    .idl ⟨.directory [] 0, [], 0, []⟩ none "protocol P \x7b void __f(); void _P__f(); \x7d"]

theorem members_distinct_iff_crowded :
    let s := Scope.initial true true
    (s.registry.entries = [] ∧ s.registry.checksNames = true) ∧
      ((ParseCall.runAll crowded s).1.map (·.isOk) = [true, true, true] ∧
        (ParseCall.runAll crowded s).2.registry.names = ["class", "E"]) ∧
      ∀ id ∈ (ParseCall.runAll crowded s).2.registry.types,
        let d := (ParseCall.runAll crowded s).2.catalog.definition id
        BoundOnce d.name (memberNames {} d.body) ↔
          d.name ∉ keywords ∧ ¬ d.body.Clash {} ∧
            ¬ MangleClash d.name (memberNames {} d.body) :=
  ⟨⟨rfl, rfl⟩, by decide +kernel,
    fun id hid => ((members_distinct_iff _ rfl rfl crowded {}).1 id hid).2⟩

/-- The names of fields and classes that are accepted may clash or be keywords. -/
theorem members_of_crowded :
    let c := (ParseCall.runAll crowded (Scope.initial true true)).2.catalog
    ((c.definition ⟨0⟩).name ∈ keywords ∧
      memberNames {} (c.definition ⟨0⟩).body =
        ["x", "get_x", "avro_schema", "get_x", "set_x", "get_get_x", "set_get_x"]) ∧
    memberNames {} (c.definition ⟨1⟩).body = ["in_", "in_", "avro_schema"] ∧
    mangled "P" "__f" = "_P__f" := by
  decide +kernel

end Avroc
