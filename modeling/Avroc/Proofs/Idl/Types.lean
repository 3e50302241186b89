import Avroc.Proofs.Idl.Outline
import Avroc.Proofs.Idl.Textual
import Avroc.Proofs.Schema.Agree
import Avroc.Proofs.Schema.Laid

/-!
# Types in the definition language

A type expression defines nothing: every name in it is known.  So the type that it denotes can be
laid where it stands, and its outline says which named types it can reach.

* `follows_typeExpr` : a type expression has an outline, and denotes a type.
-/

namespace Avroc

open List

variable {outer space : Option String} {t : Schema} {s : Scope} {o : TypeOutline}

/-- The registry lists the catalog, and every type has a namespace. -/
structure Scope.Ready (s : Scope) : Prop where
  sound : s.Sound
  complete : s.Complete
  spaced : s.catalog.Spaced

theorem Scope.Ready.known (hs : s.Ready) {name : String} {id : TypeId}
    (h : s.registry.resolve name space = some id) : Lays s (.type (.named id)) s := by
  obtain ⟨full, hget, -⟩ := Registry.get?_of_resolve h
  exact hs.complete.known hs.spaced (hs.sound.get? full id hget).1

namespace Idl

/-- The type that a name means inside namespace `space` of a protocol in namespace `outer`. -/
def declared? (s : Scope) (outer space : Option String) (name : String) : Option TypeId :=
  (s.registry.resolve name space).or (s.registry.resolve name outer)

/-- The type can be laid without a change, and reaches only what the outline mentions. -/
structure Denotes (outer space : Option String) (s : Scope) (o : TypeOutline) (t : Schema) :
    Prop where
  lays : Lays s (.type t) s
  within : ∀ n, (∀ name ∈ o.mentions, ∀ id ∈ declared? s outer space name, id.index < n) →
    t.Within n

section
variable {outer space : Option String}

theorem Denotes.primitive {kind : Primitive} {props : Members} (h : props.Avoids typeAttributes) :
    Denotes outer space s o (.primitive kind props) :=
  ⟨.primitive h, fun _ _ => ⟨props, rfl, rfl⟩⟩

theorem denotes_keywordType {word : String} (h : keywordType? word = some t) :
    Denotes outer space s o t := by
  have hlogical : ∀ text, Members.Avoids [("logicalType", .string text)] typeAttributes := by
    intro text m hm
    obtain rfl := mem_singleton.mp hm
    simp [typeAttributes]
  unfold keywordType? at h
  dsimp only at h
  split at h
  case h_6 =>
    obtain ⟨kind, -, rfl⟩ := Option.map_eq_some_iff.mp h
    exact .primitive fun m hm => absurd hm not_mem_nil
  all_goals
    cases h
    exact .primitive (hlogical _)

theorem Denotes.mono {p : TypeOutline} (h : Denotes outer space s p t)
    (ho : ∀ name ∈ p.mentions, name ∈ o.mentions) : Denotes outer space s o t :=
  ⟨h.lays, fun n hn => h.within n fun name hname => hn name (ho name hname)⟩

theorem denotes_makeUnion {ts : List Schema} {s' : Scope} (h : Yields (makeUnion ts) s t s')
    (hts : ∀ t ∈ ts, Denotes outer space s o t) : Denotes outer space s o t := by
  obtain ⟨rfl, hcheck⟩ := yields_makeUnion.mp h
  obtain ⟨rfl, -⟩ := yields_checkBranches.mp hcheck
  refine ⟨.union ?_ hcheck, fun n hn => ?_⟩
  · clear h hcheck
    induction ts with
    | nil => exact .noBranch
    | cons t ts ih =>
      obtain ⟨ht, hts⟩ := forall_mem_cons.mp hts
      exact .branch ht.lays (ih hts)
  · refine ⟨ts, rfl, Schema.allAlike_iff.mpr (List.forall₂_same.mpr fun t ht => ?_)⟩
    exact (hts t ht).within n hn

end

/-- The names that a keyword or the name of a type mentions. -/
theorem denotes_namedType {token : Token} {c c' : Cursor}
    (h : Yields (namedType outer space token) c t c') :
    c' = { c with tokens := advance c.tokens } ∧ (c.session.scope.Ready →
      Denotes outer space c.session.scope ⟨[], token.mentions⟩ t) := by
  unfold namedType at h
  simp only [yields_bind, yields_discard, yields_next] at h
  obtain ⟨_, _, ⟨_, -, rfl⟩, h⟩ := h
  split at h
  · rename_i type htype
    obtain ⟨rfl, rfl⟩ := yields_pure.mp h
    refine ⟨rfl, fun _ => ?_⟩
    split at htype
    · cases htype
    · exact denotes_keywordType htype
  · rename_i htype
    unfold declaredType at h
    rw [yields_get_bind] at h
    dsimp only at h
    split at h
    · rename_i id hid
      obtain ⟨rfl, rfl⟩ := yields_pure.mp h
      refine ⟨rfl, fun hs => ⟨?_, fun n hn => ⟨id, rfl, rfl, ?_⟩⟩⟩
      · rcases Option.or_eq_some_iff.mp hid with hid | ⟨-, hid⟩
        · exact hs.known hid
        · exact hs.known hid
      · refine hn token.value ?_ id hid
        unfold Token.mentions
        rw [htype]
        exact mem_singleton.mpr rfl
    · simp at h

/-! ### Type expressions -/

/-- The expression denotes its type; one that a question mark has made optional is a union with
null. -/
structure Expresses (outer space : Option String) (s : Scope) (o : TypeOutline) (e : TypeExpr) :
    Prop where
  denotes : Denotes outer space s o e.type
  optional : e.optional = true → ∃ u, e.type = .union [.plain .null, u]

/-- A type and what may follow it. -/
theorem follows_optionalType (outer space : Option String) (token : Token) (o : TypeOutline)
    (t : Schema) : Follows optionalOutline (optionalType token t)
      (Quiet fun s e _ => Denotes outer space s o t → Expresses outer space s o e) := by
  intro c e c' h
  unfold optionalType at h
  obtain ⟨mark, c₁, hmark, h⟩ := yields_bind.mp h
  obtain ⟨rfl, hr⟩ := (looks_atPunct "?").reads hmark
  cases mark with
  | false =>
    simp only [Bool.false_eq_true, if_false, yields_pure] at h
    obtain ⟨rfl, rfl⟩ := h
    exact ⟨(), hr.bind (Reads.pure _ _), rfl, fun ht => ⟨ht, fun ho => by cases ho⟩⟩
  | true =>
    simp only [if_true, yields_bind] at h
    obtain ⟨_, c₂, hnext, h⟩ := h
    obtain ⟨ts, rfl, hrnext⟩ := textual_next.discard.reads hnext
    split at h
    · simp at h
    · simp only [yields_bind, yields_pure] at h
      obtain ⟨u, c₃, hu, rfl, rfl⟩ := h
      obtain ⟨s', hunion, rfl⟩ := yields_locating.mp hu
      obtain ⟨rfl, hcheck⟩ := yields_makeUnion.mp hunion
      obtain ⟨rfl, -⟩ := yields_checkBranches.mp hcheck
      refine ⟨(), hr.bind hrnext, rfl, fun ht => ⟨?_, fun _ => ⟨t, rfl⟩⟩⟩
      have hnull : Denotes outer space c₁.session.scope o (.plain .null) :=
        .primitive fun m hm => absurd hm not_mem_nil
      exact denotes_makeUnion hunion (by simpa using ⟨hnull, ht⟩)

/-- A type expression without properties denotes its type. -/
def ReadsType (outer space : Option String) (s : Scope) (e : TypeExpr) (o : TypeOutline) : Prop :=
  s.Ready → o.props = [] → Expresses outer space s o e

/-- A type in angle brackets, as part of an array or a map. -/
theorem follows_bracketed {x : Parsing TypeExpr} {y : Parsing TypeOutline}
    (h : Follows y x (Quiet (ReadsType outer space))) {f : Schema → Schema}
    (hf : ∀ s o t, Denotes outer space s o t → Denotes outer space s o (f t)) :
    Follows (do discard next; expectPunct "<"; let inside ← y; expectPunct ">"; return inside)
      (do discard next; expectPunct "<"; let e ← x; expectPunct ">"; return f e.type)
      (Quiet fun s t o => s.Ready → o.props = [] → Denotes outer space s o t) := by
  intro c t c' ht
  simp only [yields_bind, yields_pure] at ht
  obtain ⟨_, c₁, h₁, _, c₂, h₂, e, c₃, h₃, _, c₄, h₄, rfl, rfl⟩ := ht
  obtain ⟨ts₁, rfl, hr₁⟩ := textual_next.discard.reads h₁
  obtain ⟨ts₂, rfl, hr₂⟩ := (textual_expectPunct "<").reads h₂
  obtain ⟨o, hr₃, hc₃, ho⟩ := h _ _ _ h₃
  obtain ⟨ts₄, rfl, hr₄⟩ := (textual_expectPunct ">").reads h₄
  refine ⟨o, hr₁.bind (hr₂.bind (hr₃.bind (hr₄.bind (Reads.pure _ _)))), by rw [hc₃], ?_⟩
  exact fun hs hprops => hf _ _ _ (ho hs hprops).denotes

theorem denotes_decimalType {c c' : Cursor} (h : Yields decimalType c t c') :
    Denotes outer space s o t := by
  simp only [decimalType, yields_bind, yields_pure] at h
  obtain ⟨_, _, -, _, _, -, precision, _, -, _, _, -, scale, _, -, _, _, -, rfl, -⟩ := h
  refine .primitive fun m hm => ?_
  simp only [mem_cons, not_mem_nil, or_false] at hm
  rcases hm with rfl | rfl | rfl <;> simp [typeAttributes]

theorem follows_insideType {x : Parsing TypeExpr} {y : Parsing TypeOutline}
    (h : Follows y x (Quiet (ReadsType outer space))) (token : Token) :
    Follows (insideOutline y token) (insideType outer space x token)
      (Quiet fun s t o => s.Ready → o.props = [] → Denotes outer space s o t) := by
  intro c t c' ht
  unfold insideType at ht
  unfold insideOutline
  have hnone : Members.Avoids [] typeAttributes := fun m hm => absurd hm not_mem_nil
  split at ht
  · rename_i harray
    rw [if_pos (by rw [harray]; rfl)]
    refine follows_bracketed h (f := fun t => .array t []) ?_ _ _ _ ht
    exact fun s o t hd => ⟨.array hnone hd.lays, fun n hn => ⟨_, [], rfl, hd.within n hn, rfl⟩⟩
  split at ht
  · rename_i harray hmap
    rw [if_pos (by rw [hmap, Bool.or_true])]
    refine follows_bracketed h (f := fun t => .map t []) ?_ _ _ _ ht
    exact fun s o t hd => ⟨.map hnone hd.lays, fun n hn => ⟨_, [], rfl, hd.within n hn, rfl⟩⟩
  rename_i harray hmap
  rw [if_neg (by simp [harray, hmap])]
  split at ht
  · rename_i hunion
    rw [if_pos hunion]
    simp only [yields_bind] at ht
    obtain ⟨_, c₁, h₁, _, c₂, h₂, es, c₃, h₃, _, c₄, h₄, ht⟩ := ht
    obtain ⟨ts₁, rfl, hr₁⟩ := textual_next.discard.reads h₁
    obtain ⟨ts₂, rfl, hr₂⟩ := (textual_expectPunct "\x7b").reads h₂
    obtain ⟨os, hr₃, hchain⟩ := h.commaList _ _ _ h₃
    obtain ⟨hc₃, hos⟩ := hchain.quiet
    obtain ⟨ts₄, rfl, hr₄⟩ := (textual_expectPunct "\x7d").reads h₄
    obtain ⟨s', hu, rfl⟩ := yields_locating.mp ht
    obtain ⟨rfl, hcheck⟩ := yields_makeUnion.mp hu
    obtain ⟨rfl, -⟩ := yields_checkBranches.mp hcheck
    refine ⟨_, hr₁.bind (hr₂.bind (hr₃.bind (hr₄.bind (Reads.pure _ _)))), ?_, ?_⟩
    · rw [hc₃]
      rfl
    · intro hs hprops
      rw [hc₃] at hu
      refine denotes_makeUnion hu fun t ht => ?_
      obtain ⟨e, he, rfl⟩ := mem_map.mp ht
      obtain ⟨o, ho, heo⟩ := exists_mem_of_forall₂ hos he
      refine (heo hs (flatMap_eq_nil_iff.mp hprops o ho)).denotes.mono fun name hname => ?_
      exact mem_flatMap.mpr ⟨o, ho, hname⟩
  rename_i hunion
  rw [if_neg hunion]
  split at ht
  · rename_i hdecimal
    rw [if_pos hdecimal]
    obtain ⟨ts₁, rfl, hr⟩ := textual_decimalType.reads ht
    exact ⟨_, hr.discard.bind (Reads.pure _ _), rfl, fun _ _ => denotes_decimalType ht⟩
  · rename_i hdecimal
    rw [if_neg hdecimal]
    obtain ⟨rfl, hd⟩ := denotes_namedType ht
    exact ⟨_, (reads_discard_next c.tokens).bind (Reads.pure _ _), rfl, fun hs _ => hd hs⟩

/-- **A type expression has an outline, and denotes a type.** -/
theorem follows_typeWithin (outer space : Option String) (depth : Nat) :
    Follows (typeOutlineWithin depth) (typeWithin outer space depth)
      (Quiet (ReadsType outer space)) := by
  induction depth with
  | zero =>
    intro c e c' h
    simp [typeWithin] at h
  | succ depth ih =>
    intro c e c' h
    simp only [typeWithin, typeOf, yields_bind] at h
    obtain ⟨props, c₁, hprops, token, c₂, htoken, h⟩ := h
    obtain ⟨ts₁, rfl, hr₁⟩ := textual_properties.reads hprops
    obtain ⟨rfl, hr₂⟩ := looks_peek.reads htoken
    split at h
    · simp at h
    · rw [yields_bind] at h
      obtain ⟨t, c₃, ht, h⟩ := h
      obtain ⟨o, hr₃, hc₃, ho⟩ := follows_insideType ih token _ _ _ ht
      obtain ⟨_, hr₄, hc', hopt⟩ := follows_optionalType outer space token o _ _ _ _ h
      refine ⟨_, hr₁.bind (hr₂.bind (hr₃.bind (hr₄.bind (Reads.pure _ _)))), ?_, ?_⟩
      · rw [hc', hc₃]
      · intro hs hprops
        obtain ⟨rfl, hprops⟩ := append_eq_nil_iff.mp hprops
        rw [hc₃] at hopt
        exact hopt (ho hs hprops)

theorem follows_typeExpr (outer space : Option String) :
    Follows typeOutline (typeExpr outer space) (Quiet (ReadsType outer space)) := by
  intro c e c' h
  unfold typeExpr at h
  rw [yields_get_bind] at h
  obtain ⟨o, hr, ho⟩ := follows_typeWithin outer space _ _ _ _ h
  exact ⟨o, Reads.fromTokens (f := fun ts => typeOutlineWithin ts.length) hr, ho⟩

end Idl

end Avroc
