import Avroc.Proofs.Idl.Attributes
import Avroc.Proofs.Protocol.Building

/-!
# Looking at the scope

The steps for types, fields, headers and the parts of messages look names up in the scope, and
check what they have read in view of it.  None of them changes anything but the tokens, whether it
succeeds or not, so that what they have seen of the scope goes on being so.  Where the attributes
ahead are legal, the fields that are read keep the rules for them.

* `observes_typeExpr` : the types that are read stand.
* `observes_fieldDeclaration` : the fields that are read have passed the checks.
-/

namespace Avroc.Idl

open List

variable {atEnd : Parsing Bool} {legal : Prop} {s : Scope} {t : Schema} {e : TypeExpr}
  {inner : Parsing TypeExpr} {α : Type} {Q : α → Prop}

/-! ### Steps that look -/

/-- At every cursor with the scope `s` the step only moves the cursor on, whether it succeeds or
not, and its results have the property `Q`.  The attributes ahead are known to be legal if `legal`
holds. -/
def Observes {α : Type} (legal : Prop) (s : Scope) (x : Parsing α) (Q : α → Prop) : Prop :=
  ∀ c, c.session.scope = s → (legal → Legal c.tokens) →
    Leads Cursor.Moved c (fun a _ => Q a) (outcome x c)

section
variable {β : Type} {x : Parsing α} {f : α → Parsing β} {R : β → Prop}

theorem Textual.observes (hx : Textual x) : Observes legal s x fun _ => True :=
  fun c _ _ => ⟨hx.state c, fun _ _ => trivial⟩

theorem Observes.of_still (hx : Still x)
    (h : ∀ c a, c.session.scope = s → Yields x c a c → Q a) : Observes legal s x Q :=
  fun c hc _ => hx.leads (.refl c) fun a hy => h c a hc hy

theorem observes_pure {a : α} (h : Q a) : Observes legal s (pure a) Q :=
  fun c _ _ => leads_pure (.refl c) h

theorem observes_failAt (token : Token) (fault : Fault) : Observes legal s (failAt token fault) Q :=
  .of_still (still_failAt token fault) fun _ _ _ hy => absurd hy not_yields_failAt

theorem observes_failHere (fault : Fault) : Observes legal s (failHere fault) Q :=
  .of_still (fun _ => rfl) fun _ _ _ hy => absurd hy not_yields_failHere

theorem Observes.bind (hx : Observes legal s x Q) (hf : ∀ a, Q a → Observes legal s (f a) R) :
    Observes legal s (x >>= f) R :=
  fun c hc hl => (hx c hc hl).bind fun a c₁ h₁ ha =>
    hf a ha c₁ (by rw [h₁.rest]; exact hc) (h₁.tokens.legal hl)

/-- A step on tokens comes first. -/
theorem Textual.observes_bind (hx : Textual x) (hf : ∀ a, Observes legal s (f a) R) :
    Observes legal s (x >>= f) R :=
  hx.observes.bind fun a _ => hf a

theorem observes_get_bind {f : Cursor → Parsing β}
    (hf : ∀ c, c.session.scope = s → Observes legal s (f c) R) : Observes legal s (get >>= f) R :=
  fun c hc hl => hf c hc c hc hl

theorem still_reading {x : Reading α} (hx : Still x) : Still (reading x) := by
  intro c
  show c.withScope (outcome x c.session.scope).2 = c
  rw [hx]
  rfl

/-- A check in view of the scope. -/
theorem observes_reading {x : Reading α} (hx : Still x) (h : ∀ a, Yields x s a s → Q a) :
    Observes legal s (reading x) Q := by
  refine .of_still (still_reading hx) fun c a hc hy => ?_
  obtain ⟨s', hs', -⟩ := yields_reading.mp hy
  obtain rfl := hx.state_eq hs'
  exact h a (hc ▸ hs')

/-- A check whose refusals are placed at a token. -/
theorem observes_locating (token : Token) {x : Reading α} (hx : Still x)
    (h : ∀ a, Yields x s a s → Q a) : Observes legal s (locating token x) Q := by
  refine .of_still (still_tryCatch (still_reading hx) fun e => ?_) fun c a hc hy => ?_
  · split
    · exact still_failAt _ _
    · exact still_throw _
  · obtain ⟨s', hs', -⟩ := yields_locating.mp hy
    obtain rfl := hx.state_eq hs'
    exact h a (hc ▸ hs')

/-! ### Repetition -/

theorem observes_manyWithin (hend : Textual atEnd) (hx : Observes legal s x Q) (bound : Nat) :
    Observes legal s (manyWithin atEnd x bound) fun as => ∀ a ∈ as, Q a := by
  induction bound with
  | zero => exact observes_pure (forall_mem_nil _)
  | succ bound ih =>
    refine hend.observes_bind fun isEnd => ?_
    split
    · exact observes_pure (forall_mem_nil _)
    · refine hx.bind fun a ha => ih.bind fun as has => ?_
      exact observes_pure (forall_mem_cons.mpr ⟨ha, has⟩)

theorem observes_many (hend : Textual atEnd) (hx : Observes legal s x Q) :
    Observes legal s (many atEnd x) fun as => ∀ a ∈ as, Q a :=
  observes_get_bind fun c _ => observes_manyWithin hend hx c.tokens.length

theorem observes_listUntil (closing : String) (hx : Observes legal s x Q) :
    Observes legal s (listUntil closing x) fun as => ∀ a ∈ as, Q a := by
  refine observes_many (textual_atPunct closing) (hx.bind fun a ha => ?_)
  refine (textual_atPunct closing).observes_bind fun isEnd => ?_
  split
  · exact observes_pure ha
  · exact (textual_expectPunct ",").observes_bind fun _ => observes_pure ha

theorem observes_commaList (hx : Observes legal s x Q) :
    Observes legal s (commaList x) fun as => ∀ a ∈ as, Q a := by
  refine hx.bind fun a ha => Observes.bind (Q := fun as => ∀ a ∈ as, Q a) ?_ fun as has => ?_
  · refine observes_many ((textual_atPunct ",").bind fun _ => .pure _) ?_
    exact textual_next.discard.observes_bind fun _ => hx
  · exact observes_pure (forall_mem_cons.mpr ⟨ha, has⟩)

end

theorem observes_properties :
    Observes legal s properties fun props => legal → LegalProperties props :=
  fun c _ hl => ⟨textual_properties.state c, fun props hp h =>
    legal_of_properties (hl h) (textual_properties.result c props _ (Prod.ext hp rfl))⟩

/-! ### Types -/

theorem stands_keywordType? {word : String} (h : keywordType? word = some t) (s : Scope) :
    t.Stands s := by
  unfold keywordType? at h
  dsimp only at h
  split at h
  iterate 5
    cases h
    exact .primitive _ _
  obtain ⟨kind, -, rfl⟩ := Option.map_eq_some_iff.mp h
  exact .primitive _ _

theorem stands_attach (h : t.Stands s) (props : Members) :
    (attach t props).1.Stands s := by
  unfold attach
  split
  · exact h
  · cases h with
    | primitive kind own => exact .primitive _ _
    | array own hi => exact .array _ hi
    | map own hv => exact .map _ hv
    | union hts hu hkeys => exact .union hts hu hkeys
    | named hid hget => exact .named hid hget

theorem stands_variableType (h : e.type.Stands s) (default : Option Json) :
    (variableType e default).Stands s := by
  unfold variableType
  split
  · rename_i he
    exact he ▸ h
  · rename_i he
    rw [he] at h
    cases h with
    | union hts hu hkeys =>
      refine .union (fun t ht => hts t (mem_reverse.mp ht))
        (fun t ht => hu t (mem_reverse.mp ht)) ?_
      rw [map_reverse]
      exact pairwise_reverse.mpr (hkeys.imp Ne.symm)
  · exact h

section
variable {base : Nat} (hs : s.Orderly base) (outer space : Option String)
include hs

theorem observes_declaredType (token : Token) :
    Observes legal s (declaredType outer space token) fun t => t.Stands s := by
  refine observes_get_bind fun c hc => ?_
  subst hc
  dsimp only
  split
  · rename_i id hid
    refine observes_pure ?_
    rcases Option.or_eq_some_iff.mp hid with hid | ⟨-, hid⟩
    · exact hs.stands_of_resolve hid
    · exact hs.stands_of_resolve hid
  · exact observes_failAt _ _

theorem observes_namedType (token : Token) :
    Observes legal s (namedType outer space token) fun t => t.Stands s := by
  refine textual_next.discard.observes_bind fun _ => ?_
  split
  · rename_i t ht
    split at ht
    · cases ht
    · exact observes_pure (stands_keywordType? ht s)
  · exact observes_declaredType hs outer space token

omit hs in
theorem observes_decimalType : Observes legal s decimalType fun t => t.Stands s := by
  refine textual_next.discard.observes_bind fun _ => ?_
  refine (textual_expectPunct "(").observes_bind fun _ => ?_
  refine textual_integerLiteral.observes_bind fun _ => ?_
  refine (textual_expectPunct ",").observes_bind fun _ => ?_
  refine textual_integerLiteral.observes_bind fun _ => ?_
  refine (textual_expectPunct ")").observes_bind fun _ => ?_
  exact observes_pure (.primitive _ _)

omit hs in
theorem observes_makeUnion (token : Token) {ts : List Schema} (hts : ∀ t ∈ ts, t.Stands s) :
    Observes legal s (locating token (makeUnion ts)) fun t => t.Stands s :=
  observes_locating token (still_makeUnion ts) fun _ ht => (stands_of_makeUnion hts ht).2

omit hs in
theorem observes_optionalType (token : Token) (ht : t.Stands s) :
    Observes legal s (optionalType token t) fun e => e.type.Stands s := by
  refine (textual_atPunct "?").observes_bind fun isOptional => ?_
  split
  · refine textual_next.discard.observes_bind fun _ => ?_
    split
    · exact observes_failHere _
    · refine (observes_makeUnion token (forall_mem_cons.mpr ⟨.primitive _ _, ?_⟩)).bind
        fun u hu => observes_pure hu
      exact forall_mem_singleton.mpr ht
  · exact observes_pure ht

omit hs in
/-- A type expression between angle brackets. -/
theorem observes_bracketed (hinner : Observes legal s inner fun e => e.type.Stands s)
    {g : Schema → Schema} (hg : ∀ t, t.Stands s → (g t).Stands s) :
    Observes legal s (do
      discard next
      expectPunct "<"
      let items ← inner
      expectPunct ">"
      return g items.type) fun t => t.Stands s := by
  refine textual_next.discard.observes_bind fun _ => ?_
  refine (textual_expectPunct "<").observes_bind fun _ => hinner.bind fun e he => ?_
  exact (textual_expectPunct ">").observes_bind fun _ => observes_pure (hg _ he)

theorem observes_insideType (hinner : Observes legal s inner fun e => e.type.Stands s)
    (token : Token) :
    Observes legal s (insideType outer space inner token) fun t => t.Stands s := by
  unfold insideType
  split
  · exact observes_bracketed hinner (g := fun t => .array t []) fun _ => .array _
  split
  · exact observes_bracketed hinner (g := fun t => .map t []) fun _ => .map _
  split
  · refine textual_next.discard.observes_bind fun _ => ?_
    refine (textual_expectPunct "\x7b").observes_bind fun _ => ?_
    refine (observes_commaList hinner).bind fun branches hbranches => ?_
    refine (textual_expectPunct "\x7d").observes_bind fun _ => ?_
    exact observes_makeUnion token (forall_mem_map.mpr hbranches)
  split
  · exact observes_decimalType
  · exact observes_namedType hs outer space token

theorem observes_typeWithin (depth : Nat) :
    Observes legal s (typeWithin outer space depth) fun e => e.type.Stands s := by
  induction depth with
  | zero => exact textual_peek.observes_bind fun _ => observes_failHere _
  | succ depth ih =>
    refine textual_properties.observes_bind fun props => ?_
    refine textual_peek.observes_bind fun token => ?_
    split
    · exact observes_failHere _
    · exact (observes_insideType hs outer space ih token).bind fun t ht =>
        observes_optionalType token (stands_attach ht props)

/-- **The types that are read stand.** -/
theorem observes_typeExpr :
    Observes legal s (typeExpr outer space) fun e => e.type.Stands s :=
  observes_get_bind fun c _ => observes_typeWithin hs outer space c.tokens.length

/-! ### Fields -/

omit hs in
/-- A check of names where refusals are placed at a token. -/
theorem observes_checkName (token : Token) (name : String) :
    Observes legal s (locating token (checkName name))
      fun _ => s.registry.checksNames = true → isLegalName name = true :=
  observes_locating token (steady_checkName name).still fun _ hy => (yields_checkName.mp hy).2

omit hs in
theorem observes_declarator (he : e.type.Stands s) (doc : Option String) (extra : Members) :
    Observes legal s (declarator e doc extra) fun f => f.Passes legal s := by
  refine observes_properties.bind fun props hprops => ?_
  refine textual_peek.observes_bind fun token => ?_
  refine textual_simpleIdentifier.observes_bind fun name => ?_
  refine (observes_checkName token name).bind fun _ hname => ?_
  refine textual_defaultValue.observes_bind fun default => ?_
  refine observes_locating token (still_makeField _) fun f hf => ?_
  exact (passes_of_makeField hf ⟨stands_variableType he default, hname⟩
    fun hl => ⟨(hprops hl).order, (hprops hl).aliases⟩).2

/-- A type with the properties before it, and what is declared with it. -/
theorem observes_typed {f : TypeExpr → Members → Parsing α} (props : Members)
    (hf : ∀ e extra, e.type.Stands s → Observes legal s (f e extra) Q) :
    Observes legal s (do
      let expr ← typeExpr outer space
      f { expr with type := (attach expr.type props).1 } (attach expr.type props).2) Q :=
  (observes_typeExpr hs outer space).bind fun _ he => hf _ _ (stands_attach he props)

/-- **The fields that are read have passed the checks.** -/
theorem observes_fieldDeclaration :
    Observes legal s (fieldDeclaration outer space) fun fs => ∀ f ∈ fs, f.Passes legal s := by
  refine textual_peek.observes_bind fun first => ?_
  refine textual_properties.observes_bind fun props => ?_
  refine observes_typed hs outer space props (f := fun e extra => do
    let fields ← commaList (declarator e first.doc extra)
    expectPunct ";"
    return fields) fun e extra he => ?_
  refine (observes_commaList (observes_declarator he first.doc extra)).bind fun fields hfields => ?_
  exact (textual_expectPunct ";").observes_bind fun _ => observes_pure hfields

/-! ### Headers -/

omit hs in
theorem observes_declaredSpace (written : String) (value : Json) :
    Observes legal s (declaredSpace written value)
      fun space => s.registry.checksNames = true → LegalSpace space := by
  have hspace : Textual (if written.toList.contains '.' then pure (splitName written none).2
      else spaceProperty value) := by
    refine .ite (.pure _) ?_
    unfold spaceProperty
    split
    · exact .pure _
    · exact .ite (textual_throw _) (.pure _)
  have hbind : Observes legal s ((if written.toList.contains '.' then
      pure (splitName written none).2 else spaceProperty value) >>= fun space => do
        reading (checkSpace space)
        return space) fun space => s.registry.checksNames = true → LegalSpace space := by
    refine hspace.observes_bind fun space => ?_
    refine Observes.bind (Q := fun _ => s.registry.checksNames = true → LegalSpace space) ?_
      fun _ hlegal => observes_pure hlegal
    exact observes_reading (steady_checkSpace space).still fun _ hy => (yields_checkSpace.mp hy).2
  unfold declaredSpace
  split <;> rename_i hdot
  · rwa [if_pos hdot] at hbind
  · rwa [if_neg hdot] at hbind

omit hs in
theorem observes_header (props : Members) : Observes legal s (header outer props) fun h =>
    (s.registry.checksNames = true → isLegalName h.name = true ∧ LegalSpace h.space) ∧
      (LegalProperties props → h.aliases.all isText = true) := by
  refine textual_identifier.observes_bind fun written => ?_
  refine Observes.bind (Q := fun _ => s.registry.checksNames = true →
    isLegalName (splitName written none).1 = true) ?_ fun _ hname => ?_
  · exact observes_reading (steady_checkName _).still fun _ hy => (yields_checkName.mp hy).2
  · refine (observes_declaredSpace written _).bind fun space hspace => ?_
    split
    · rename_i aliases he
      refine observes_pure ⟨fun hc => ⟨hname hc, hspace hc⟩, fun hprops => ?_⟩
      have haliases := hprops.aliases
      rwa [he] at haliases
    · exact observes_failHere _

/-- What a fixed type starts with: the place of its name, its header and its size. -/
def fixedHead (outer : Option String) (props : Members) : Parsing (Token × Header × Int) := do
  expectKeyword "fixed"
  let start ← peek
  let h ← header outer props
  expectPunct "("
  return (start, h, ← integerLiteral)

omit hs in
/-- The size of a fixed type is the one that is written. -/
theorem observes_fixedHead (props : Members) : Observes legal s (fixedHead outer props) fun r =>
    ((s.registry.checksNames = true → isLegalName r.2.1.name = true ∧ LegalSpace r.2.1.space) ∧
      (LegalProperties props → r.2.1.aliases.all isText = true)) ∧ (legal → 0 ≤ r.2.2) := by
  intro c hc hl
  have hhead : Observes legal s (fixedHead outer props) fun r =>
      (s.registry.checksNames = true → isLegalName r.2.1.name = true ∧ LegalSpace r.2.1.space) ∧
        (LegalProperties props → r.2.1.aliases.all isText = true) := by
    refine (textual_expectKeyword "fixed").observes_bind fun _ => ?_
    refine textual_peek.observes_bind fun start => ?_
    refine (observes_header outer props).bind fun h hh => ?_
    refine (textual_expectPunct "(").observes_bind fun _ => ?_
    exact textual_integerLiteral.observes_bind fun _ => observes_pure hh
  refine ⟨(hhead c hc hl).rel, fun r hr => ⟨(hhead c hc hl).result r hr, fun h => ?_⟩⟩
  have hy : Yields (fixedHead outer props) c r _ := Prod.ext hr rfl
  simp only [fixedHead, yields_bind, yields_pure] at hy
  obtain ⟨_, c₁, h₁, start, c₂, h₂, head, c₃, h₃, _, c₄, h₄, size, c₅, h₅, rfl, -⟩ := hy
  obtain ⟨ts₁, rfl, hr₁⟩ := (textual_expectKeyword "fixed").reads h₁
  obtain ⟨rfl, -⟩ := looks_peek.reads h₂
  obtain ⟨written, hr₃, -⟩ := follows_header outer props _ _ _ h₃
  obtain ⟨ts₄, rfl, hr₄⟩ := (textual_expectPunct "(").reads h₄
  obtain ⟨ts₅, rfl, hr₅⟩ := textual_integerLiteral.reads h₅
  exact nonneg_of_fixedSize (hl h) hr₁ (hr₃.discard.bind (hr₄.bind hr₅))

/-! ### Parts of messages -/

theorem observes_responseType : Observes legal s (responseType outer) fun t => t.Stands s := by
  refine (textual_atKeyword "void").observes_bind fun isVoid => ?_
  split
  · exact textual_next.discard.observes_bind fun _ => observes_pure (.primitive _ _)
  · exact (observes_typeExpr hs outer outer).bind fun e he => observes_pure he

theorem observes_parameter : Observes legal s (parameter outer) fun f => f.Passes legal s := by
  refine textual_properties.observes_bind fun props => ?_
  exact observes_typed hs outer outer props fun e extra he => observes_declarator he none extra

theorem observes_errorType :
    Observes legal s (errorType outer) fun id => (Schema.named id).Stands s := by
  refine textual_peek.observes_bind fun token => ?_
  refine textual_identifier.observes_bind fun name => observes_get_bind fun c hc => ?_
  subst hc
  split
  · rename_i id hid
    exact observes_locating token (still_checkErrorType _) fun _ hy =>
      stands_of_checkErrorType (hs.stands_of_resolve hid) hy
  · exact observes_failAt _ _

theorem observes_messageEnd :
    Observes legal s (messageEnd outer) fun e => ∀ id ∈ e.2, (Schema.named id).Stands s := by
  refine (textual_atKeyword "oneway").observes_bind fun isOneWay => ?_
  split
  · exact textual_next.discard.observes_bind fun _ => observes_pure (forall_mem_nil _)
  refine (textual_atKeyword "throws").observes_bind fun hasErrors => ?_
  split
  · refine textual_next.discard.observes_bind fun _ => ?_
    exact (observes_commaList (observes_errorType hs outer)).bind fun ids hids => observes_pure hids
  · exact observes_pure (forall_mem_nil _)

end

end Avroc.Idl
