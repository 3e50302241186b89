import Avroc.Proofs.Idl.Messages
import Avroc.Proofs.Schema.Attributes

/-!
# Attributes in the definition language

The definition language takes the values of the properties `order` and `aliases` and the sizes of
fixed types as they are written.  Here is said which texts write legal values in these places.

* `legal_of_properties` : the properties that are read have legal values.
-/

namespace Avroc.Idl

open List

variable {α : Type} {x : Parsing α} {ts ts' rest : List Token} {a : α} {t : Token} {v : Json}
  {props : Members} {c c' : Cursor}

/-! ### Texts with legal attributes -/

/-- The result that a step has if the given tokens are ahead. -/
def ahead? {α : Type} (x : Parsing α) (ts : List Token) : Option α :=
  (outcome x { (default : Cursor) with tokens := ts }).1.toOption

theorem ahead?_eq (h : Reads x ts a ts') : ahead? x ts = some a := by
  rw [ahead?, show outcome x { (default : Cursor) with tokens := ts } = _ from h.2 _ rfl]
  rfl

/-- The value of a property, after its name. -/
def propertyValue : Parsing Json := do
  expectPunct "("
  jsonValue

/-- The size of a fixed type, after the keyword. -/
def fixedSize : Parsing Int := do
  discard identifier
  expectPunct "("
  integerLiteral

/-- Whether a property that is an attribute of fields or types has a legal value. -/
def isLegalProperty (key : String) (value : Json) : Bool :=
  if key = "order" then isOrder value
  else if key = "aliases" then isTextList value
  else true

/-- Whether the attribute that a token starts is legal, given the tokens after it. -/
def startsLegally (t : Token) (rest : List Token) : Bool :=
  if t.kind = .prop then
    (ahead? propertyValue rest).all (isLegalProperty (String.ofList (t.value.toList.drop 1)))
  else if t.isKeyword "fixed" then (ahead? fixedSize rest).all (0 ≤ ·)
  else true

/-- Whether all attributes among the tokens are legal. -/
def writesLegally : List Token → Bool
  | [] => true
  | t :: rest => startsLegally t rest && writesLegally rest

/-- The attributes among the tokens are legal. -/
def Legal (ts : List Token) : Prop :=
  writesLegally ts = true

theorem Legal.of_suffix (h : Legal ts) (hs : ts' <:+ ts) : Legal ts' := by
  induction ts with
  | nil => rwa [suffix_nil.mp hs]
  | cons t ts ih =>
    rcases suffix_cons_iff.mp hs with rfl | hs
    · exact h
    · rw [Legal, writesLegally, Bool.and_eq_true] at h
      exact ih h.2 hs

theorem Reads.legal (h : Reads x ts a ts') (hts : Legal ts) : Legal ts' :=
  hts.of_suffix h.1.suffix

theorem Legal.property (h : Legal (t :: rest)) (hk : t.kind = .prop)
    (hr : Reads propertyValue rest v ts') :
    isLegalProperty (String.ofList (t.value.toList.drop 1)) v = true := by
  rw [Legal, writesLegally, Bool.and_eq_true, startsLegally, if_pos hk, ahead?_eq hr] at h
  exact h.1

theorem Legal.size {size : Int} (h : Legal (t :: rest)) (hk : t.isKeyword "fixed" = true)
    (hr : Reads fixedSize rest size ts') : 0 ≤ size := by
  have hprop : t.kind ≠ .prop := by
    intro hp
    simp [Token.isKeyword, hp] at hk
  rw [Legal, writesLegally, Bool.and_eq_true, startsLegally, if_neg hprop, if_pos hk,
    ahead?_eq hr] at h
  simpa using h.1

theorem Moves.legal {legal : Prop} (h : Moves ts ts') (hts : legal → Legal ts) (hl : legal) :
    Legal ts' :=
  (hts hl).of_suffix h.suffix

/-! ### Properties -/

/-- The properties that are attributes of fields or types have legal values. -/
def LegalProperties (props : Members) : Prop :=
  ∀ m ∈ props, isLegalProperty m.1 m.2 = true

theorem LegalProperties.get? (h : LegalProperties props) {key : String}
    (hv : props.get? key = some v) : isLegalProperty key v = true :=
  h (key, v) (Members.mem_of_get? hv)

theorem LegalProperties.order (h : LegalProperties props) :
    LegalOrder ((props.get? "order").getD .null) := by
  cases hv : props.get? "order" with
  | none => exact .inl rfl
  | some v => exact isOrder_iff.mp (h.get? hv)

theorem LegalProperties.aliases (h : LegalProperties props) :
    isTextList ((props.get? "aliases").getD (.array [])) = true := by
  cases hv : props.get? "aliases" with
  | none => rfl
  | some v => exact h.get? hv

/-- A property whose name is ahead has a legal value. -/
theorem legal_of_property {m : String × Json} (hc : Legal c.tokens)
    (hk : (c.tokens.headD (.eof 1)).kind = .prop) (h : Yields property c m c') :
    isLegalProperty m.1 m.2 = true ∧ Legal c'.tokens := by
  simp only [property, yields_bind, yields_pure] at h
  obtain ⟨token, c₁, h₁, _, c₂, h₂, value, c₃, h₃, _, c₄, h₄, rfl, rfl⟩ := h
  obtain ⟨rfl, rfl⟩ := yields_next.mp h₁
  obtain ⟨ts₂, rfl, hr₂⟩ := (textual_expectPunct "(").reads h₂
  obtain ⟨ts₃, rfl, hr₃⟩ := textual_jsonValue.reads h₃
  obtain ⟨ts₄, rfl, hr₄⟩ := (textual_expectPunct ")").reads h₄
  obtain ⟨session, path, tokens, messages⟩ := c
  cases tokens with
  | nil => cases hk
  | cons t rest =>
    have hne : t.kind ≠ .eof := by
      intro he
      rw [headD_cons, he] at hk
      cases hk
    simp only [advance, if_neg hne] at hr₂ hr₃ hr₄
    refine ⟨hc.property hk (hr₂.bind hr₃), hr₄.legal (hr₃.legal (hr₂.legal ?_))⟩
    exact hc.of_suffix (suffix_cons t rest)

theorem legal_of_manyWithin (bound : Nat) {written : Members} (hc : Legal c.tokens)
    (h : Yields (manyWithin (return (← peek).kind ≠ .prop) property bound) c written c') :
    LegalProperties written := by
  induction bound generalizing c written with
  | zero =>
    obtain ⟨rfl, -⟩ := yields_pure.mp h
    exact forall_mem_nil _
  | succ bound ih =>
    obtain ⟨isEnd, c₂, hend, h⟩ := yields_bind.mp h
    obtain ⟨t, c₃, ht, hend⟩ := yields_bind.mp hend
    obtain ⟨rfl, rfl⟩ := yields_peek.mp ht
    obtain ⟨rfl, rfl⟩ := yields_pure.mp hend
    split at h
    · obtain ⟨rfl, -⟩ := yields_pure.mp h
      exact forall_mem_nil _
    · rename_i hk
      obtain ⟨m, c₄, hm, h⟩ := yields_bind.mp h
      obtain ⟨ms, c₅, hms, h⟩ := yields_bind.mp h
      obtain ⟨rfl, rfl⟩ := yields_pure.mp h
      obtain ⟨hlegal, hc₄⟩ := legal_of_property hc (by simpa using hk) hm
      exact forall_mem_cons.mpr ⟨hlegal, ih hc₄ hms⟩

/-- The properties ahead have legal values. -/
theorem legal_of_properties (hts : Legal ts) (h : Reads properties ts props ts') :
    LegalProperties props := by
  obtain ⟨written, c₁, hmany, hy⟩ :=
    yields_bind.mp (h.2 { (default : Cursor) with tokens := ts } rfl)
  obtain ⟨rfl, -⟩ := yields_pure.mp hy
  have hwritten : LegalProperties written := legal_of_manyWithin ts.length hts hmany
  intro m hm
  exact (Members.mem_of_mem_update hm).elim (hwritten m) fun hm => absurd hm not_mem_nil

/-! ### Sizes -/

theorem exists_of_expectKeyword {word : String} {u : Unit}
    (h : Reads (expectKeyword word) ts u ts') : ∃ t, ts = t :: ts' ∧ t.isKeyword word = true := by
  have hy := h.2 { (default : Cursor) with tokens := ts } rfl
  simp only [expectKeyword, yields_bind, yields_peek] at hy
  obtain ⟨token, c₁, ⟨rfl, rfl⟩, hy⟩ := hy
  split at hy
  · rename_i hk
    obtain ⟨t, hnext⟩ := yields_discard.mp hy
    obtain ⟨-, he⟩ := yields_next.mp hnext
    have htokens : ts' = advance ts := congrArg Cursor.tokens he
    cases ts with
    | nil => simp [Token.isKeyword, Token.eof] at hk
    | cons t rest =>
      have hne : t.kind ≠ .eof := by
        intro he
        simp [Token.isKeyword, he] at hk
      rw [advance, if_neg hne] at htokens
      exact ⟨t, by rw [htokens], hk⟩
  · simp at hy

/-- The size after the keyword is not negative. -/
theorem nonneg_of_fixedSize {ts₁ : List Token} {size : Int} (hts : Legal ts)
    (hr : Reads (expectKeyword "fixed") ts () ts₁) (hsize : Reads fixedSize ts₁ size ts') :
    0 ≤ size := by
  obtain ⟨t, rfl, hk⟩ := exists_of_expectKeyword hr
  exact hts.size hk hsize

/-! ### Texts -/

/-- Whether the attributes that a text writes are legal. -/
def textIsLegal (text : String) : Bool :=
  match tokenize none text with
  | .ok tokens => writesLegally tokens
  | .error _ => true

theorem legal_of_tokenize {path : Option Path} {text : String} (htext : textIsLegal text = true)
    (h : tokenize path text = .ok ts) : Legal ts := by
  rwa [textIsLegal, tokenize_none h] at htext

/-- The attributes that the files of the disk write are legal. -/
def FilesAreLegal (d : Disk) : Prop :=
  ∀ path text, d.readSource path = .ok text → textIsLegal text = true

end Avroc.Idl
