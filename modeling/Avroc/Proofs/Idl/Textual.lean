import Avroc.Idl.Declaration
import Avroc.Proofs.Schema.Scope
import Mathlib.Data.List.Forall2

/-!
# Steps that read tokens

Most steps of the definition language look only at the tokens ahead.  Such a step gives the same
result at every cursor with the same tokens, and changes nothing but the tokens.

* `textual_properties`, `textual_jsonValue` and the like : the steps for literals are textual.
* `Follows`, `Follows.many` : a second step goes through the same tokens, part by part.
-/

namespace Avroc.Idl

open List

variable {c c' : Cursor} {ts ts' ts₁ : List Token} {part : Parsing α} {token t : Token}
  {fault : Fault} {atEnd : Parsing Bool}

section
variable {α β : Type}

/-- Going through the tokens `ts` as far as `ts'`, which never passes the end of the text. -/
def Moves (ts ts' : List Token) : Prop :=
  ∃ passed, ts = passed ++ ts' ∧ ∀ t ∈ passed, t.kind ≠ .eof

theorem Moves.refl (ts : List Token) : Moves ts ts :=
  ⟨[], rfl, forall_mem_nil _⟩

theorem Moves.trans (h : Moves ts ts₁) (h' : Moves ts₁ ts') : Moves ts ts' := by
  obtain ⟨passed, rfl, hk⟩ := h
  obtain ⟨more, rfl, hk'⟩ := h'
  exact ⟨passed ++ more, (append_assoc ..).symm, forall_mem_append.mpr ⟨hk, hk'⟩⟩

theorem Moves.suffix (h : Moves ts ts') : ts' <:+ ts :=
  h.imp fun _ h => h.1.symm

/-- The step reads the tokens `ts` down to `ts'` with the result `a`, whatever else is at the
cursor. -/
def Reads (x : Parsing α) (ts : List Token) (a : α) (ts' : List Token) : Prop :=
  Moves ts ts' ∧ ∀ c : Cursor, c.tokens = ts → Yields x c a { c with tokens := ts' }

/-- The cursor has moved on, and nothing else has changed. -/
structure Cursor.Moved (c c' : Cursor) : Prop where
  rest : c' = { c with tokens := c'.tokens }
  tokens : Moves c.tokens c'.tokens

theorem Cursor.Moved.refl (c : Cursor) : c.Moved c :=
  ⟨rfl, .refl _⟩

instance : Trans Cursor.Moved Cursor.Moved Cursor.Moved :=
  ⟨fun h h' => ⟨by rw [h'.rest, h.rest], h.tokens.trans h'.tokens⟩⟩

/-- The step moves the cursor on, whether it succeeds or not, and its result depends on nothing but
the tokens. -/
structure Textual (x : Parsing α) : Prop where
  state : ∀ c : Cursor, c.Moved (outcome x c).2
  result : ∀ c a c', Yields x c a c' → Reads x c.tokens a c'.tokens

theorem Reads.pure (a : α) (ts : List Token) : Reads (pure a) ts a ts := by
  refine ⟨.refl _, ?_⟩
  rintro c rfl
  exact yields_pure.mpr ⟨rfl, rfl⟩

theorem Reads.bind {x : Parsing α} {f : α → Parsing β} {a : α} {b : β} (h : Reads x ts a ts₁)
    (h' : Reads (f a) ts₁ b ts') : Reads (x >>= f) ts b ts' := by
  refine ⟨h.1.trans h'.1, fun c hc => ?_⟩
  exact yields_bind.mpr ⟨a, _, h.2 c hc, h'.2 { c with tokens := ts₁ } rfl⟩

theorem Reads.discard {x : Parsing α} {a : α} (h : Reads x ts a ts') :
    Reads (Functor.discard x) ts ⟨⟩ ts' :=
  ⟨h.1, fun c hc => yields_discard.mpr ⟨a, h.2 c hc⟩⟩

/-! ### Textual steps -/

theorem Textual.pure (a : α) : Textual (pure a : Parsing α) := by
  refine ⟨.refl, fun c b c' h => ?_⟩
  obtain ⟨rfl, rfl⟩ := yields_pure.mp h
  exact Reads.pure _ _

theorem Textual.bind {x : Parsing α} {f : α → Parsing β} (hx : Textual x)
    (hf : ∀ a, Textual (f a)) : Textual (x >>= f) := by
  refine ⟨fun c => ?_, fun c b c' h => ?_⟩
  · have hs := hx.state c
    rw [outcome_bind]
    rcases hr : outcome x c with ⟨e | a, c₁⟩ <;> rw [hr] at hs
    · exact hs
    · exact Trans.trans hs ((hf a).state c₁)
  · obtain ⟨a, c₁, h₁, h₂⟩ := yields_bind.mp h
    exact (hx.result c a c₁ h₁).bind ((hf a).result c₁ b c' h₂)

/-- A step that never succeeds and leaves the cursor alone is textual. -/
theorem Textual.of_refusal {x : Parsing α} (hs : Still x) (h : ∀ c a c', ¬ Yields x c a c') :
    Textual x :=
  ⟨fun c => by rw [hs c]; exact .refl c, fun c a c' hy => absurd hy (h c a c')⟩

theorem Textual.ite {p : Prop} [Decidable p] {x y : Parsing α} (hx : Textual x)
    (hy : Textual y) : Textual (if p then x else y) := by
  split
  · exact hx
  · exact hy

theorem Textual.map {x : Parsing α} (f : α → β) (hx : Textual x) : Textual (f <$> x) := by
  rw [map_eq_pure_bind]
  exact hx.bind fun a => Textual.pure (f a)

theorem Textual.discard {x : Parsing α} (hx : Textual x) :
    Textual (Functor.discard x : Parsing PUnit) :=
  hx.map _

@[simp] theorem not_yields_failAt {a : α} :
    ¬ Yields (failAt token fault) c a c' := by
  simp [failAt]

@[simp] theorem not_yields_failHere {a : α} : ¬ Yields (failHere fault) c a c' := by
  simp [failHere]

theorem still_failAt (token : Token) (fault : Fault) : Still (failAt token fault : Parsing α) :=
  still_get.bind fun _ => still_throw _

theorem textual_failAt (token : Token) (fault : Fault) : Textual (failAt token fault : Parsing α) :=
  .of_refusal (still_failAt token fault) fun _ _ _ => not_yields_failAt

theorem textual_failHere (fault : Fault) : Textual (failHere fault : Parsing α) :=
  .of_refusal (fun _ => rfl) fun _ _ _ => not_yields_failHere

theorem textual_throw (e : Error) : Textual (throw e : Parsing α) :=
  .of_refusal (still_throw e) fun _ _ _ => not_yields_throw

/-! ### Tokens ahead -/

@[simp] theorem yields_peek :
    Yields peek c t c' ↔ t = c.tokens.headD (.eof 1) ∧ c' = c := by
  simp only [peek, yields_bind, yields_get, yields_pure]
  constructor
  · rintro ⟨_, _, ⟨rfl, rfl⟩, rfl, rfl⟩
    exact ⟨rfl, rfl⟩
  · rintro ⟨rfl, rfl⟩
    exact ⟨_, _, ⟨rfl, rfl⟩, rfl, rfl⟩

theorem textual_peek : Textual peek := by
  refine ⟨.refl, fun c t c' h => ?_⟩
  obtain ⟨rfl, rfl⟩ := yields_peek.mp h
  refine ⟨.refl _, fun d hd => ?_⟩
  exact yields_peek.mpr ⟨by rw [hd], by rw [← hd]⟩

/-- The tokens after the one ahead; the end of the text stays ahead. -/
def advance : List Token → List Token
  | [] => []
  | t :: ts => if t.kind = .eof then t :: ts else ts

theorem moves_advance (ts : List Token) : Moves ts (advance ts) := by
  cases ts with
  | nil => exact .refl _
  | cons t ts =>
    rw [advance]
    split
    · exact .refl _
    · exact ⟨[t], rfl, forall_mem_singleton.mpr ‹_›⟩

@[simp] theorem yields_next : Yields next c t c' ↔
    t = c.tokens.headD (.eof 1) ∧ c' = { c with tokens := advance c.tokens } := by
  obtain ⟨session, path, tokens, messages⟩ := c
  rw [next, yields_get_bind]
  cases tokens with
  | nil => exact yields_pure
  | cons t₀ ts =>
    by_cases hk : t₀.kind = .eof
    · simp [hk, advance]
    · simp [hk, advance, and_comm]

theorem textual_next : Textual next := by
  refine ⟨fun c => ?_, fun c t c' h => ?_⟩
  · have hy : Yields next c _ _ := yields_next.mpr ⟨rfl, rfl⟩
    rw [show outcome next c = _ from hy]
    exact ⟨rfl, moves_advance _⟩
  · obtain ⟨rfl, rfl⟩ := yields_next.mp h
    refine ⟨moves_advance _, fun d hd => ?_⟩
    exact yields_next.mpr ⟨by rw [hd], by rw [hd]⟩

theorem reads_discard_next (ts : List Token) : Reads (discard next) ts ⟨⟩ (advance ts) := by
  refine ⟨moves_advance _, ?_⟩
  rintro c rfl
  exact yields_discard.mpr ⟨_, yields_next.mpr ⟨rfl, rfl⟩⟩

theorem textual_atPunct (mark : String) : Textual (atPunct mark) :=
  textual_peek.bind fun _ => .pure _

theorem textual_atKeyword (word : String) : Textual (atKeyword word) :=
  textual_peek.bind fun _ => .pure _

/-! ### Expected tokens -/

theorem textual_expectPunct (mark : String) : Textual (expectPunct mark) :=
  textual_peek.bind fun _ => .ite textual_next.discard (textual_failHere _)

theorem textual_expectKeyword (word : String) : Textual (expectKeyword word) :=
  textual_peek.bind fun _ => .ite textual_next.discard (textual_failHere _)

theorem textual_identifier : Textual identifier :=
  textual_peek.bind fun _ => .ite (textual_failHere _) (textual_next.discard.bind fun _ => .pure _)

theorem textual_simpleIdentifier : Textual simpleIdentifier :=
  textual_peek.bind fun _ => .ite (textual_failHere _)
    (.ite (textual_failHere _) (textual_next.discard.bind fun _ => .pure _))

/-! ### Repetition -/

theorem textual_manyWithin (hend : Textual atEnd) (hpart : Textual part) (bound : Nat) :
    Textual (manyWithin atEnd part bound) := by
  induction bound with
  | zero => exact .pure _
  | succ bound ih =>
    refine hend.bind fun _ => .ite (.pure _) ?_
    exact hpart.bind fun _ => ih.bind fun _ => .pure _

/-- A step that starts from the tokens ahead is textual if every one it may take is. -/
theorem Textual.fromTokens {f : List Token → Parsing α} (hf : ∀ ts, Textual (f ts)) :
    Textual (do f (← get).tokens) := by
  refine ⟨fun c => (hf c.tokens).state c, fun c a c' h => ?_⟩
  rw [yields_get_bind] at h
  obtain ⟨hsub, hrun⟩ := (hf _).result _ _ _ h
  refine ⟨hsub, fun d hd => ?_⟩
  rw [yields_get_bind, hd]
  exact hrun d hd

theorem textual_many (hend : Textual atEnd) (hpart : Textual part) : Textual (many atEnd part) :=
  .fromTokens fun ts => textual_manyWithin hend hpart ts.length

theorem textual_listItem (closing : String) (hpart : Textual part) :
    Textual (listItem closing part) := by
  refine hpart.bind fun _ => (textual_atPunct closing).bind fun _ => ?_
  split
  · exact .pure _
  · exact (textual_expectPunct ",").bind fun _ => .pure _

theorem textual_listUntil (closing : String) (hpart : Textual part) :
    Textual (listUntil closing part) :=
  textual_many (textual_atPunct closing) (textual_listItem closing hpart)

/-! ### Literals -/

theorem textual_stringLiteral : Textual stringLiteral := by
  refine textual_next.bind fun token => .ite (textual_failAt _ _) ?_
  split
  · exact .pure _
  · exact textual_failAt _ _

theorem textual_wholeNumber (cs : List Char) : Textual (wholeNumber cs) :=
  .ite (textual_throw _) (.pure _)

theorem textual_integerLiteral : Textual integerLiteral :=
  textual_next.bind fun _ => .ite (textual_wholeNumber _) (textual_failAt _ _)

theorem textual_numberValue (cs : List Char) : Textual (numberValue cs) :=
  .ite ((textual_wholeNumber cs).bind fun _ => .pure _) (.pure _)

theorem textual_jsonMember {part : Parsing Json} (h : Textual part) : Textual (jsonMember part) :=
  textual_stringLiteral.bind
    fun _ => (textual_expectPunct ":").bind fun _ => h.bind fun _ => .pure _

theorem textual_jsonValueOf {part : Parsing Json} (h : Textual part) :
    Textual (jsonValueOf part) := by
  refine textual_peek.bind fun token => ?_
  split
  · exact textual_stringLiteral.bind fun _ => .pure _
  · exact textual_next.discard.bind fun _ => textual_numberValue _
  · exact textual_next.discard.bind fun _ => .pure _
  · refine .ite ?_ (.ite ?_ (textual_failHere _))
    · refine textual_next.discard.bind fun _ => (textual_listUntil "]" h).bind fun _ => ?_
      exact textual_next.discard.bind fun _ => .pure _
    · refine textual_next.discard.bind fun _ => ?_
      refine (textual_listUntil "\x7d" (textual_jsonMember h)).bind fun _ => ?_
      exact textual_next.discard.bind fun _ => .pure _

theorem textual_jsonValueWithin (depth : Nat) : Textual (jsonValueWithin depth) := by
  induction depth with
  | zero => exact textual_peek.bind fun _ => textual_failHere _
  | succ depth ih => exact textual_jsonValueOf ih

theorem textual_jsonValue : Textual jsonValue :=
  .fromTokens fun ts => textual_jsonValueWithin ts.length

theorem textual_property : Textual property := by
  refine textual_next.bind fun _ => (textual_expectPunct "(").bind fun _ => ?_
  exact textual_jsonValue.bind fun _ => (textual_expectPunct ")").bind fun _ => .pure _

theorem textual_properties : Textual properties :=
  (textual_many (textual_peek.bind fun _ => .pure _) textual_property).bind fun _ => .pure _

theorem textual_decimalType : Textual decimalType := by
  refine textual_next.discard.bind fun _ => (textual_expectPunct "(").bind fun _ => ?_
  refine textual_integerLiteral.bind fun _ => (textual_expectPunct ",").bind fun _ => ?_
  exact textual_integerLiteral.bind fun _ => (textual_expectPunct ")").bind fun _ => .pure _

theorem textual_defaultValue : Textual defaultValue := by
  refine (textual_atPunct "=").bind fun _ => .ite ?_ (.pure _)
  exact textual_next.discard.bind fun _ => textual_jsonValue.bind fun _ => .pure _

theorem textual_enumDefault : Textual enumDefault := by
  refine (textual_atPunct "=").bind fun _ => .ite ?_ (.pure _)
  refine textual_next.discard.bind fun _ => textual_simpleIdentifier.bind fun _ => ?_
  exact (textual_expectPunct ";").bind fun _ => .pure _

/-! ### Following a step -/

theorem Textual.moved {x : Parsing α} (hx : Textual x) {a : α} (h : Yields x c a c') :
    c.Moved c' := by
  have hs := hx.state c
  rwa [show outcome x c = _ from h] at hs

/-- What a textual step leaves: fewer tokens, and all else as it was. -/
theorem Textual.reads {x : Parsing α} (hx : Textual x) {a : α} (h : Yields x c a c') :
    ∃ ts, c' = { c with tokens := ts } ∧ Reads x c.tokens a ts :=
  ⟨c'.tokens, (hx.moved h).rest, hx.result c a c' h⟩

/-- The step only looks at what is ahead. -/
def Looks (x : Parsing α) : Prop :=
  Textual x ∧ ∀ c a c', Yields x c a c' → c' = c

theorem looks_peek : Looks peek :=
  ⟨textual_peek, fun _ _ _ h => (yields_peek.mp h).2⟩

theorem Looks.return {x : Parsing α} (hx : Looks x) (f : α → β) : Looks (do return f (← x)) := by
  refine ⟨hx.1.bind fun _ => .pure _, fun c b c' h => ?_⟩
  obtain ⟨a, c₁, ha, h⟩ := yields_bind.mp h
  obtain ⟨-, rfl⟩ := yields_pure.mp h
  exact hx.2 c a _ ha

theorem looks_atPunct (mark : String) : Looks (atPunct mark) :=
  looks_peek.return _

theorem looks_atKeyword (word : String) : Looks (atKeyword word) :=
  looks_peek.return _

theorem Looks.reads {x : Parsing α} (hx : Looks x) {a : α} (h : Yields x c a c') :
    c' = c ∧ Reads x c.tokens a c.tokens := by
  obtain rfl := hx.2 c a c' h
  exact ⟨rfl, hx.1.result _ a _ h⟩

/-- Wherever the step `x` succeeds, the textual step `y` reads the same tokens; `post` relates the
cursors and the results of both. -/
def Follows (y : Parsing β) (x : Parsing α) (post : Cursor → α → Cursor → β → Prop) : Prop :=
  ∀ c a c', Yields x c a c' → ∃ b, Reads y c.tokens b c'.tokens ∧ post c a c' b

/-- Results that came about one after the other. -/
inductive Chain (post : Cursor → α → Cursor → β → Prop) :
    Cursor → List α → Cursor → List β → Prop
  | nil (c : Cursor) : Chain post c [] c []
  | cons {c c₁ c' : Cursor} {a : α} {as : List α} {b : β} {bs : List β} :
      post c a c₁ b → Chain post c₁ as c' bs → Chain post c (a :: as) c' (b :: bs)

section
variable {x : Parsing α} {y : Parsing β} {post : Cursor → α → Cursor → β → Prop}

theorem Follows.manyWithin (hend : Looks atEnd) (h : Follows y x post) (bound : Nat) :
    Follows (Idl.manyWithin atEnd y bound) (Idl.manyWithin atEnd x bound) (Chain post) := by
  induction bound with
  | zero =>
    intro c as c' hy
    obtain ⟨rfl, rfl⟩ := yields_pure.mp hy
    exact ⟨[], Reads.pure _ _, .nil _⟩
  | succ bound ih =>
    intro c as c' hy
    obtain ⟨stop, c₁, hstop, hy⟩ := yields_bind.mp hy
    obtain ⟨rfl, hrstop⟩ := hend.reads hstop
    cases stop with
    | true =>
      obtain ⟨rfl, rfl⟩ := yields_pure.mp hy
      exact ⟨[], hrstop.bind (Reads.pure _ _), .nil _⟩
    | false =>
      simp only [Bool.false_eq_true, if_false, yields_bind, yields_pure] at hy
      obtain ⟨a, c₁, ha, as, _, has, rfl, rfl⟩ := hy
      obtain ⟨b, hrb, hpost⟩ := h _ _ _ ha
      obtain ⟨bs, hrbs, hchain⟩ := ih _ _ _ has
      refine ⟨b :: bs, hrstop.bind ?_, .cons hpost hchain⟩
      exact hrb.bind (hrbs.bind (Reads.pure _ _))

/-- A step that starts from the tokens ahead reads what the step for these tokens reads. -/
theorem Reads.fromTokens {f : List Token → Parsing β} {b : β} (h : Reads (f ts) ts b ts') :
    Reads (do f (← get).tokens) ts b ts' := by
  refine ⟨h.1, fun c hc => ?_⟩
  rw [yields_get_bind, hc]
  exact h.2 c hc

theorem Follows.many (hend : Looks atEnd) (h : Follows y x post) :
    Follows (Idl.many atEnd y) (Idl.many atEnd x) (Chain post) := by
  intro c as c' hy
  unfold Idl.many at hy
  rw [yields_get_bind] at hy
  obtain ⟨bs, hr, hchain⟩ := h.manyWithin hend _ _ _ _ hy
  exact ⟨bs, Reads.fromTokens (f := fun ts => Idl.manyWithin atEnd y ts.length) hr, hchain⟩

/-- The relation holds but for tokens that were passed over before and after. -/
def Loosely (post : Cursor → α → Cursor → β → Prop) (c : Cursor) (a : α) (c' : Cursor) (b : β) :
    Prop :=
  ∃ ts ts', post { c with tokens := ts } a { c' with tokens := ts' } b

theorem Loosely.of (c : Cursor) (a : α) (c' : Cursor) (b : β) (h : post c a c' b) :
    Loosely post c a c' b :=
  ⟨c.tokens, c'.tokens, h⟩

/-- Nothing but the tokens has changed, and the results are related in view of the scope. -/
def Quiet (Q : Scope → α → β → Prop) (c : Cursor) (a : α) (c' : Cursor) (b : β) : Prop :=
  c' = { c with tokens := c'.tokens } ∧ Q c.session.scope a b

/-- A chain of quiet steps is quiet, and the results are related one by one. -/
theorem Chain.quiet {Q : Scope → α → β → Prop} {as : List α} {bs : List β}
    (h : Chain (Loosely (Quiet Q)) c as c' bs) :
    Quiet (fun s => List.Forall₂ (Q s)) c as c' bs := by
  induction h with
  | nil => exact ⟨rfl, .nil⟩
  | @cons c c₁ c' a as b bs ha _ ih =>
    obtain ⟨ts, ts', hc₁, ha⟩ := ha
    obtain ⟨hc', has⟩ := ih
    have hc₁ : c₁ = { c with tokens := c₁.tokens } := by
      cases c₁
      simpa using hc₁
    rw [hc₁] at hc' has
    exact ⟨hc', .cons ha has⟩

theorem Follows.commaList (h : Follows y x post) :
    Follows (Idl.commaList y) (Idl.commaList x) (Chain (Loosely post)) := by
  intro c as c' hy
  simp only [Idl.commaList, yields_bind, yields_pure] at hy
  obtain ⟨a, c₁, ha, as, _, has, rfl, rfl⟩ := hy
  obtain ⟨b, hrb, hpost⟩ := h _ _ _ ha
  have hpart : Follows (do discard next; y) (do discard next; x) (Loosely post) := by
    intro c a c' hy
    obtain ⟨_, c₁, hnext, hy⟩ := yields_bind.mp hy
    obtain ⟨ts, rfl, hrnext⟩ := textual_next.discard.reads hnext
    obtain ⟨b, hrb, hpost⟩ := h _ _ _ hy
    exact ⟨b, hrnext.bind hrb, ts, c'.tokens, hpost⟩
  obtain ⟨bs, hrbs, hchain⟩ := hpart.many ((looks_atPunct ",").return _) _ _ _ has
  exact ⟨b :: bs, hrb.bind (hrbs.bind (Reads.pure _ _)), .cons (.of _ _ _ _ hpost) hchain⟩

theorem Follows.listUntil (closing : String) (h : Follows y x post) :
    Follows (Idl.listUntil closing y) (Idl.listUntil closing x) (Chain (Loosely post)) := by
  refine Follows.many (looks_atPunct closing) ?_
  intro c a c' hy
  obtain ⟨a', c₁, ha, hy⟩ := yields_bind.mp hy
  obtain ⟨b, hrb, hpost⟩ := h _ _ _ ha
  obtain ⟨stop, c₂, hstop, hy⟩ := yields_bind.mp hy
  obtain ⟨rfl, hrstop⟩ := (looks_atPunct closing).reads hstop
  cases stop with
  | true =>
    obtain ⟨rfl, rfl⟩ := yields_pure.mp hy
    exact ⟨b, hrb.bind (hrstop.bind (Reads.pure _ _)), .of _ _ _ _ hpost⟩
  | false =>
    simp only [Bool.false_eq_true, if_false, yields_bind, yields_pure] at hy
    obtain ⟨_, c₃, hcomma, rfl, rfl⟩ := hy
    obtain ⟨ts, rfl, hrcomma⟩ := (textual_expectPunct ",").reads hcomma
    exact ⟨b, hrb.bind (hrstop.bind (hrcomma.bind (Reads.pure _ _))), c.tokens, c₂.tokens, hpost⟩

end

/-! ### Steps on the scope -/

/-- The cursor with another scope. -/
def Cursor.withScope (c : Cursor) (s : Scope) : Cursor :=
  { c with session := { c.session with scope := s } }

theorem yields_reading {step : Reading α} {a : α} :
    Yields (reading step) c a c' ↔
      ∃ s, Yields step c.session.scope a s ∧ c' = c.withScope s := by
  have h : outcome (reading step) c =
      ((outcome step c.session.scope).1, c.withScope (outcome step c.session.scope).2) := rfl
  unfold Yields
  rw [h]
  rcases outcome step c.session.scope with ⟨r, s⟩
  simp only [Prod.mk.injEq]
  constructor
  · rintro ⟨rfl, rfl⟩
    exact ⟨s, ⟨rfl, rfl⟩, rfl⟩
  · rintro ⟨_, ⟨rfl, rfl⟩, rfl⟩
    exact ⟨rfl, rfl⟩

/-- Where a refusal is placed does not matter to a step that succeeds. -/
theorem yields_locating {step : Reading α} {a : α} :
    Yields (locating token step) c a c' ↔
      ∃ s, Yields step c.session.scope a s ∧ c' = c.withScope s := by
  rw [← yields_reading]
  refine yields_tryCatch fun e c a c' => ?_
  split
  · exact not_yields_failAt
  · exact not_yields_throw

end

end Avroc.Idl
