import Avroc.Proofs.File.Names
import Avroc.Proofs.File.Writing
import Avroc.Proofs.Idl.Agreement
import Avroc.Proofs.Idl.Building
import Avroc.Proofs.Idl.Words
import Mathlib.Data.List.Nodup

/-!
# Recursions that end

The parser repeats parts, reads values and types inside each other, and reads the files that a file
imports.  Each of these recursions has a bound, which it never reaches: what is left to read becomes
less with every nested step.

* `load_ends` : **every recursion of reading a file ends, the end of each text is never passed, and
  no file is read twice.**
-/

namespace Avroc

open List

variable {node : Node} {place : List String} {ts : List Token} {t : Token} {d : Disk}
  {target : Path} {text : String} {α β : Type} {n : Nat}

/-! ### Recursion on less -/

section
variable {σ ι : Type} {size : σ → Nat} {I : ι → σ → Prop}
  {body : (ι → ExceptT Error (StateM σ) α) → ι → ExceptT Error (StateM σ) α}
  {x : ι → ExceptT Error (StateM σ) α}

/-- The steps `x` are what `body` makes of themselves, and `body` takes them only where less is
left: other steps that agree with them there can stand in their place. -/
def Descends (size : σ → Nat) (I : ι → σ → Prop)
    (body : (ι → ExceptT Error (StateM σ) α) → ι → ExceptT Error (StateM σ) α)
    (x : ι → ExceptT Error (StateM σ) α) : Prop :=
  ∀ i s, I i s → ∀ y, (∀ j s', I j s' → size s' < size s → outcome (y j) s' = outcome (x j) s') →
    outcome (body y i) s = outcome (x i) s

/-- Steps with a bound on how deep they nest descend, if the bound is as large as what is left. -/
theorem descends_of_bounded {w : Nat → ι → ExceptT Error (StateM σ) α}
    (hsucc : ∀ n, w (n + 1) = body (w n)) (hpos : ∀ i s, I i s → 0 < size s)
    (hx : ∀ i s, I i s → ∃ n, size s ≤ n ∧ outcome (x i) s = outcome (w n i) s)
    (hbody : ∀ i s, I i s → ∀ y, (∀ j s', I j s' → size s' < size s →
      outcome (y j) s' = outcome (x j) s') → outcome (body y i) s = outcome (body x i) s) :
    Descends size I body x := by
  have hbound : ∀ k i s, I i s → size s = k → ∀ n, k ≤ n →
      outcome (w n i) s = outcome (body x i) s := by
    intro k
    induction k using Nat.strong_induction_on with
    | _ k ih =>
      intro i s hi hk n hn
      obtain ⟨n, rfl⟩ : ∃ m, n = m + 1 := ⟨n - 1, by have := hpos i s hi; omega⟩
      rw [hsucc]
      refine hbody i s hi _ fun j s' hj hlt => ?_
      obtain ⟨m, hm, hxm⟩ := hx j s' hj
      rw [hxm, ih _ (hk ▸ hlt) j s' hj rfl n (by omega), ih _ (hk ▸ hlt) j s' hj rfl m hm]
  intro i s hi y hy
  obtain ⟨n, hn, hxn⟩ := hx i s hi
  rw [hbody i s hi y hy, hxn, hbound _ i s hi rfl n hn]

variable {P : σ → Prop} {y z : ExceptT Error (StateM σ) α}
  {f g : α → ExceptT Error (StateM σ) β}

theorem outcome_bind_congr {s : σ} (h : outcome y s = outcome z s)
    (hf : ∀ a s', Yields z s a s' → outcome (f a) s' = outcome (g a) s') :
    outcome (y >>= f) s = outcome (z >>= g) s := by
  rw [outcome_bind, outcome_bind, h]
  rcases hr : outcome z s with ⟨e | a, s₁⟩
  · rfl
  · exact hf a s₁ hr

/-- Wherever `P` holds the two steps have the same outcome, and `P` holds after a success. -/
def Coincide (P : σ → Prop) (y z : ExceptT Error (StateM σ) α) : Prop :=
  ∀ s, P s → outcome y s = outcome z s ∧ ∀ a s', Yields z s a s' → P s'

theorem Coincide.of_eq (hz : Coincide P z z) (h : ∀ s, P s → outcome y s = outcome z s) :
    Coincide P y z :=
  fun s hs => ⟨h s hs, (hz s hs).2⟩

theorem Coincide.pure (a : α) : Coincide P (pure a : ExceptT Error (StateM σ) α) (pure a) :=
  fun _ hs => ⟨rfl, fun _ _ h => (yields_pure.mp h).2 ▸ hs⟩

theorem Coincide.bind (h : Coincide P y z) (hf : ∀ a, Coincide P (f a) (g a)) :
    Coincide P (y >>= f) (z >>= g) := by
  refine fun s hs => ⟨outcome_bind_congr (h s hs).1 fun a s₁ ha => ?_, fun b s' hb => ?_⟩
  · exact (hf a s₁ ((h s hs).2 a s₁ ha)).1
  · obtain ⟨a, s₁, ha, hb⟩ := yields_bind.mp hb
    exact (hf a s₁ ((h s hs).2 a s₁ ha)).2 b s' hb

theorem Coincide.discard (h : Coincide P y z) :
    Coincide P (Functor.discard y) (Functor.discard z) := by
  show Coincide P ((fun _ => PUnit.unit) <$> y) ((fun _ => PUnit.unit) <$> z)
  rw [map_eq_pure_bind, map_eq_pure_bind]
  exact h.bind fun _ => .pure _

theorem coincide_get_bind {f g : σ → ExceptT Error (StateM σ) β}
    (h : ∀ s, Coincide P (f s) (g s)) : Coincide P (get >>= f) (get >>= g) :=
  fun s hs => ⟨(h s s hs).1, fun b s' hb => (h s s hs).2 b s' (yields_get_bind.mp hb)⟩

end

/-! ### Places of files -/

theorem Node.mem_entryPlaces {name : String} {entries : List (String × Node)}
    (h : (name, node) ∈ entries) (hplace : place ∈ node.filePlaces) :
    name :: place ∈ Node.entryPlaces entries := by
  induction entries with
  | nil => cases h
  | cons entry entries ih =>
    obtain ⟨k, n⟩ := entry
    rw [Node.entryPlaces, mem_append]
    rcases mem_cons.mp h with he | h
    · cases he
      exact .inl (mem_map_of_mem hplace)
    · exact .inr (ih h)

theorem Node.mem_filePlaces {content : Content} {time : Int}
    (h : node.kind? place = some (.file content time)) : place ∈ node.filePlaces := by
  induction place generalizing node with
  | nil =>
    cases node with
    | file => exact mem_singleton_self _
    | directory => cases h
  | cons name place ih =>
    rw [Node.kind?_cons, Option.bind_eq_some_iff] at h
    obtain ⟨child, hchild, h⟩ := h
    cases node with
    | file => cases hchild
    | directory entries time => exact Node.mem_entryPlaces (Node.mem_of_lookup hchild) (ih h)

namespace Idl

section
variable {c c₁ c' : Cursor} {atEnd : Parsing Bool} {x y : Parsing α} {f : α → Parsing β}

/-! ### Tokens left -/

/-- The end of the text is ahead. -/
def Cursor.Ended (c : Cursor) : Prop :=
  ∃ t ∈ c.tokens, t.kind = .eof

/-- The cursor `c'` is further on than `c`. -/
def Cursor.Precedes (c c' : Cursor) : Prop :=
  Moves c.tokens c'.tokens ∧ c'.tokens.length < c.tokens.length

theorem Moves.length_le {ts' : List Token} (h : Moves ts ts') : ts'.length ≤ ts.length :=
  h.suffix.length_le

theorem Moves.ended (h : Moves c.tokens c'.tokens) (hc : c.Ended) : c'.Ended := by
  obtain ⟨passed, he, hpassed⟩ := h
  obtain ⟨t, ht, hk⟩ := hc
  rcases mem_append.mp (he ▸ ht) with ht | ht
  · exact absurd hk (hpassed t ht)
  · exact ⟨t, ht, hk⟩

theorem Cursor.Precedes.moves (h : c.Precedes c₁) (h' : Moves c₁.tokens c'.tokens) :
    c.Precedes c' :=
  ⟨h.1.trans h', h'.length_le.trans_lt h.2⟩

/-- A success of the step never goes back. -/
def Advances (x : Parsing α) : Prop :=
  ∀ c a c', Yields x c a c' → Moves c.tokens c'.tokens

/-- A success of the step takes a token or more. -/
def Takes (x : Parsing α) : Prop :=
  ∀ c a c', Yields x c a c' → c.Precedes c'

theorem Textual.advances (hx : Textual x) : Advances x :=
  fun c a c' h => (hx.result c a c' h).1

theorem Follows.advances {y : Parsing β} {post : Cursor → α → Cursor → β → Prop}
    (h : Follows y x post) : Advances x := by
  intro c a c' hx
  obtain ⟨b, hr, -⟩ := h c a c' hx
  exact hr.1

theorem Advances.bind (hx : Advances x) (hf : ∀ a, Advances (f a)) : Advances (x >>= f) := by
  intro c b c' h
  obtain ⟨a, c₁, ha, hb⟩ := yields_bind.mp h
  exact (hx c a c₁ ha).trans (hf a c₁ b c' hb)

theorem Takes.bind (hx : Takes x) (hf : ∀ a, Advances (f a)) : Takes (x >>= f) := by
  intro c b c' h
  obtain ⟨a, c₁, ha, hb⟩ := yields_bind.mp h
  exact (hx c a c₁ ha).moves (hf a c₁ b c' hb)

theorem Advances.takes_bind (hx : Advances x) (hf : ∀ a, Takes (f a)) : Takes (x >>= f) := by
  intro c b c' h
  obtain ⟨a, c₁, ha, hb⟩ := yields_bind.mp h
  have hmoves := hx c a c₁ ha
  obtain ⟨hnext, hlt⟩ := hf a c₁ b c' hb
  exact ⟨hmoves.trans hnext, hlt.trans_le hmoves.length_le⟩

theorem Takes.advances (hx : Takes x) : Advances x :=
  fun c a c' h => (hx c a c' h).1

theorem Follows.takes {y : Parsing β} {post : Cursor → α → Cursor → β → Prop}
    (h : Follows y x post) (hy : Takes y) : Takes x := by
  intro c a c' hx
  obtain ⟨b, hr, -⟩ := h c a c' hx
  have hprecedes := hy c b _ (hr.2 c rfl)
  exact hprecedes

theorem advances_locating (token : Token) (step : Reading α) : Advances (locating token step) := by
  intro c a c' h
  obtain ⟨s, -, rfl⟩ := yields_locating.mp h
  exact .refl _

theorem Advances.discard (hx : Advances x) : Advances (Functor.discard x) := by
  intro c u c' h
  obtain ⟨a, ha⟩ := yields_discard.mp h
  exact hx c a c' ha

theorem advances_get : Advances get :=
  fun _ _ _ h => (yields_get.mp h).2 ▸ .refl _

theorem advances_many (hend : Advances atEnd) (hx : Advances x) : Advances (many atEnd x) := by
  refine advances_get.bind fun cursor => ?_
  induction cursor.tokens.length with
  | zero => exact (Textual.pure _).advances
  | succ bound ih =>
    refine hend.bind fun _ => ?_
    split
    · exact (Textual.pure _).advances
    · exact hx.bind fun _ => ih.bind fun _ => (Textual.pure _).advances

/-! ### Steps that take a token -/

/-- The token ahead is taken, unless it is the end of the text. -/
theorem precedes_next {u : Unit} (hk : (c.tokens.headD (.eof 1)).kind ≠ .eof)
    (h : Yields (discard next) c u c') : c.Precedes c' := by
  obtain ⟨t, h⟩ := yields_discard.mp h
  obtain ⟨-, rfl⟩ := yields_next.mp h
  refine ⟨moves_advance _, ?_⟩
  show (advance c.tokens).length < c.tokens.length
  cases hts : c.tokens with
  | nil =>
    rw [hts] at hk
    exact absurd rfl hk
  | cons t ts =>
    rw [hts] at hk
    rw [advance, if_neg (show t.kind ≠ .eof from hk)]
    exact Nat.lt_succ_self _

theorem precedes_next_bind {f : Unit → Parsing α} {a : α}
    (hk : (c.tokens.headD (.eof 1)).kind ≠ .eof) (hf : ∀ u, Textual (f u))
    (h : Yields (discard next >>= f) c a c') : c.Precedes c' := by
  obtain ⟨u, c₁, hu, h⟩ := yields_bind.mp h
  exact (precedes_next hk hu).moves ((hf u).advances _ _ _ h)

/-- A step that looks at the token ahead first. -/
theorem takes_peek {f : Token → Parsing α}
    (hf : ∀ c a c', Yields (f (c.tokens.headD (.eof 1))) c a c' → c.Precedes c') :
    Takes (peek >>= f) := by
  intro c a c' h
  obtain ⟨t, c₁, ht, h⟩ := yields_bind.mp h
  obtain ⟨rfl, rfl⟩ := yields_peek.mp ht
  exact hf _ a c' h

theorem Token.kind_of_isPunct {mark : String} (h : t.isPunct mark = true) :
    t.kind ≠ .eof := by
  intro he
  simp [Token.isPunct, he] at h

theorem Token.kind_of_isKeyword {word : String} (h : t.isKeyword word = true) :
    t.kind ≠ .eof := by
  intro he
  simp [Token.isKeyword, he] at h

theorem takes_expectPunct (mark : String) : Takes (expectPunct mark) := by
  refine takes_peek fun c a c' h => ?_
  split at h
  · exact precedes_next (Token.kind_of_isPunct ‹_›) h
  · exact absurd h not_yields_failHere

theorem takes_expectKeyword (word : String) : Takes (expectKeyword word) := by
  refine takes_peek fun c a c' h => ?_
  split at h
  · exact precedes_next (Token.kind_of_isKeyword ‹_›) h
  · exact absurd h not_yields_failHere

theorem takes_simpleIdentifier : Takes simpleIdentifier := by
  refine takes_peek fun c a c' h => ?_
  split at h
  · exact absurd h not_yields_failHere
  split at h
  · exact absurd h not_yields_failHere
  · exact precedes_next_bind (by simp_all) (fun _ => .pure _) h

theorem takes_stringLiteral : Takes stringLiteral := by
  intro c a c' h
  obtain ⟨t, c₁, ht, h⟩ := yields_bind.mp h
  split at h
  · exact absurd h not_yields_failAt
  · rename_i hk
    have hnext : c.Precedes c₁ := by
      refine precedes_next (u := ⟨⟩) ?_ (yields_discard.mpr ⟨t, ht⟩)
      rw [← (yields_next.mp ht).1, not_not.mp hk]
      decide
    split at h
    · exact hnext.moves ((yields_pure.mp h).2 ▸ .refl _)
    · exact absurd h not_yields_failAt

theorem takes_listItem (closing : String) (hx : Takes x) : Takes (listItem closing x) := by
  refine hx.bind fun _ => (textual_atPunct closing).advances.bind fun _ => ?_
  split
  · exact (Textual.pure _).advances
  · exact ((textual_expectPunct ",").bind fun _ => .pure _).advances

theorem takes_jsonMember {part : Parsing Json} (h : Textual part) : Takes (jsonMember part) := by
  refine textual_stringLiteral.advances.takes_bind fun _ => (takes_expectPunct ":").bind fun _ => ?_
  exact (h.bind fun _ => .pure _).advances

theorem takes_jsonValueWithin (depth : Nat) : Takes (jsonValueWithin depth) := by
  cases depth with
  | zero => exact takes_peek fun _ _ _ h => absurd h not_yields_failHere
  | succ depth =>
    have hpart := textual_jsonValueWithin depth
    refine takes_peek fun c a c' h => ?_
    split at h
    · exact takes_stringLiteral.bind (fun _ => (Textual.pure _).advances) c a c' h
    · rename_i hk
      exact precedes_next_bind (by rw [hk]; decide) (fun _ => textual_numberValue _) h
    · rename_i hk _
      exact precedes_next_bind (by rw [hk]; decide) (fun _ => .pure _) h
    split at h
    · refine precedes_next_bind (Token.kind_of_isPunct ‹_›) (fun _ => ?_) h
      exact (textual_listUntil "]" hpart).bind fun _ => textual_next.discard.bind fun _ => .pure _
    split at h
    · refine precedes_next_bind (Token.kind_of_isPunct ‹_›) (fun _ => ?_) h
      refine (textual_listUntil "\x7d" (textual_jsonMember hpart)).bind fun _ => ?_
      exact textual_next.discard.bind fun _ => .pure _
    · exact absurd h not_yields_failHere

theorem takes_property : Takes property := by
  refine textual_next.advances.takes_bind fun _ => (takes_expectPunct "(").bind fun _ => ?_
  exact (textual_jsonValue.bind fun _ => (textual_expectPunct ")").bind fun _ => .pure _).advances

theorem takes_declarator (e : TypeExpr) (doc : Option String) (extra : Members) :
    Takes (declarator e doc extra) := by
  refine textual_properties.advances.takes_bind fun _ => ?_
  refine textual_peek.advances.takes_bind fun _ => ?_
  refine takes_simpleIdentifier.bind fun _ => (advances_locating _ _).bind fun _ => ?_
  exact textual_defaultValue.advances.bind fun _ => advances_locating _ _

theorem takes_parameter (outer : Option String) : Takes (parameter outer) := by
  refine textual_properties.advances.takes_bind fun _ => ?_
  exact (follows_typeExpr outer outer).advances.takes_bind fun _ => takes_declarator _ _ _

theorem takes_recordField (outer : Option String) (h : Header) (id : TypeId) :
    Takes (recordField outer h id) := by
  refine textual_peek.advances.takes_bind fun _ => ?_
  split
  · exact fun _ _ _ h => absurd h not_yields_failHere
  have hfields : Takes (fieldDeclaration outer h.space) := by
    refine textual_peek.advances.takes_bind fun _ => ?_
    refine textual_properties.advances.takes_bind fun _ => ?_
    refine (follows_typeExpr outer h.space).advances.takes_bind fun _ => ?_
    refine (follows_declarator outer h.space default _ _ _).commaList.advances.takes_bind
      fun _ => ?_
    exact (takes_expectPunct ";").bind fun _ => (Textual.pure _).advances
  exact hfields.bind fun _ => textual_peek.advances.bind fun _ => advances_locating _ _

theorem takes_importOutline : Takes importOutline := by
  refine (takes_expectKeyword "import").bind fun _ => Textual.advances ?_
  refine textual_next.discard.bind fun _ => textual_stringLiteral.discard.bind fun _ => ?_
  exact (textual_expectPunct ";").bind fun _ => .pure _

/-- The declarations of named types and messages, after the properties. -/
theorem takes_declaration (outer : Option String) (props : Members) (doc : Option String) :
    Takes (recordDeclaration outer props doc) ∧ Takes (enumDeclaration outer props doc) ∧
      Takes (fixedDeclaration outer props doc) ∧ Takes (messageDeclaration outer props doc) := by
  have hheader := (follows_header outer props).advances
  refine ⟨?_, ?_, ?_, ?_⟩
  · refine textual_next.advances.takes_bind fun _ => textual_peek.advances.takes_bind fun _ => ?_
    refine hheader.takes_bind fun h => (advances_locating _ _).takes_bind fun id => ?_
    refine (takes_expectPunct "\x7b").bind fun _ => ?_
    refine Advances.bind ?_ fun _ => (textual_expectPunct "\x7d").advances
    exact (advances_many (textual_atPunct "\x7d").advances
      (takes_recordField outer h id).advances).discard
  · refine (takes_expectKeyword "enum").bind fun _ => textual_peek.advances.bind fun _ => ?_
    refine hheader.bind fun _ => (textual_expectPunct "\x7b").advances.bind fun _ => ?_
    refine (textual_listUntil "\x7d" textual_simpleIdentifier).advances.bind fun _ => ?_
    refine (textual_expectPunct "\x7d").advances.bind fun _ => ?_
    refine textual_enumDefault.advances.bind fun _ => (advances_locating _ _).bind fun _ => ?_
    exact (advances_locating _ _).bind fun _ => (advances_locating _ _).discard
  · refine (takes_expectKeyword "fixed").bind fun _ => textual_peek.advances.bind fun _ => ?_
    refine hheader.bind fun _ => (textual_expectPunct "(").advances.bind fun _ => ?_
    refine textual_integerLiteral.advances.bind fun _ => ?_
    refine (textual_expectPunct ")").advances.bind fun _ => ?_
    exact (textual_expectPunct ";").advances.bind fun _ => (advances_locating _ _).discard
  · refine textual_peek.advances.takes_bind fun _ => ?_
    refine (follows_responseType outer).advances.takes_bind fun _ => ?_
    refine takes_simpleIdentifier.bind fun _ => (textual_expectPunct "(").advances.bind fun _ => ?_
    refine ((follows_parameter outer).listUntil ")").advances.bind fun _ => ?_
    refine (textual_expectPunct ")").advances.bind fun _ => ?_
    refine (follows_messageEnd outer).advances.bind fun _ => ?_
    refine (textual_expectPunct ";").advances.bind fun _ => advances_get.bind fun _ => ?_
    split
    · exact (textual_failAt _ _).advances
    · exact (advances_locating _ _).bind fun _ _ _ _ h => yields_modify.mp h ▸ .refl _

theorem takes_protocolMember (d : Disk) (importer : Importer) (outer : Option String) :
    Takes (protocolMember d importer outer) := by
  refine textual_peek.advances.takes_bind fun first => ?_
  split
  · exact fun _ _ _ h => absurd h not_yields_failHere
  split
  · exact (follows_importDeclaration d importer).takes takes_importOutline
  refine textual_properties.advances.takes_bind fun props => ?_
  obtain ⟨hrecord, henum, hfixed, hmessage⟩ := takes_declaration outer props first.doc
  refine textual_peek.advances.takes_bind fun token => ?_
  split
  · exact hrecord
  split
  · exact henum
  split
  · exact hfixed
  · exact hmessage

/-! ### Loops -/

theorem Cursor.Ended.length_pos (h : c.Ended) : 0 < c.tokens.length :=
  length_pos_of_mem h.choose_spec.1

/-- The step is one on fewer and fewer tokens, with the end of the text ahead. -/
def Shrinks (body : Parsing α → Parsing α) (x : Parsing α) : Prop :=
  Descends (·.tokens.length) (fun _ => Cursor.Ended) (fun y _ => body (y ())) fun _ : Unit => x

theorem shrinks_of_bounded {body : Parsing α → Parsing α} {w : Nat → Parsing α}
    (hsucc : ∀ n, w (n + 1) = body (w n)) (hbody : ∀ c, c.Ended → ∀ y,
      (∀ c', c'.Ended → c'.tokens.length < c.tokens.length →
        outcome y c' = outcome (do w (← get).tokens.length) c') →
      outcome (body y) c = outcome (body (do w (← get).tokens.length)) c) :
    Shrinks body (do w (← get).tokens.length) :=
  descends_of_bounded (w := fun n _ => w n) (fun n => funext fun _ => hsucc n)
    (fun _ _ hc => hc.length_pos) (fun _ _ _ => ⟨_, le_rfl, rfl⟩)
    fun _ c hc y hy => hbody c hc (y ()) (hy ())

/-- A part and the parts after it, which are read by `rest`. -/
def manyOf (atEnd : Parsing Bool) (part : Parsing α) (rest : Parsing (List α)) :
    Parsing (List α) := do
  if ← atEnd then return []
  else
    let first ← part
    let others ← rest
    return first :: others

/-- A loop ends, if its part takes a token wherever the loop goes on. -/
theorem shrinks_many (hend : Looks atEnd)
    (hx : ∀ c a c', Yields atEnd c false c → Yields x c a c' → c.Precedes c') :
    Shrinks (manyOf atEnd x) (many atEnd x) := by
  refine shrinks_of_bounded (w := manyWithin atEnd x) (fun _ => rfl) fun c hc y hy => ?_
  refine outcome_bind_congr rfl fun stop c₁ hstop => ?_
  obtain rfl := hend.2 _ _ _ hstop
  cases stop with
  | true => rfl
  | false =>
    refine outcome_bind_congr rfl fun a c' ha => ?_
    obtain ⟨hmoves, hlt⟩ := hx _ a c' hstop ha
    exact outcome_bind_congr (hy c' (hmoves.ended hc) hlt) fun _ _ _ => rfl

/-- A loop over what stands after commas. -/
theorem shrinks_commas (hx : Advances x) :
    Shrinks (manyOf (return !(← atPunct ",")) (do discard next; x))
      (many (return !(← atPunct ",")) (do discard next; x)) := by
  refine shrinks_many ((looks_atPunct ",").return _) fun c a c' hcomma h => ?_
  obtain ⟨u, c₁, hnext, h⟩ := yields_bind.mp h
  have hat : (c.tokens.headD (.eof 1)).isPunct "," = true := by simpa [atPunct] using hcomma
  exact (precedes_next (Token.kind_of_isPunct hat) hnext).moves (hx _ _ _ h)

/-- The loops of the parser: where each ends, and what it repeats. -/
inductive Loop (d : Disk) : {α : Type} → Parsing Bool → Parsing α → Prop
  | properties : Loop d (return (← peek).kind ≠ .prop) property
  | items (depth : Nat) : Loop d (atPunct "]") (listItem "]" (jsonValueWithin depth))
  | members (depth : Nat) :
      Loop d (atPunct "\x7d") (listItem "\x7d" (jsonMember (jsonValueWithin depth)))
  | branches (outer space : Option String) (depth : Nat) :
      Loop d (return !(← atPunct ",")) (do discard next; typeWithin outer space depth)
  | declarators (e : TypeExpr) (doc : Option String) (extra : Members) :
      Loop d (return !(← atPunct ",")) (do discard next; declarator e doc extra)
  | fields (outer : Option String) (h : Header) (id : TypeId) :
      Loop d (atPunct "\x7d") (recordField outer h id)
  | symbols : Loop d (atPunct "\x7d") (listItem "\x7d" simpleIdentifier)
  | parameters (outer : Option String) : Loop d (atPunct ")") (listItem ")" (parameter outer))
  | errors (outer : Option String) :
      Loop d (return !(← atPunct ",")) (do discard next; errorType outer)
  | declarations (importer : Importer) (outer : Option String) :
      Loop d (atPunct "\x7d") (protocolMember d importer outer)

/-- **Every loop of the parser ends**: it stops, fails or takes a token in every round. -/
theorem Loop.shrinks (h : Loop d atEnd x) : Shrinks (manyOf atEnd x) (many atEnd x) := by
  have htakes : ∀ {α : Type} {atEnd : Parsing Bool} {x : Parsing α}, Looks atEnd → Takes x →
      Shrinks (manyOf atEnd x) (many atEnd x) :=
    fun hend hx => shrinks_many hend fun c a c' _ => hx c a c'
  cases h with
  | properties => exact htakes (looks_peek.return _) takes_property
  | items depth => exact htakes (looks_atPunct _) (takes_listItem _ (takes_jsonValueWithin depth))
  | members depth =>
    exact htakes (looks_atPunct _)
      (takes_listItem _ (takes_jsonMember (textual_jsonValueWithin depth)))
  | branches outer space depth =>
    exact shrinks_commas (follows_typeWithin outer space depth).advances
  | declarators e doc extra => exact shrinks_commas (takes_declarator e doc extra).advances
  | fields outer h id => exact htakes (looks_atPunct _) (takes_recordField outer h id)
  | symbols => exact htakes (looks_atPunct _) (takes_listItem _ takes_simpleIdentifier)
  | parameters outer => exact htakes (looks_atPunct _) (takes_listItem _ (takes_parameter outer))
  | errors outer => exact shrinks_commas (follows_errorType outer).advances
  | declarations importer outer =>
    exact htakes (looks_atPunct _) (takes_protocolMember d importer outer)

/-! ### Values and types inside each other -/

theorem coincide_many {P : Cursor → Prop} (hend : Coincide P atEnd atEnd) (h : Coincide P x y) :
    Coincide P (many atEnd x) (many atEnd y) := by
  refine coincide_get_bind fun cursor => ?_
  induction cursor.tokens.length with
  | zero => exact .pure _
  | succ bound ih =>
    refine hend.bind fun stop => ?_
    split
    · exact .pure _
    · exact h.bind fun _ => ih.bind fun _ => .pure _

/-- Fewer tokens than `n` are left, with the end of the text among them. -/
def Below (n : Nat) (c : Cursor) : Prop :=
  c.Ended ∧ c.tokens.length < n

theorem Advances.coincide (hx : Advances x) : Coincide (Below n) x x :=
  fun _ hc => ⟨rfl, fun a c' h =>
    ⟨(hx _ a c' h).ended hc.1, (hx _ a c' h).length_le.trans_lt hc.2⟩⟩

theorem coincide_listUntil (closing : String) (h : Coincide (Below n) x y) :
    Coincide (Below n) (listUntil closing x) (listUntil closing y) := by
  have hend := (textual_atPunct closing).advances.coincide (n := n)
  refine coincide_many hend (h.bind fun _ => hend.bind fun _ => Advances.coincide ?_)
  split
  · exact (Textual.pure _).advances
  · exact ((textual_expectPunct ",").bind fun _ => .pure _).advances

/-- Steps that agree on fewer tokens agree once the token ahead has been taken. -/
theorem outcome_next_bind {f g : Unit → Parsing α} (hc : c.Ended)
    (hk : (c.tokens.headD (.eof 1)).kind ≠ .eof) (hn : c.tokens.length ≤ n)
    (h : ∀ u, Coincide (Below n) (f u) (g u)) :
    outcome (discard next >>= f) c = outcome (discard next >>= g) c := by
  refine outcome_bind_congr rfl fun u c₁ hu => ?_
  obtain ⟨hmoves, hlt⟩ := precedes_next hk hu
  exact (h u c₁ ⟨hmoves.ended hc, hlt.trans_le hn⟩).1

/-- **Values nest on fewer tokens.** -/
theorem shrinks_jsonValue : Shrinks jsonValueOf jsonValue := by
  refine shrinks_of_bounded (w := jsonValueWithin) (fun _ => rfl) fun c hc y hy => ?_
  have hpart : Coincide (Below c.tokens.length) y jsonValue :=
    textual_jsonValue.advances.coincide.of_eq fun c' hc' => hy c' hc'.1 hc'.2
  have hclose : ∀ v : Json, Coincide (Below c.tokens.length) (do discard next; return v)
      (do discard next; return v) :=
    fun v => (textual_next.discard.bind fun _ => .pure _).advances.coincide
  refine outcome_bind_congr rfl fun token c₁ htoken => ?_
  obtain ⟨rfl, rfl⟩ := yields_peek.mp htoken
  split
  · rfl
  · rfl
  · rfl
  split
  · exact outcome_next_bind hc (Token.kind_of_isPunct ‹_›) le_rfl fun _ =>
      (coincide_listUntil "]" hpart).bind fun _ => hclose _
  split
  · refine outcome_next_bind hc (Token.kind_of_isPunct ‹_›) le_rfl fun _ =>
      (coincide_listUntil "\x7d" ?_).bind fun _ => hclose _
    refine textual_stringLiteral.advances.coincide.bind fun _ => ?_
    exact (textual_expectPunct ":").advances.coincide.bind fun _ => hpart.bind fun _ => .pure _
  · rfl

/-- **Types nest on fewer tokens.** -/
theorem shrinks_typeExpr (outer space : Option String) :
    Shrinks (typeOf outer space) (typeExpr outer space) := by
  refine shrinks_of_bounded (w := typeWithin outer space) (fun _ => rfl) fun c hc y hy => ?_
  have hpart : Coincide (Below c.tokens.length) y (typeExpr outer space) :=
    (follows_typeExpr outer space).advances.coincide.of_eq fun c' hc' => hy c' hc'.1 hc'.2
  have hpunct : ∀ mark, Coincide (Below c.tokens.length) (expectPunct mark) (expectPunct mark) :=
    fun mark => (textual_expectPunct mark).advances.coincide
  refine outcome_bind_congr rfl fun props c₁ hprops => ?_
  have hmoves := textual_properties.advances _ _ _ hprops
  refine outcome_bind_congr rfl fun token c₂ htoken => ?_
  obtain ⟨rfl, rfl⟩ := yields_peek.mp htoken
  split
  · rfl
  refine outcome_bind_congr ?_ fun _ _ _ => rfl
  have hnext := fun {f g : Unit → Parsing Schema} => outcome_next_bind (f := f) (g := g)
    (hmoves.ended hc) (by simp_all) hmoves.length_le
  unfold insideType
  split
  · exact hnext fun _ => (hpunct "<").bind fun _ => hpart.bind fun _ =>
      (hpunct ">").bind fun _ => .pure _
  split
  · exact hnext fun _ => (hpunct "<").bind fun _ => hpart.bind fun _ =>
      (hpunct ">").bind fun _ => .pure _
  split
  · refine hnext fun _ => (hpunct "\x7b").bind fun _ => Coincide.bind ?_ fun _ =>
      (hpunct "\x7d").bind fun _ => (advances_locating _ _).coincide
    refine hpart.bind fun _ => Coincide.bind ?_ fun _ => .pure _
    refine coincide_many ((looks_atPunct ",").return _).1.advances.coincide ?_
    exact textual_next.discard.advances.coincide.bind fun _ => hpart
  · rfl

end

/-! ### Imports inside each other -/

section
variable {base : Nat} {s s' : Session} {x : Parsing α} {Q : α → Scope → Prop} {y z : Importer}

theorem resolve_mem_filePlaces (h : d.readSource target = .ok text) :
    d.resolve target ∈ d.root.filePlaces.map (Path.mk "/") := by
  cases hcontent : d.readContent target with
  | error fault =>
    rw [Disk.readSource, Disk.readText, Disk.readExact, hcontent] at h
    cases h
  | ok content =>
    obtain ⟨place, time, hplace, hkind⟩ := Disk.readContent_eq_ok.mp hcontent
    obtain rfl := Disk.eq_resolve_of_locate hplace
    exact mem_map_of_mem (Node.mem_filePlaces hkind)

/-- The number of files that have not been read. -/
def unread (d : Disk) (s : Session) : Nat :=
  ((d.root.filePlaces.map (Path.mk "/")).filter (· ∉ s.imported)).length

theorem unread_le_fileCount (d : Disk) (s : Session) : unread d s ≤ d.fileCount :=
  (length_filter_le _ _).trans_eq (length_map _)

theorem filter_unread_sublist {t : Session} (h : s.imported ⊆ t.imported) (places : List Path) :
    places.filter (· ∉ t.imported) <+ places.filter (· ∉ s.imported) := by
  refine monotone_filter_right places fun p hp => ?_
  exact decide_eq_true fun hold => of_decide_eq_true hp (h hold)

theorem unread_le_of_imported (h : s.imported <+: s'.imported) : unread d s' ≤ unread d s :=
  (filter_unread_sublist h.subset _).length_le

/-- A file that is read now leaves fewer files unread. -/
theorem unread_lt_of_read (hread : d.readSource target = .ok text)
    (hnew : d.resolve target ∉ s.imported) :
    unread d { s with imported := s.imported ++ [d.resolve target] } < unread d s := by
  have hsub := filter_unread_sublist
    (t := { s with imported := s.imported ++ [d.resolve target] })
    (subset_append_left s.imported _) (d.root.filePlaces.map (Path.mk "/"))
  refine lt_of_le_of_ne hsub.length_le fun hlength => ?_
  have hmem : d.resolve target ∈ (d.root.filePlaces.map (Path.mk "/")).filter (· ∉ s.imported) :=
    mem_filter.mpr ⟨resolve_mem_filePlaces hread, decide_eq_true hnew⟩
  rw [← hsub.eq_of_length hlength] at hmem
  simp at hmem

/-- Fewer files than `n` have not been read. -/
def Unread (d : Disk) (base n : Nat) (c : Cursor) : Prop :=
  c.session.scope.Orderly base ∧ unread d c.session < n

theorem Constructs.coincide (hx : Constructs False base (fun _ => True) x Q) :
    Coincide (Unread d base n) x x := by
  refine fun c hc => ⟨rfl, fun a c' h => ?_⟩
  have hbuilds := ((hx c ⟨hc.1, False.elim⟩ trivial).of_yields h).1
  exact ⟨hbuilds.scope.orderly, (unread_le_of_imported hbuilds.session.imported).trans_lt hc.2⟩

theorem Textual.coincide (hx : Textual x) : Coincide (Unread d base n) x x :=
  Constructs.coincide (Q := fun _ _ => True) (Observes.constructs fun _ _ _ => hx.observes)

/-- The importers agree on files that have not been read, where fewer than `n` are left. -/
def CoincideBelow (d : Disk) (base n : Nat) (y z : Importer) : Prop :=
  ∀ (kind : ImportKind) (target : Path) (s : Session), s.scope.Orderly base →
    d.resolve target ∉ s.imported → unread d s < n →
    outcome (y kind target) s = outcome (z kind target) s

section
variable (hz : BuildsMessages False d z) (h : CoincideBelow d base n y z)
include hz h

theorem coincide_importOnce (kind : ImportKind) (word : String) (target : Path) :
    Coincide (Unread d base n) (onSession (importOnce d y kind word target))
      (onSession (importOnce d z kind word target)) := by
  refine (constructs_importOnce hz kind word target).coincide.of_eq fun c hc => ?_
  have honce : outcome (importOnce d y kind word target) c.session =
      outcome (importOnce d z kind word target) c.session := by
    rw [importOnce, importOnce, outcome_get_bind, outcome_get_bind]
    split
    · rfl
    · rename_i hnew
      refine outcome_bind_congr rfl fun _ s₁ hs₁ => ?_
      obtain rfl := yields_set.mp hs₁
      exact h kind target _ ⟨hc.1.base, hc.1.keyed, hc.1.within⟩ (by simpa using hnew) hc.2
  exact congrArg (fun r : Except Error (List Message) × Session =>
    (r.1, { c with session := r.2 })) honce

theorem coincide_protocolMember (outer : Option String) :
    Coincide (Unread d base n) (protocolMember d y outer) (protocolMember d z outer) := by
  have himport : Coincide (Unread d base n) (importDeclaration d y) (importDeclaration d z) := by
    refine (textual_expectKeyword "import").coincide.bind fun _ => ?_
    refine textual_next.coincide.bind fun token => ?_
    split
    · exact (textual_failAt _ _).coincide
    · rename_i kind _
      refine textual_stringLiteral.coincide.bind fun _ => ?_
      refine (textual_expectPunct ";").coincide.bind fun _ => ?_
      refine coincide_get_bind fun _ => (coincide_importOnce hz h kind _ _).bind fun _ c hc => ?_
      exact ⟨rfl, fun _ _ hc' => yields_modify.mp hc' ▸ hc⟩
  -- only the import depends on the importer
  refine (constructs_protocolMember hz outer).coincide.of_eq fun c hc => ?_
  refine outcome_bind_congr rfl fun first c₁ hfirst => ?_
  obtain ⟨rfl, rfl⟩ := yields_peek.mp hfirst
  split
  · rfl
  split
  · exact (himport _ hc).1
  · rfl

theorem coincide_protocolDeclaration :
    Coincide (Unread d base n) (protocolDeclaration d y) (protocolDeclaration d z) := by
  refine textual_peek.coincide.bind fun _ => textual_properties.coincide.bind fun _ => ?_
  refine (textual_expectKeyword "protocol").coincide.bind fun _ => ?_
  refine textual_identifier.coincide.bind fun written => ?_
  refine (Observes.constructs fun _ _ _ => observes_declaredSpace written _).coincide.bind
    fun space => ?_
  refine Coincide.bind ?_ fun _ => coincide_get_bind fun _ => .pure _
  refine (textual_expectPunct "\x7b").coincide.bind fun _ => ?_
  refine (coincide_many (textual_atPunct "\x7d").coincide
    (coincide_protocolMember hz h space)).discard.bind fun _ => ?_
  refine (textual_expectPunct "\x7d").coincide.bind fun _ => textual_peek.coincide.bind fun _ => ?_
  exact (Textual.ite (textual_failHere _) (.pure _)).coincide

theorem outcome_loadWith_congr (hs : s.scope.Orderly base) (hn : unread d s < n)
    (path : Option Path) (text : String) :
    outcome (loadWith d y path text) s = outcome (loadWith d z path text) s := by
  obtain ⟨hfail, hrun⟩ := outcome_loadWith d y path text s
  obtain ⟨hfail', hrun'⟩ := outcome_loadWith d z path text s
  cases ht : tokenize path text with
  | error e => rw [hfail e ht, hfail' e ht]
  | ok tokens =>
    rw [hrun tokens ht, hrun' tokens ht,
      (coincide_protocolDeclaration hz h ⟨s, path, tokens, []⟩ ⟨hs, hn⟩).1]

end

/-- **Imports nest on fewer files that have not been read.** -/
theorem descends_importFile (d : Disk) (base : Nat) :
    Descends (fun s => unread d s + 1)
      (fun i s => s.scope.Orderly base ∧ d.resolve i.2 ∉ s.imported)
      (fun importer i => importWith d (fun kind target => importer (kind, target)) i.1 i.2)
      fun i : ImportKind × Path => importFile d (d.fileCount + 1) i.1 i.2 := by
  refine descends_of_bounded (w := fun n i => importFile d n i.1 i.2) (fun _ => rfl)
    (fun _ _ _ => Nat.succ_pos _)
    (fun _ s _ => ⟨_, Nat.succ_le_succ (unread_le_fileCount d s), rfl⟩) ?_
  rintro ⟨kind, target⟩ s ⟨hs, hnew⟩ y hy
  refine outcome_bind_congr rfl fun text s₁ htext => ?_
  rw [Yields, outcome_importText] at htext
  obtain ⟨hread, rfl⟩ := Prod.mk.inj htext
  cases kind with
  | protocol => rfl
  | schema => rfl
  | idl =>
    refine outcome_bind_congr ?_ fun _ _ _ => rfl
    have hlt := unread_lt_of_read hread hnew
    refine outcome_loadWith_congr (s := { s with imported := s.imported ++ [d.resolve target] })
      (buildsMessages_importFile (False.elim ·) _) ?_ hs hlt _ _
    exact fun kind target s' hs' hnew' hlt =>
      hy (kind, target) s' ⟨hs', hnew'⟩ (Nat.succ_lt_succ hlt)

/-! ### Reading files -/

/-- The end of a text is among its tokens. -/
theorem exists_eof_of_tokenize {path : Option Path} (h : tokenize path text = .ok ts) :
    ∃ t ∈ ts, t.kind = .eof := by
  obtain ⟨ws, -, hwords⟩ := words?_of_tokenize h
  have hmem : Word.eof ∈ ts.map Token.word := by simp [hwords]
  obtain ⟨t, ht, hword⟩ := mem_map.mp hmem
  exact ⟨t, ht, congrArg Word.kind hword⟩

/-- Every recursion of reading files on the disk `d` ends: the loops, values and types on fewer
tokens, and the imports on fewer files.  No text is passed beyond its end, whether reading it
succeeds or not. -/
structure ReadingEnds (d : Disk) (base : Nat) : Prop where
  loops : ∀ {α : Type} {atEnd : Parsing Bool} {x : Parsing α}, Loop d atEnd x →
    Shrinks (manyOf atEnd x) (many atEnd x)
  values : Shrinks jsonValueOf jsonValue
  types : ∀ outer space, Shrinks (typeOf outer space) (typeExpr outer space)
  imports : Descends (fun s => unread d s + 1)
    (fun i s => s.scope.Orderly base ∧ d.resolve i.2 ∉ s.imported)
    (fun importer i => importWith d (fun kind target => importer (kind, target)) i.1 i.2)
    fun i : ImportKind × Path => importFile d (d.fileCount + 1) i.1 i.2
  position : ∀ s depth path text tokens, s.scope.Orderly base → tokenize path text = .ok tokens →
    let c' := (outcome (protocolDeclaration d (importFile d depth)) ⟨s, path, tokens, []⟩).2
    Moves tokens c'.tokens ∧ ∃ t ∈ c'.tokens, t.kind = .eof

/-- **Reading a file with its imports ends**, with a protocol or an error.  Every recursion is one
on less: on fewer tokens, with the end of the text ahead, or on fewer files that have not been read.
No file is read twice, the first one included. -/
theorem load_ends {d : Disk} {path : Path} {text : String} {scope : Scope}
    {r : Except Error Protocol} (h : scope.Orderly base)
    (hload : outcome (load d (some path) text) ⟨scope, [d.resolve path]⟩ = (r, s')) :
    ReadingEnds d base ∧ [d.resolve path] <+: s'.imported ∧ s'.imported.Nodup := by
  refine ⟨⟨Loop.shrinks, shrinks_jsonValue, shrinks_typeExpr, descends_importFile d base,
    fun s depth path text tokens hs ht => ?_⟩, ?_⟩
  · have hmoves := (leads_protocolDeclaration (c := ⟨s, path, tokens, []⟩)
      (buildsMessages_importFile (d := d) (False.elim ·) depth) ⟨hs, False.elim⟩).rel.tokens
    exact ⟨hmoves, Moves.ended hmoves (exists_eof_of_tokenize ht)⟩
  · have hbuilds := (leads_loadWith (s := ⟨scope, [d.resolve path]⟩) (buildsMessages_importFile
      (d := d) (False.elim ·) (d.fileCount + 1)) h (some path)
      (False.elim : False → textIsLegal text = true)).rel
    rw [show outcome (loadWith d _ (some path) text) _ = _ from hload] at hbuilds
    exact ⟨hbuilds.imported, hbuilds.once (nodup_singleton _)⟩

/-- The text of a file that imports itself and, twice, another file. -/
def mutualText : String :=
  "protocol A\x7bimport idl \"a\";import idl \"b\";import idl \"./b\";int f();\x7d"

/-- The disk with that file, with another one that imports it and a type, and with the type. -/
def mutualDisk : Disk :=
  ⟨.directory [("a", .file (.text mutualText) 0),
    ("b", .file (.text "protocol B\x7bimport idl \"a\";import schema \"t\";T g();\x7d") 0),
    ("t", .file (.text "\x7b\"type\":\"enum\",\"name\":\"T\",\"symbols\":[]\x7d") 0)] 0, [], 0, []⟩

theorem load_ends_mutual :
    (Scope.initial true true).Orderly 0 ∧ ∃ p s',
      Yields (load mutualDisk (some ⟨"", ["a"]⟩) mutualText)
        ⟨.initial true true, [mutualDisk.resolve ⟨"", ["a"]⟩]⟩ p s' ∧
      s'.imported.map (·.parts) = [["a"], ["b"], ["t"]] ∧ ReadingEnds mutualDisk 0 ∧
      [mutualDisk.resolve ⟨"", ["a"]⟩] <+: s'.imported ∧ s'.imported.Nodup := by
  have hstart : (Scope.initial true true).Orderly 0 := Scope.orderly_of_empty rfl
  have hrun : succeeds (load mutualDisk (some ⟨"", ["a"]⟩) mutualText)
      ⟨.initial true true, [mutualDisk.resolve ⟨"", ["a"]⟩]⟩
      (fun _ s' => s'.imported.map (·.parts) == [["a"], ["b"], ["t"]]) = true := by
    decide +kernel
  obtain ⟨p, s', hload, himported⟩ := exists_of_succeeds _ _ _ hrun
  exact ⟨hstart, p, s', hload, beq_iff_eq.mp himported, load_ends hstart hload⟩

end

end Idl

end Avroc
