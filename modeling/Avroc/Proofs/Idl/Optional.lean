import Avroc.Proofs.Idl.Recursion
import Avroc.Proofs.Schema.Refusal

/-!
# Optional types of variables

A question mark makes one union of null and a type for all variables of a declaration.  Each
variable has the branches in the order that its own default asks for, and the declaration is
refused for its defaults exactly if one of them is neither null nor of the type.

* `Answers.commaList` : **a list is refused exactly if one of its parts is.**
* `answers_declarator` : **a variable of an optional type.**
* `ends_optionalDeclaration` : **the variables of a declaration with an optional type.**
-/

namespace Avroc

open List

/-- The error, with its place if it is a refusal. -/
def Error.placed (path : Option Path) (line : Int) : Error → Error
  | .parse fault _ _ => .parse fault path (some line)
  | e => e

namespace Idl

theorem ends_locating {α : Type} {step : Reading α} {Q : α → Scope → Prop} {Q' : α → Cursor → Prop}
    {E : Error → Scope → Prop} {E' : Error → Cursor → Prop} {c : Cursor} (token : Token)
    (h : Ends Q E (outcome step c.session.scope)) (hQ : ∀ a s, Q a s → Q' a (c.withScope s))
    (hE : ∀ e s, E e s → E' (e.placed c.path token.line) (c.withScope s)) :
    Ends Q' E' (outcome (locating token step) c) := by
  have hread : outcome (reading step) c =
      ((outcome step c.session.scope).1, c.withScope (outcome step c.session.scope).2) := rfl
  rw [locating, outcome_tryCatch, hread]
  rcases hr : outcome step c.session.scope with ⟨e | a, s⟩ <;> rw [hr] at h
  · have hplaced := hE e s (h.error e rfl)
    cases e
    case parse fault _ _ => exact ends_throw hplaced
    all_goals exact ends_throw hplaced
  · exact ends_pure (hQ a s (h.result a rfl))

/-! ### Accepting or refusing what is written -/

/-- The cursor is in the scope, in the text of the path. -/
def Cursor.At (s : Scope) (path : Option Path) (c : Cursor) : Prop :=
  c.session.scope = s ∧ c.path = path

variable {α β γ : Type} {s : Scope} {path : Option Path} {c c' : Cursor} {t : Schema}

theorem Cursor.At.moved (h : c.At s path) (hm : c.Moved c') : c'.At s path := by
  rw [hm.rest]
  exact h

/-- The step stays in the scope. -/
def Stays (s : Scope) (path : Option Path) (z : Parsing γ) : Prop :=
  ∀ c a c', c.At s path → Yields z c a c' → c'.At s path

theorem Textual.stays {z : Parsing γ} (hz : Textual z) : Stays s path z :=
  fun _ _ _ hc h => hc.moved (hz.moved h)

/-- Where the step `y` reads something in the scope, the step `x` either reads it too, with a result
that `ok` relates to it, or refuses it with an error that `bad` relates to it. -/
def Answers (s : Scope) (path : Option Path) (y : Parsing β) (x : Parsing α) (ok : β → α → Prop)
    (bad : β → Error → Prop) : Prop :=
  ∀ c b c', c.At s path → Yields y c b c' → c'.At s path ∧
    Ends (fun a c₁ => c₁ = c' ∧ ok b a) (fun e _ => bad b e) (outcome x c)

/-- The same for lists, which are refused for one of their parts. -/
abbrev AnswersAll (s : Scope) (path : Option Path) (ys : Parsing (List β)) (xs : Parsing (List α))
    (ok : β → α → Prop) (bad : β → Error → Prop) : Prop :=
  Answers s path ys xs (Forall₂ ok) fun bs e => ∃ b ∈ bs, bad b e

section
variable {x : Parsing α} {y : Parsing β} {ok : β → α → Prop} {bad : β → Error → Prop}

theorem Answers.bind {z : Parsing γ} {f : γ → Parsing α} {g : γ → Parsing β} (hz : Stays s path z)
    (h : ∀ a, Answers s path (g a) (f a) ok bad) : Answers s path (z >>= g) (z >>= f) ok bad := by
  intro c b c' hc hy
  obtain ⟨a, c₁, ha, hy⟩ := yields_bind.mp hy
  obtain ⟨hc', hx⟩ := h a c₁ b c' (hz c a c₁ hc ha) hy
  exact ⟨hc', ha.ends_bind hx⟩

theorem answersAll_nil : AnswersAll s path (pure []) (pure []) ok bad := by
  intro c bs c' hc hy
  obtain ⟨rfl, rfl⟩ := yields_pure.mp hy
  exact ⟨hc, ends_pure ⟨rfl, .nil⟩⟩

theorem Answers.cons {xs : Parsing (List α)} {ys : Parsing (List β)} (h : Answers s path y x ok bad)
    (hs : AnswersAll s path ys xs ok bad) :
    AnswersAll s path (do let b ← y; let bs ← ys; return b :: bs)
      (do let a ← x; let as ← xs; return a :: as) ok bad := by
  intro c bs c' hc hy
  simp only [yields_bind, yields_pure] at hy
  obtain ⟨b, c₁, hb, bs, _, hbs, rfl, rfl⟩ := hy
  obtain ⟨hc₁, hx⟩ := h _ _ _ hc hb
  obtain ⟨hc', hxs⟩ := hs _ _ _ hc₁ hbs
  refine ⟨hc', (hx.imp (fun _ _ h => h) fun e _ he => ⟨b, mem_cons_self, he⟩).bind ?_⟩
  rintro a _ ⟨rfl, ha⟩
  refine (hxs.imp (fun _ _ h => h) fun e _ => .imp fun b' he =>
    ⟨mem_cons_of_mem _ he.1, he.2⟩).bind ?_
  rintro as _ ⟨rfl, has⟩
  exact ends_pure ⟨rfl, .cons ha has⟩

theorem Answers.manyWithin {atEnd : Parsing Bool} (hend : Textual atEnd)
    (h : Answers s path y x ok bad) (bound : Nat) :
    AnswersAll s path (manyWithin atEnd y bound) (manyWithin atEnd x bound) ok bad := by
  induction bound with
  | zero => exact answersAll_nil
  | succ bound ih =>
    refine .bind hend.stays fun stop => ?_
    cases stop with
    | true => exact answersAll_nil
    | false => exact h.cons ih

/-- **A list is refused exactly if one of its parts is.** -/
theorem Answers.commaList (h : Answers s path y x ok bad) :
    AnswersAll s path (commaList y) (commaList x) ok bad := by
  refine h.cons (.bind ?_ fun _ => .manyWithin ?_ (.bind textual_next.discard.stays fun _ => h) _)
  · intro c a c' hc hget
    rwa [(yields_get.mp hget).2]
  · exact ((looks_atPunct ",").return _).1

end

/-! ### Variables -/

/-- A variable as it is written. -/
structure Variable where
  name : String
  default : Option Json

/-- The variable ahead, whatever its default is. -/
def writtenVariable : Parsing Variable := do
  let _ ← properties
  let token ← peek
  let name ← simpleIdentifier
  locating token (checkName name)
  let default ← defaultValue
  return ⟨name, default⟩

namespace Variable

/-- The default is null or belongs to the type. -/
def Suits (c : Catalog) (t : Schema) (v : Variable) : Prop :=
  ∀ d ∈ v.default, d = .null ∨ d.fits c t = true

/-- The field has the name and the default of the variable, and its type is the union of null and
`t`, with `t` first exactly if the default is not null. -/
def Gives (t : Schema) (v : Variable) (f : Field) : Prop :=
  f.name = v.name ∧ f.default = v.default ∧
    ((∃ d ∈ v.default, d ≠ .null) ∧ f.type = .union [t, .plain .null] ∨
      (∀ d ∈ v.default, d = .null) ∧ f.type = .union [.plain .null, t])

/-- The error refuses the default of the variable, or says that its type has no document to be shown
in the refusal. -/
def Refuses (c : Catalog) (t : Schema) (path : Option Path) (v : Variable) (e : Error) : Prop :=
  ∃ d ∈ v.default, d ≠ .null ∧ d.fits c t = false ∧
    ((∃ document line, e = .parse (.badDefault v.name d document) path (some line)) ∨
      ∃ cause, (Schema.union [t, .plain .null]).document c = .error cause ∧ e = .misuse cause)

end Variable

theorem fits_union_cons (d : Json) (c : Catalog) (ts : List Schema) :
    d.fits c (.union (t :: ts)) = d.fits c t := by
  cases d <;> rfl

/-- The order of the branches is that of the default of the variable. -/
theorem variableType_optional (t : Schema) (default : Option Json) :
    let type := variableType ⟨.union [.plain .null, t], true⟩ default
    (∃ d ∈ default, d ≠ .null) ∧ type = .union [t, .plain .null] ∨
      (∀ d ∈ default, d = .null) ∧ type = .union [.plain .null, t] := by
  cases default with
  | none => exact .inr ⟨by simp, rfl⟩
  | some d =>
    cases d with
    | null => exact .inr ⟨by simp, rfl⟩
    | _ => exact .inl ⟨⟨_, rfl, by simp⟩, rfl⟩

/-- **A variable of an optional type** has the branches in the order that its default asks for, and
is refused exactly if its default is neither null nor of the type. -/
theorem answers_declarator (hchecks : s.registry.checksDefaults = true) (doc : Option String)
    (extra : Members) : Answers s path writtenVariable
      (declarator ⟨.union [.plain .null, t], true⟩ doc extra)
      (fun v f => v.Suits s.catalog t ∧ v.Gives t f) (fun v e => v.Refuses s.catalog t path e) := by
  refine .bind textual_properties.stays fun props => .bind textual_peek.stays fun token => ?_
  refine .bind textual_simpleIdentifier.stays fun name => .bind ?_ fun _ => ?_
  · intro c _ c' hc h
    obtain ⟨s', hcheck, rfl⟩ := yields_locating.mp h
    obtain rfl := (yields_checkName.mp hcheck).1
    exact hc
  refine .bind textual_defaultValue.stays fun default c v c' hc hy => ?_
  obtain ⟨rfl, rfl⟩ := yields_pure.mp hy
  refine ⟨hc, ends_locating token (ends_makeField _ _) ?_ ?_⟩
  · rintro f _ ⟨rfl, rfl, hfits⟩
    refine ⟨rfl, fun d hd => ?_, rfl, rfl, variableType_optional t default⟩
    have hfits := hfits (hc.1 ▸ hchecks) d hd
    rcases variableType_optional t default with ⟨-, htype⟩ | ⟨hnull, -⟩
    · rw [hc.1, htype, fits_union_cons] at hfits
      exact .inr hfits
    · exact .inl (hnull d hd)
  · rintro e _ ⟨-, d, hd, hfits, he⟩
    rw [hc.1] at hfits he
    rcases variableType_optional t default with ⟨⟨_, hd', hne⟩, htype⟩ | ⟨hnull, htype⟩
    · cases hd.symm.trans hd'
      rw [htype, fits_union_cons] at hfits
      refine ⟨d, hd, hne, hfits, ?_⟩
      rcases he with ⟨document, rfl⟩ | ⟨cause, hcause, rfl⟩
      · exact .inl ⟨document, _, congrArg (Error.parse _ · _) hc.2⟩
      · exact .inr ⟨cause, htype ▸ hcause, rfl⟩
    · rw [htype, hnull d hd] at hfits
      cases hfits

/-! ### Declarations -/

/-- The type and the variables of the declaration ahead, in which a question mark follows the type,
whatever the defaults are. -/
def writtenDeclaration (outer space : Option String) : Parsing (Schema × List Variable) := do
  let _ ← properties
  let inner ← properties
  let token ← peek
  if token.kind ≠ .ident then failHere (.expectedType token.found)
  else
    let type ← insideType outer space (typeExpr outer space) token
    expectPunct "?"
    let written ← commaList writtenVariable
    expectPunct ";"
    return ((attach type inner).1, written)

/-- A question mark makes a union with null. -/
theorem yields_optionalType (token : Token) (hunion : t.isUnion = false)
    (hnull : t.branchKey c.session.scope.catalog ≠ "null") {u : Unit}
    (h : Yields (expectPunct "?") c u c') :
    Yields (optionalType token t) c ⟨.union [.plain .null, t], true⟩ c' := by
  have hc' := ((textual_expectPunct "?").moved h).rest
  obtain ⟨mark, c₁, hpeek, h⟩ := yields_bind.mp h
  obtain ⟨rfl, rfl⟩ := yields_peek.mp hpeek
  split at h
  · rename_i hmark
    refine yields_bind.mpr ⟨true, c₁, ?_, ?_⟩
    · exact yields_bind.mpr ⟨_, _, hpeek, yields_pure.mpr ⟨hmark.symm, rfl⟩⟩
    · rw [if_pos rfl, if_neg (by simp [hunion])]
      refine yields_bind.mpr ⟨_, c', h, yields_bind.mpr ⟨_, c', ?_, yields_pure.mpr ⟨rfl, rfl⟩⟩⟩
      refine yields_locating.mpr ⟨c'.session.scope, yields_makeUnion.mpr ⟨rfl, ?_⟩, rfl⟩
      refine yields_checkBranches.mpr ⟨rfl, ?_, ?_, by simp⟩
      · exact forall_mem_cons.mpr ⟨rfl, forall_mem_singleton.mpr hunion⟩
      · rw [hc', map_cons, map_singleton, nodup_cons, mem_singleton]
        exact ⟨Ne.symm hnull, nodup_singleton _⟩
  · exact absurd h not_yields_failHere

/-- **The variables of a declaration with an optional type.**  A question mark follows the type `t`,
which is no union and not null.  If the declaration is accepted, then each default is null or
belongs to `t`, and each variable has the union of null and `t`, in the order that its own default
asks for; if it is refused, then for a default that is neither. -/
theorem ends_optionalDeclaration {outer space : Option String} {vs : List Variable}
    (hended : c.Ended) (hchecks : c.session.scope.registry.checksDefaults = true)
    (hwritten : Yields (writtenDeclaration outer space) c (t, vs) c')
    (hunion : t.isUnion = false) (hnull : t.branchKey c.session.scope.catalog ≠ "null") :
    Ends (fun fields c₁ => c₁ = c' ∧
        Forall₂ (fun v f => v.Suits c.session.scope.catalog t ∧ v.Gives t f) vs fields)
      (fun e _ => ∃ v ∈ vs, v.Refuses c.session.scope.catalog t c.path e)
      (outcome (fieldDeclaration outer space) c) := by
  obtain ⟨props, c₁, hprops, hwritten⟩ := yields_bind.mp hwritten
  obtain ⟨inner, _, hinner, hwritten⟩ := yields_bind.mp hwritten
  obtain ⟨token, c₂, hpeek, hwritten⟩ := yields_bind.mp hwritten
  obtain ⟨rfl, rfl⟩ := yields_peek.mp hpeek
  split at hwritten
  · exact absurd hwritten not_yields_failHere
  rename_i hkind
  simp only [yields_bind, yields_pure] at hwritten
  obtain ⟨type, c₃, htype, _, c₄, hmark, _, c₅, hvs, _, _, hend, heq, rfl⟩ := hwritten
  cases heq
  have hm₁ := textual_properties.moved hprops
  have hm₂ : c.Moved c₂ := Trans.trans hm₁ (textual_properties.moved hinner)
  obtain ⟨_, hr, hquiet, -⟩ := follows_insideType (follows_typeExpr outer space) _ _ _ _ htype
  have hm₃ : c.Moved c₃ := Trans.trans hm₂ (⟨hquiet, hr.1⟩ : c₂.Moved c₃)
  have hexpr : Yields (typeExpr outer space) c₁
      ⟨.union [.plain .null, (attach type inner).1], true⟩ c₄ := by
    refine (shrinks_typeExpr outer space () c₁ (hm₁.tokens.ended hended)
      (fun _ => typeExpr outer space) fun _ _ _ _ => rfl).symm.trans ?_
    refine yields_bind.mpr ⟨_, _, hinner, yields_bind.mpr ⟨_, _, hpeek, ?_⟩⟩
    rw [if_neg hkind]
    refine yields_bind.mpr ⟨_, _, htype, yields_optionalType _ hunion ?_ hmark⟩
    rwa [hm₃.rest]
  have hc₄ : c₄.At c.session.scope c.path :=
    (Cursor.At.moved ⟨rfl, rfl⟩ hm₃).moved ((textual_expectPunct "?").moved hmark)
  have hattach : (attach (.union [.plain .null, (attach type inner).1]) props).1 =
      .union [.plain .null, (attach type inner).1] := by
    unfold attach
    split <;> rfl
  refine (yields_peek.mpr ⟨rfl, rfl⟩).ends_bind (hprops.ends_bind (hexpr.ends_bind ?_))
  dsimp only
  rw [hattach]
  obtain ⟨-, hlist⟩ := (answers_declarator hchecks _ _).commaList _ _ _ hc₄ hvs
  refine hlist.bind ?_
  rintro fields _ ⟨rfl, hfields⟩
  exact hend.ends_bind (ends_pure ⟨rfl, hfields⟩)

/-- The start of a text that declares variables of an optional type. -/
def optionalCursor : Cursor :=
  ⟨⟨.initial true true, []⟩, none,
    ((tokenize none "int? a = 1, b = null, c = \"x\";").toOption.getD []), []⟩

theorem ends_optionalDeclaration_siblings : ∃ t vs c',
    Yields (writtenDeclaration none none) optionalCursor (t, vs) c' ∧
      vs.map (·.name) = ["a", "b", "c"] ∧
      Ends (fun fields c₁ => c₁ = c' ∧
          Forall₂ (fun v f => v.Suits .empty t ∧ v.Gives t f) vs fields)
        (fun e _ => ∃ v ∈ vs, v.Refuses .empty t none e)
        (outcome (fieldDeclaration none none) optionalCursor) := by
  have hrun : succeeds (writtenDeclaration none none) optionalCursor (fun r _ =>
      !r.1.isUnion && r.1.branchKey .empty != "null" &&
        r.2.map (·.name) == ["a", "b", "c"]) = true := by
    decide +kernel
  have hended : optionalCursor.Ended := by
    unfold Cursor.Ended
    decide +kernel
  obtain ⟨⟨t, vs⟩, c', hy, htest⟩ := exists_of_succeeds _ _ _ hrun
  simp only [Bool.and_eq_true, beq_iff_eq, bne_iff_ne, Bool.not_eq_true'] at htest
  obtain ⟨⟨hunion, hnull⟩, hnames⟩ := htest
  exact ⟨t, vs, c', hy, hnames, ends_optionalDeclaration hended rfl hy hunion hnull⟩

/-- The start of a text that declares a variable of an optional type with the full name `null`. -/
def nullNameCursor : Cursor :=
  ⟨⟨(outcome (readIdl ⟨.directory [] 0, [], 0, []⟩ none "protocol P \x7b fixed `null`(1); \x7d")
    (.initial true true)).2, []⟩, none, (tokenize none "`null`? x;").toOption.getD [], []⟩

/-- A type with the full name `null` cannot be told from null: the declaration is refused, though no
variable has a default. -/
theorem not_yields_optionalDeclaration_nullName :
    (∃ t vs c', Yields (writtenDeclaration none none) nullNameCursor (t, vs) c' ∧
      t.isUnion = false ∧ t.isNull = false ∧ ∀ v ∈ vs, v.default = none) ∧
    ∀ fields c', ¬ Yields (fieldDeclaration none none) nullNameCursor fields c' := by
  have hrun : succeeds (writtenDeclaration none none) nullNameCursor (fun r _ =>
      !r.1.isUnion && !r.1.isNull && r.2.all (·.default.isNone)) = true := by
    decide +kernel
  have hrefused : succeeds (fieldDeclaration none none) nullNameCursor
      (fun _ _ => true) = false := by
    decide +kernel
  obtain ⟨⟨t, vs⟩, c', hy, htest⟩ := exists_of_succeeds _ _ _ hrun
  simp only [Bool.and_eq_true, Bool.not_eq_true', all_eq_true, Option.isNone_iff_eq_none] at htest
  refine ⟨⟨t, vs, c', hy, htest.1.1, htest.1.2, htest.2⟩, fun fields c' h => ?_⟩
  rw [succeeds, show outcome _ _ = _ from h] at hrefused
  cases hrefused

end Idl

end Avroc
