import Avroc.Proofs.Schema.Reread
import Avroc.Protocol.Reader

/-!
# Sequences of definitions

A protocol lays many definitions, some at its top and some inside its messages.  Whatever the place,
the definitions come one after the other, each whole before the next begins, and a document that
mentions all named types in the order of their definition can be read back to the same state.

* `Laid.rereads` : the documents of the definitions, read again.
-/

namespace Avroc

open List

variable {vs vs' : List Json} {a b : Nat} {p : Piece} {s s' s₁ : Scope} {id : TypeId}
  {ids : List TypeId}

/-! ### Sequences -/

/-- Definitions are laid between two states, each whole before the next begins. -/
inductive Laid : Scope → Scope → Prop
  | refl (s : Scope) : Laid s s
  | step {s s₁ s' : Scope} : Lays s (.type (.named ⟨s.catalog.size⟩)) s₁ →
      s.catalog.size < s₁.catalog.size → Laid s₁ s' → Laid s s'

namespace Laid

theorem trans (h : Laid s s₁) (h' : Laid s₁ s') : Laid s s' := by
  induction h with
  | refl => exact h'
  | step hd hlt _ ih => exact .step hd hlt (ih h')

theorem grows (h : Laid s s') : s.Grows s' := by
  induction h with
  | refl => exact .refl _
  | step hd _ _ ih => exact hd.grows.trans ih

theorem sound (h : Laid s s') (hs : s.Sound) : s'.Sound := by
  induction h with
  | refl => exact hs
  | step hd _ _ ih => exact ih (hd.sound hs).1

theorem definition_eq (h : Laid s s') (hid : id.index < s.catalog.size) :
    s'.catalog.definition id = s.catalog.definition id := by
  induction h with
  | refl => rfl
  | step hd hlt _ ih => rw [ih (Nat.lt_trans hid hlt), hd.definition_eq hid trivial]

/-- Definitions that are there show the same afterwards. -/
theorem alike (h : Laid s s') (hs : s.Sound) :
    s.catalog.Alike (Matching.below s.catalog.size) s'.catalog := by
  rintro a _ ⟨rfl, ha⟩
  rw [h.definition_eq ha]
  exact Definition.alike_self fun f hf => hs.closed a ha f hf

/-- A field that passes its checks passes them afterwards. -/
theorem declarable (h : Laid s s') (hs : s.Sound) {f : Field} (hf : f.Declarable s.catalog)
    (ht : f.type.Within s.catalog.size) : f.Declarable s'.catalog :=
  { hf with
    default := fun v hv => by
      rw [← Json.fits_alike (h.alike hs) v _ _ ht]
      exact hf.default v hv }

end Laid

/-- The piece is more than a part of a record. -/
def Piece.Whole : Piece → Prop
  | .fields .. => False
  | _ => True

/-- What a type brings is laid one definition after the other. -/
theorem Lays.laid (h : Lays s p s') (hp : p.Whole) : Laid s s' := by
  induction h with
  | primitive | known | noBranch => exact .refl _
  | array _ _ ih | map _ _ ih | union _ _ ih => exact ih trivial
  | leaf hd hnew hb => exact .step (.leaf hd hnew hb) (by simp) (.refl _)
  | record hd hnew hb h _ =>
    exact .step (.record hd hnew hb h) (Nat.lt_of_lt_of_le (by simp) h.grows.size) (.refl _)
  | branch _ _ ih ih' => exact (ih trivial).trans (ih' trivial)
  | noField | field => exact hp.elim

/-! ### Complete registries -/

/-- The registry lists the named types of the catalog, in order, each under its own name. -/
structure Scope.Complete (s : Scope) : Prop where
  entries : s.registry.entries =
    (TypeId.upTo s.catalog.size).map fun id => (s.catalog.fullName id, id)
  get? : ∀ id, id.index < s.catalog.size → s.registry.get? (s.catalog.fullName id) = some id

namespace Scope

theorem complete_initial (checksNames checksDefaults : Bool) :
    (initial checksNames checksDefaults).Complete :=
  ⟨rfl, fun _ h => absurd h (Nat.not_lt_zero _)⟩

theorem Complete.names (h : s.Complete) :
    s.registry.names = (TypeId.upTo s.catalog.size).map s.catalog.fullName := by
  rw [Registry.names, h.entries, map_map]
  rfl

theorem Complete.types (h : s.Complete) : s.registry.newTypes [] = TypeId.upTo s.catalog.size := by
  simp [Registry.newTypes, h.entries, Function.comp_def]

theorem Complete.types_eq (h : s.Complete) : s.registry.types = TypeId.upTo s.catalog.size := by
  rw [Registry.types, h.entries, map_map]
  exact map_id _

theorem Complete.enter (h : s.Complete) {d : Definition}
    (hnew : s.registry.contains d.fullName = false) : (s.enter d).Complete where
  entries := by
    have hold : (TypeId.upTo s.catalog.size).map (fun id => (s.catalog.fullName id, id)) =
        (TypeId.upTo s.catalog.size).map fun id => ((s.enter d).catalog.fullName id, id) :=
      map_congr_left fun id hid => by
        rw [(grows_enter hnew).fullName id (TypeId.mem_upTo.mp hid)]
    have hentries : (s.enter d).registry.entries =
        s.registry.entries ++ [(d.fullName, ⟨s.catalog.size⟩)] :=
      Registry.entries_add_of_new hnew _
    rw [hentries, h.entries, hold, size_enter, TypeId.upTo_succ, map_append,
      map_singleton, fullName_enter_self]
  get? id hid := by
    rcases lt_size_enter hid with hid | rfl
    · rw [(grows_enter hnew).fullName id hid]
      exact (grows_enter hnew).get? _ _ (h.get? id hid)
    · rw [fullName_enter_self, Scope.enter, Registry.get?_add, if_pos rfl]

theorem Complete.extend (h : s.Complete) (id : TypeId) (f : Field) : (s.extend id f).Complete where
  entries := by
    rw [registry_extend, size_extend, h.entries]
    simp only [fullName_extend]
  get? other hother := by
    rw [size_extend] at hother
    rw [fullName_extend, registry_extend, h.get? other hother]

end Scope

theorem Lays.complete (h : Lays s p s') (hs : s.Complete) : s'.Complete := by
  induction h with
  | primitive | known | noBranch | noField => exact hs
  | array _ _ ih | map _ _ ih | union _ _ ih => exact ih hs
  | leaf _ hnew _ => exact hs.enter hnew
  | record _ hnew _ _ ih => exact ih (hs.enter hnew)
  | branch _ _ ih ih' => exact ih' (ih hs)
  | field _ _ _ _ ih ih' => exact ih' ((ih hs).extend _ _)

theorem Laid.complete (h : Laid s s') (hs : s.Complete) : s'.Complete := by
  induction h with
  | refl => exact hs
  | step hd _ _ ih => exact ih (hd.complete hs)

/-! ### Laying again -/

/-- Every named type of the catalog has a namespace. -/
def Catalog.Spaced (c : Catalog) : Prop :=
  ∀ id, id.index < c.size → (c.definition id).Spaced

/-- In a complete state, a type with a namespace can be mentioned. -/
theorem Scope.Complete.known (hs : s.Complete) (hspaced : s.catalog.Spaced)
    (hid : id.index < s.catalog.size) : Lays s (.type (.named id)) s := by
  refine .known (hs.get? id hid) (Primitive.ofName?_of_dot_mem ?_)
  obtain ⟨text, ht, hne⟩ := hspaced id hid
  rw [Catalog.fullName, Definition.fullName, ht]
  exact dot_mem_joinName hne _

/-- **A type that has been laid can be laid again later**, and then changes nothing. -/
theorem Lays.again (h : Lays s p s') (hs : s.Sound) (hp : p.Whole) {sf : Scope} (hg : s'.Grows sf)
    (hsf : sf.Complete) (hspaced : sf.catalog.Spaced) : Lays sf p sf := by
  induction h with
  | primitive hprops => exact .primitive hprops
  | array hprops _ ih => exact .array hprops (ih hs trivial hg)
  | map hprops _ ih => exact .map hprops (ih hs trivial hg)
  | @union s s' ts h hb ih =>
    obtain ⟨-, hu, hnd, -⟩ := yields_checkBranches.mp hb
    obtain ⟨-, hwithin⟩ := h.sound hs
    refine .union (ih hs trivial hg) (yields_checkBranches.mpr ⟨rfl, hu, ?_, ?_⟩)
    · rwa [map_congr_left fun t ht => hg.branchKey_eq (hwithin t ht)]
    · exact fun _ _ => not_mem_nil
  | @known s id hid _ =>
    exact hsf.known hspaced (Nat.lt_of_lt_of_le (hs.get? _ id hid).1 hg.size)
  | leaf hd hnew hb =>
    exact hsf.known hspaced (Nat.lt_of_lt_of_le (by simp) hg.size)
  | record hd hnew hb h _ =>
    exact hsf.known hspaced (Nat.lt_of_lt_of_le (by simp) (Nat.le_trans h.grows.size hg.size))
  | noBranch => exact .noBranch
  | branch h h' ih ih' =>
    exact .branch (ih hs trivial (h'.grows.trans hg)) (ih' (h.sound hs).1 trivial hg)
  | noField | field => exact hp.elim

/-! ### Reading again -/

/-- The identities from one bound to the next, in order. -/
def TypeId.between (a b : Nat) : List TypeId :=
  (List.range' a (b - a)).map TypeId.mk

theorem TypeId.upTo_eq_between (n : Nat) : TypeId.upTo n = TypeId.between 0 n := by
  rw [TypeId.upTo, TypeId.between, range_eq_range', Nat.sub_zero]

theorem TypeId.between_self (a : Nat) : TypeId.between a a = [] := by
  simp [TypeId.between]

theorem TypeId.between_eq_cons (h : a < b) :
    TypeId.between a b = ⟨a⟩ :: TypeId.between (a + 1) b := by
  obtain ⟨n, rfl⟩ : ∃ n, b = a + (n + 1) := ⟨b - a - 1, by omega⟩
  rw [TypeId.between, TypeId.between, show a + (n + 1) - a = n + 1 by omega, range'_succ,
    show a + (n + 1) - (a + 1) = n by omega, map_cons]

theorem TypeId.between_append {c : Nat} (h : a ≤ b) (h' : b ≤ c) :
    TypeId.between a b ++ TypeId.between b c = TypeId.between a c := by
  obtain ⟨n, rfl⟩ := Nat.le.dest h
  obtain ⟨m, rfl⟩ := Nat.le.dest h'
  rw [TypeId.between, TypeId.between, TypeId.between, ← map_append, Nat.add_sub_cancel_left,
    Nat.add_sub_cancel_left, Nat.add_assoc, Nat.add_sub_cancel_left, List.range'_append_1]

theorem TypeId.lt_of_mem_between (h : id ∈ TypeId.between a b) : id.index < b := by
  obtain ⟨i, hi, rfl⟩ := mem_map.mp h
  have := List.mem_range'_1.mp hi
  show i < b
  omega

theorem writes_typeDocuments_append {m : Mention} {ids' : List TypeId} {ns ns₁ ns' : List String}
    (h : Writes (typeDocuments m ids) ns vs ns₁) (h' : Writes (typeDocuments m ids') ns₁ vs' ns') :
    Writes (typeDocuments m (ids ++ ids')) ns (vs ++ vs') ns' := by
  induction ids generalizing ns vs with
  | nil =>
    obtain ⟨rfl, rfl⟩ := writes_pure.mp h
    exact h'
  | cons id ids ih =>
    simp only [typeDocuments, writes_bind, writes_pure] at h
    obtain ⟨v, _, hv, vs, _, hvs, rfl, rfl⟩ := h
    exact Writes.bind hv ((ih hvs).bind .pure)

theorem yields_readTypes_append {space : Space} (h : Yields (readTypes space vs) s () s₁)
    (h' : Yields (readTypes space vs') s₁ () s') :
    Yields (readTypes space (vs ++ vs')) s () s' := by
  induction vs generalizing s with
  | nil =>
    obtain ⟨-, rfl⟩ := yields_pure.mp h
    exact h'
  | cons v vs ih =>
    simp only [readTypes, yields_bind] at h
    obtain ⟨t, s₂, ht, h⟩ := h
    refine ht.bind ?_
    cases t with
    | named id => exact ih h
    | primitive | array | map | union => simp at h

/-- The document of a named type at the top of a protocol, read again. -/
theorem yields_readTypes_cons {space : Space} {v : Json}
    (h : Yields (readSchema v space) s (.named id) s₁) (h' : Yields (readTypes space vs) s₁ () s') :
    Yields (readTypes space (v :: vs)) s () s' :=
  Yields.bind h h'

section
variable {c : Catalog} (depth : Nat) (space : Space)

/-- Types that are known are mentioned and read without a change. -/
theorem rereads_known (hs : s.Sound) (hc : c.Covers s s) (hplace : c.Placed space)
    (hids : ∀ id ∈ ids, Lays s (.type (.named id)) s) :
    ∃ vs, Writes (typeDocuments (c.mention depth) ids) s.registry.names vs s.registry.names ∧
      Yields (readTypes space vs) s.tidy () s.tidy := by
  induction ids with
  | nil => exact ⟨[], .pure, .pure⟩
  | cons id ids ih =>
    obtain ⟨hid, hids⟩ := forall_mem_cons.mp hids
    obtain ⟨v, hw, hy⟩ := hid.rereads hs hc (Nat.le_add_right _ depth) hplace.nests
      (hplace.over _) trivial
    obtain ⟨vs, hws, hys⟩ := ih hids
    refine ⟨v :: vs, ?_, yields_readTypes_cons hy hys⟩
    exact hw.bind (hws.bind .pure)

/-- **Definitions laid one after the other can be written down and read again**, all at the top of
one list: what is defined inside an earlier definition is mentioned by name when its turn comes. -/
theorem Laid.rereads (h : Laid s s') (hs : s.Sound) (hcomplete : s.Complete) (hc : c.Covers s s')
    (hdepth : s'.catalog.size ≤ s.catalog.size + depth) (hspaced : s'.catalog.Spaced)
    (hplace : c.Placed space) :
    ∃ vs, Writes (typeDocuments (c.mention depth)
        (TypeId.between s.catalog.size s'.catalog.size)) s.registry.names vs s'.registry.names ∧
      Yields (readTypes space vs) s.tidy () s'.tidy := by
  induction h with
  | refl s =>
    rw [TypeId.between_self]
    exact ⟨[], .pure, .pure⟩
  | @step s s₁ s' hd hlt h ih =>
    have hle := h.grows.size
    have hc₁ : c.Covers s s₁ := hc.left h.grows fun id _ hid => h.definition_eq hid
    obtain ⟨hs₁, -⟩ := hd.sound hs
    have hcomplete₁ := hd.complete hcomplete
    have hspaced₁ : s₁.catalog.Spaced := by
      intro id hid
      rw [← h.definition_eq hid]
      exact hspaced id (Nat.lt_of_lt_of_le hid hle)
    obtain ⟨v, hw, hy⟩ := hd.rereads hs hc₁ (Nat.le_trans hle hdepth) hplace.nests
      (hplace.over _) trivial
    obtain ⟨known, hwk, hyk⟩ := rereads_known depth space hs₁ (hc₁.right hd.grows.size)
      hplace fun id (hid : id ∈ TypeId.between (s.catalog.size + 1) s₁.catalog.size) =>
        hcomplete₁.known hspaced₁ (TypeId.lt_of_mem_between hid)
    obtain ⟨vs, hws, hys⟩ := ih hs₁ hcomplete₁ (hc.right hd.grows.size)
      (Nat.le_trans hdepth (Nat.add_le_add_right hd.grows.size _)) hspaced
    refine ⟨v :: known ++ vs, ?_, ?_⟩
    · rw [← TypeId.between_append (Nat.le_of_lt hlt) hle, TypeId.between_eq_cons hlt]
      refine writes_typeDocuments_append ?_ hws
      exact hw.bind (hwk.bind .pure)
    · exact yields_readTypes_append (yields_readTypes_cons hy hyk) hys

end

end Avroc
