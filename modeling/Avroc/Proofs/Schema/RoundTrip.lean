import Avroc.Proofs.Schema.Reading
import Avroc.Proofs.Schema.Reread

/-!
# The round trip of a schema

The document of a type that was read is read again, and gives a type of the same document, over the
same named types in the same order.

* `Lays.reaches` : a type reaches exactly the named types that it was laid with.
* `readSchema_document` : the round trip.
-/

namespace Avroc

variable {c : Catalog} {seen : List TypeId} {depth : Nat} {s : Scope} {id : TypeId} {t : Schema}

/-! ### Reaching all that was laid -/

namespace Catalog

theorem enter_of_mem (h : id ∈ seen) : c.enter depth id seen = seen := by
  rw [enter.eq_def]
  simp [h]

theorem enter_zero (h : id ∉ seen) : c.enter 0 id seen = seen ++ [id] := by
  rw [enter.eq_def]
  simp [h]

theorem enter_of_notMem (h : id ∉ seen) : c.enter (depth + 1) id seen =
      (c.definition id).body.fields.foldl
        (fun seen field => field.type.reachWith (c.enter depth) seen) (seen ++ [id]) := by
  rw [enter.eq_def]
  simp [h]

end Catalog

/-- From the types of the first state, the piece reaches those of the second. -/
def Piece.Reaches (c : Catalog) (depth : Nat) (s s' : Scope) : Piece → Prop
  | .type t => t.reachWith (c.enter depth) (TypeId.upTo s.catalog.size) =
    TypeId.upTo s'.catalog.size
  | .branches ts =>
    Schema.reachBranches (c.enter depth) ts (TypeId.upTo s.catalog.size) =
      TypeId.upTo s'.catalog.size
  | .fields _ fs =>
    fs.foldl (fun seen field => field.type.reachWith (c.enter depth) seen)
      (TypeId.upTo s.catalog.size) = TypeId.upTo s'.catalog.size

/-- **A piece reaches exactly the types that it was laid with**, in the order in which they were
entered. -/
theorem Lays.reaches {s' : Scope} {p : Piece} (h : Lays s p s') (hs : s.Sound) (hc : c.Covers s s')
    (hdepth : s'.catalog.size ≤ s.catalog.size + depth) (hp : p.TargetBelow s.catalog.size) :
    p.Reaches c depth s s' := by
  induction h generalizing depth with
  | primitive | noBranch | noField => rfl
  | array _ _ ih | map _ _ ih | union _ _ ih => exact ih hs hc hdepth trivial
  | @known s id hid _ =>
    exact Catalog.enter_of_mem (TypeId.mem_upTo.mpr (hs.get? _ id hid).1)
  | @leaf s d _ _ hb =>
    obtain ⟨depth, rfl⟩ : ∃ n, depth = n + 1 := ⟨depth - 1, by simp at hdepth; omega⟩
    have hfields := Body.fields_eq_nil hb
    show c.enter (depth + 1) ⟨s.catalog.size⟩ _ = _
    rw [Catalog.enter_of_notMem (by simp), hc.definition_leaf, hfields, Scope.size_enter,
      TypeId.upTo_succ]
    rfl
  | @record s s' d isError fs hd hnew hb h ih =>
    have hlt : s.catalog.size < s'.catalog.size := Nat.lt_of_lt_of_le (by simp) h.grows.size
    obtain ⟨depth, rfl⟩ : ∃ n, depth = n + 1 := ⟨depth - 1, by omega⟩
    have hreach := ih (hs.enter hnew (by rw [hb]; rfl) hd.space_ne_empty) (hc.right (by simp))
      (show s'.catalog.size ≤ (s.enter d).catalog.size + depth by simp; omega)
      (by simp [Piece.TargetBelow])
    show c.enter (depth + 1) ⟨s.catalog.size⟩ _ = _
    rw [Catalog.enter_of_notMem (by simp), hc.definition_record hb h, ← TypeId.upTo_succ]
    rwa [Piece.Reaches, Scope.size_enter] at hreach
  | @branch s s₁ s' t ts h h' ih ih' =>
    have hle := h.grows.size
    have hle' := h'.grows.size
    have ht := ih hs (hc.branch h') (Nat.le_trans hle' hdepth) trivial
    have hts := ih' (h.sound hs).1 (hc.right hle)
      (show s'.catalog.size ≤ s₁.catalog.size + depth by omega) trivial
    show Schema.reachBranches _ ts (t.reachWith _ _) = _
    rw [show t.reachWith (c.enter depth) _ = _ from ht]
    exact hts
  | @field s s₁ s' id f fs h hf hnew h' ih ih' =>
    have hle := h.grows.size
    have hle' : s₁.catalog.size ≤ s'.catalog.size := by simpa using h'.grows.size
    obtain ⟨hs₁, hwithin⟩ := h.sound hs
    have ht := ih hs (hc.field hp h') (Nat.le_trans hle' hdepth) trivial
    have hfs := ih' (hs₁.extend id hwithin) (hc.right (by simpa using hle))
      (show s'.catalog.size ≤ (s₁.extend id f).catalog.size + depth by simp; omega)
      (by simpa [Piece.TargetBelow] using Nat.lt_of_lt_of_le hp hle)
    show fs.foldl _ (f.type.reachWith _ _) = _
    rw [show f.type.reachWith (c.enter depth) _ = _ from ht]
    simpa [Piece.Reaches] using hfs

/-! ### The round trip -/

/-- The catalog of the last state covers all that was laid since the first. -/
theorem Catalog.covers_self (s s' : Scope) : s'.catalog.Covers s s' :=
  ⟨Nat.le_refl _, fun _ _ => rfl, fun _ _ _ => rfl⟩

/-- A type that was laid from nothing reaches all that has been laid. -/
theorem Lays.reachable_eq (h : Lays (.initial true true) (.type t) s) :
    t.reachable s.catalog = TypeId.upTo s.catalog.size :=
  h.reaches Scope.sound_initial (Catalog.covers_self _ s) (Nat.le_add_left _ _) trivial

/-- **A type that was laid from nothing has a document that is read again**, if no type with a
namespace names one without. -/
theorem Lays.document_reread (h : Lays (.initial true true) (.type t) s)
    (hnests : s.catalog.Nests) : ∃ document, t.document s.catalog = .ok document ∧
      Yields (readSchema document .root) (.initial true true) t.tidy s.tidy := by
  have hplace : t.Over (s.catalog.Places .root) := Schema.Alike.refl (fun _ => ⟨rfl, .inl rfl⟩) t
  obtain ⟨document, hw, hy⟩ := h.rereads Scope.sound_initial (Catalog.covers_self _ s)
    (Nat.le_add_left s.catalog.size _) hnests hplace trivial
  exact ⟨document, hw.run', hy⟩

/-- A type and its tidy form reach the same full names. -/
theorem Schema.names_reachable_tidy (t : Schema) (s : Scope) :
    (t.tidy.reachable s.tidy.catalog).map s.tidy.catalog.fullName =
      (t.reachable s.catalog).map s.catalog.fullName := by
  rw [Scope.catalog_tidy, ← Schema.reachable_alike s.catalog.alike_tidy (Catalog.size_tidy _).symm
    t.alike_tidy]
  exact List.map_congr_left fun id _ => Catalog.fullName_tidy s.catalog id

/-- **The round trip of a schema.**  A type is read in an empty registry with all checks, and either
every named type that it reaches has a namespace or none has.  Then it has a document, and reading
the document in a second empty registry succeeds, gives a type with the same document that reaches
the same full names in the same order, and leaves the same names in the registry. -/
theorem readSchema_document {v : Json} {t : Schema} {s : Scope}
    (h : Yields (readSchema v .root) (.initial true true) t s)
    (hspace : (∀ id ∈ t.reachable s.catalog, (s.catalog.definition id).space ≠ none) ∨
      ∀ id ∈ t.reachable s.catalog, (s.catalog.definition id).space = none) :
    ∃ document t' s', t.document s.catalog = .ok document ∧
      Yields (readSchema document .root) (.initial true true) t' s' ∧
      t'.document s'.catalog = .ok document ∧
      (t'.reachable s'.catalog).map s'.catalog.fullName =
        (t.reachable s.catalog).map s.catalog.fullName ∧
      s'.registry.names = s.registry.names := by
  have hlays := lays_of_readSchema Scope.sound_initial h
  obtain ⟨hs, hwithin⟩ := hlays.sound Scope.sound_initial
  have hplace : s.catalog.Placed .root := by
    simp only [hlays.reachable_eq, TypeId.mem_upTo] at hspace
    exact hspace.imp (fun hall id hid => hs.spaced hid (hall id hid)) fun hnone => ⟨rfl, hnone⟩
  obtain ⟨document, hdocument, hy⟩ := hlays.document_reread hplace.nests
  have hsame : t.document s.catalog = t.tidy.document s.tidy.catalog :=
    Schema.document_alike hs.closed.alike_tidy
      (fun a b hab => ⟨hab.2, by rw [Catalog.size_tidy, ← hab.1]; exact hab.2⟩)
      (Schema.Alike.tidy_right hwithin)
  exact ⟨document, t.tidy, s.tidy, hdocument, hy, hsame ▸ hdocument, t.names_reachable_tidy s, rfl⟩

/-- The definition of a list whose cells refer to their own type. -/
def listDocument : Json :=
  .object [("type", .string "record"), ("name", .string "data.Cell"), ("doc", .string ""),
    ("fields", .array [
      .object [("name", .string "next"), ("type", .array [.string "null", .string "Cell"]),
        ("default", .null), ("order", .string "ascending")]])]

theorem readSchema_document_list :
    ∃ t s, Yields (readSchema listDocument .root) (.initial true true) t s ∧
      t.reachable s.catalog ≠ [] ∧
      (∀ id ∈ t.reachable s.catalog, (s.catalog.definition id).space ≠ none) ∧
      ∃ document t' s', t.document s.catalog = .ok document ∧
        Yields (readSchema document .root) (.initial true true) t' s' ∧
        t'.document s'.catalog = .ok document ∧
        (t'.reachable s'.catalog).map s'.catalog.fullName =
          (t.reachable s.catalog).map s.catalog.fullName ∧
        s'.registry.names = s.registry.names := by
  have hrun : succeeds (readSchema listDocument .root) (.initial true true) (fun t s =>
      !(t.reachable s.catalog).isEmpty &&
        (t.reachable s.catalog).all fun id => (s.catalog.definition id).space.isSome) = true := by
    decide +kernel
  obtain ⟨t, s, h, htest⟩ := exists_of_succeeds _ _ _ hrun
  simp only [Bool.and_eq_true, Bool.not_eq_true', List.isEmpty_eq_false_iff, List.all_eq_true,
    Option.isSome_iff_ne_none] at htest
  exact ⟨t, s, h, htest.1, htest.2, readSchema_document h (.inl htest.2)⟩

end Avroc
