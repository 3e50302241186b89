import Avroc.Cache.Store
import Avroc.Proofs.File.Modules
import Avroc.Proofs.Json.Text

/-!
# Records are read back

A record that is stored is read back as it was, but for the order of its inputs.

* `Cache.readEntry_text` : **a record is read back from its text.**
-/

namespace Avroc

open List

variable {v : Json} {source : String} {strategy : CacheStrategy} {outputs written : List String}

/-! ### Members in order -/

namespace Text

variable {α : Type}

theorem perm_insertInOrder (key : α → String) (x : α) (l : List α) :
    (insertInOrder key x l).Perm (x :: l) := by
  induction l with
  | nil => exact .refl _
  | cons y rest ih =>
    rw [insertInOrder]
    split
    · exact .refl _
    · exact (ih.cons y).trans (.swap x y rest)

theorem perm_inOrder (key : α → String) (l : List α) : (inOrder key l).Perm l := by
  induction l with
  | nil => exact .refl _
  | cons x rest ih => exact (perm_insertInOrder key x _).trans (ih.cons x)

@[simp] theorem mem_inOrder {key : α → String} {l : List α} {x : α} : x ∈ inOrder key l ↔ x ∈ l :=
  (perm_inOrder key l).mem_iff

end Text

namespace Json

theorem sortedItems_eq (items : List Json) : sortedItems items = items.map sorted := by
  induction items with
  | nil => rfl
  | cons v items ih => rw [sortedItems, ih, map_cons]

theorem sortedMembers_eq (members : List (String × Json)) :
    sortedMembers members = members.map fun m => (m.1, m.2.sorted) := by
  induction members with
  | nil => rfl
  | cons m members ih => rw [sortedMembers, ih, map_cons]

/-- The members of an object in order are the sorted members, in some order. -/
theorem exists_sorted_object (members : List (String × Json)) : ∃ members',
    (object members).sorted = object members' ∧
      members'.Perm (members.map fun m => (m.1, m.2.sorted)) := by
  refine ⟨_, rfl, ?_⟩
  rw [sortedMembers_eq]
  exact Text.perm_inOrder _ _

theorem sorted_strings (texts : List String) :
    (array (texts.map string)).sorted = array (texts.map string) := by
  rw [sorted, sortedItems_eq, map_map]
  rfl

theorem legible_strings (texts : List String) : Legible (array (texts.map string)) :=
  .array (forall_mem_map.mpr fun s _ => .string s)

end Json

/-! ### Stamps -/

/-- A stamp that a record can hold: a digest, or a time of not too many digits. -/
inductive IsStamp : Json → Prop
  | digest (s : String) : IsStamp (.string s)
  | time {n : Int} (h : n.natAbs < Nat.pow 10 maxDigits) : IsStamp (.int n)

namespace IsStamp

theorem sorted_eq (h : IsStamp v) : v.sorted = v := by
  cases h <;> rfl

theorem legible (h : IsStamp v) : v.Legible := by
  cases h with
  | digest s => exact .string s
  | time h => exact .int h

end IsStamp

/-! ### Entries -/

/-- The record with stamps and modules given as texts. -/
def CacheEntry.of (source : String) (strategy : CacheStrategy) (stamps : List (String × Json))
    (outputs written : List String) : CacheEntry where
  sourceDir := .string source
  strategy := strategy
  inputs := stamps.map fun x => (.string x.1, x.2)
  outputs := outputs.map .string
  written := written.map .string

theorem CacheStrategy.ofJson_name (strategy : CacheStrategy) :
    CacheStrategy.ofJson (.string strategy.name) = .ok strategy := by
  cases strategy <;> rfl

/-- What a record holds, read from an object with its members. -/
theorem CacheEntry.ofJson_eq {members : Members} {stamps : List (String × Json)}
    (hsource : members.get? "source_dir" = some (.string source))
    (hstrategy : members.get? "strategy" = some (.string strategy.name))
    (hinputs : members.get? "inputs" = some (.object stamps))
    (houtputs : members.get? "outputs" = some (.array (outputs.map .string)))
    (hwritten : members.get? "written" = some (.array (written.map .string))) :
    CacheEntry.ofJson (.object members) = .ok (.of source strategy stamps outputs written) := by
  simp only [CacheEntry.ofJson, member, hsource, hstrategy, hinputs, houtputs, hwritten,
    Option.getD_some, readPairs, readList, Json.elements?, orWrong, bind, Except.bind, pure,
    Except.pure, CacheStrategy.ofJson_name]
  rfl

/-- The members of the document of a record, each in order in itself. -/
def CacheEntry.memberList (source : String) (strategy : CacheStrategy)
    (stamps : List (String × Json)) (outputs written : List String) : Members :=
  [("version", .int cacheVersion), ("source_dir", .string source),
   ("strategy", .string strategy.name), ("inputs", .object stamps),
   ("outputs", .array (outputs.map .string)), ("written", .array (written.map .string))]

theorem CacheEntry.nodup_memberList (source : String) (strategy : CacheStrategy)
    (stamps : List (String × Json)) (outputs written : List String) :
    ((memberList source strategy stamps outputs written).map (·.1)).Nodup :=
  (by decide : ["version", "source_dir", "strategy", "inputs", "outputs", "written"].Nodup)

/-- The document of a record in order: its members, and in `inputs` the stamps, in some order. -/
theorem CacheEntry.exists_sorted_document (source : String) (strategy : CacheStrategy)
    {stamps : List (String × Json)} (hstamps : ∀ x ∈ stamps, IsStamp x.2)
    (outputs written : List String) : ∃ stamps' members, stamps'.Perm stamps ∧
      members.Perm (memberList source strategy stamps' outputs written) ∧
      (CacheEntry.of source strategy stamps outputs written).document.sorted =
        .object members := by
  obtain ⟨stamps', hsorted, hperm⟩ := Json.exists_sorted_object stamps
  have hself : stamps.map (fun m => (m.1, m.2.sorted)) = stamps :=
    (map_congr_left fun m hm => by
      rw [(hstamps m hm).sorted_eq, id]).trans (map_id stamps)
  obtain ⟨members, hmembers, hmperm⟩ :=
    Json.exists_sorted_object (memberList source strategy stamps outputs written)
  refine ⟨stamps', members, hself ▸ hperm, ?_, ?_⟩
  · refine hmperm.trans (.of_eq ?_)
    simp only [memberList, map_cons, map_nil, hsorted, Json.sorted_strings]
    rfl
  · rw [← hmembers]
    simp [document, CacheEntry.of, memberList, keyText, Function.comp_def]

namespace Cache

variable {d : Disk} {path : Path} {stamps : List (String × Json)}

/-- **A record is read back from its text**, its inputs in some order. -/
theorem readEntry_text (hkeys : (stamps.map (·.1)).Nodup) (hstamps : ∀ x ∈ stamps, IsStamp x.2)
    (h : d.readContent path =
      .ok (.text (CacheEntry.of source strategy stamps outputs written).text)) :
    ∃ stamps', stamps'.Perm stamps ∧
      readEntry d path = .ok (some (.of source strategy stamps' outputs written)) := by
  obtain ⟨stamps', members, hperm, hmembers, hdocument⟩ :=
    CacheEntry.exists_sorted_document source strategy hstamps outputs written
  have hnd : (members.map (·.1)).Nodup :=
    (hmembers.map _).nodup_iff.mpr (CacheEntry.nodup_memberList _ _ _ _ _)
  have hget : ∀ {key v}, (key, v) ∈ CacheEntry.memberList source strategy stamps' outputs written →
      Members.get? members key = some v :=
    fun hm => lookup_eq_some_of_mem hnd (hmembers.mem_iff.mpr hm)
  have hlegible : (Json.object members).Legible := by
    have hinputs : (Json.object stamps').Legible :=
      .object ((hperm.map _).nodup_iff.mpr hkeys)
        fun m hm => (hstamps m (hperm.mem_iff.mp hm)).legible
    have hversion : (Json.int cacheVersion).Legible :=
      .int (Json.lt_pow_of_lt_ten (by decide) (by decide))
    refine .object hnd fun m hm => ?_
    have hm' := hmembers.mem_iff.mp hm
    simp only [CacheEntry.memberList, mem_cons, not_mem_nil, or_false] at hm'
    rcases hm' with rfl | rfl | rfl | rfl | rfl | rfl
    · exact hversion
    · exact .string _
    · exact .string _
    · exact hinputs
    · exact Json.legible_strings outputs
    · exact Json.legible_strings written
  rw [CacheEntry.text, hdocument] at h
  have htext : d.readText path = .ok (Json.object members).renderIndented := by
    refine Disk.readText_eq_ok.mpr ⟨_, h, _, rfl, ?_⟩
    rw [Json.renderIndented, Text.unifyNewlines_of_notMem (Json.cr_notMem_renderAt hlegible 0),
      String.ofList_toList]
  refine ⟨stamps', hperm, ?_⟩
  rw [readEntry, htext]
  simp only [readJson, Json.parse_renderIndented hlegible, bind, Except.bind, pure, Except.pure]
  have hversion : Members.get? members "version" = some (.int cacheVersion) :=
    hget (by simp [CacheEntry.memberList])
  have hentry : CacheEntry.ofJson (.object members) =
      .ok (.of source strategy stamps' outputs written) :=
    CacheEntry.ofJson_eq (hget (by simp [CacheEntry.memberList]))
      (hget (by simp [CacheEntry.memberList])) (hget (by simp [CacheEntry.memberList]))
      (hget (by simp [CacheEntry.memberList])) (hget (by simp [CacheEntry.memberList]))
  rw [hversion, hentry]
  rfl

end Cache

end Avroc
