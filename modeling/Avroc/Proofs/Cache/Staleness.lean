import Avroc.Cache.Incremental
import Avroc.Proofs.Cache.Stored

/-!
# Records that hold

The stamps that a compilation takes, and the test that it is not needed again, agree: a record with
the stamps of the inputs holds as long as the inputs have these stamps and its modules are there.

* `stampInputs_eq_ok` : **the stamps that a compilation takes.**
* `Cache.staleness_of_fits` : **a record of these stamps holds.**
-/

namespace Avroc

open List

variable {stamp v : Json} {keyed : List (String × Path)} {key : String} {x : String × Path}
  {e : CacheEntry}

variable {d d' : Disk} {strategy : CacheStrategy} {inputs : List Path} {path : Path}

/-! ### Stamps of files -/

/-- The stamp of a file that can be stamped. -/
def stampOf (d : Disk) (strategy : CacheStrategy) (path : Path) : Json :=
  match fileStamp d strategy path with
  | .ok stamp => stamp
  | .error _ => .null

theorem stampOf_eq (h : fileStamp d strategy path = .ok stamp) :
    stampOf d strategy path = stamp := by
  rw [stampOf, h]

/-- The content and the time of a file give its stamp. -/
theorem fileStamp_of_locate {place : List String} {content : Content} {time : Int}
    (hl : d.locate path = .ok place) (hk : d.root.kind? place = some (.file content time)) :
    fileStamp d strategy path = .ok (match strategy with
      | .hash => .string (Digest.sha256Hex content.toBytes)
      | .lastModified => .int time) := by
  cases strategy with
  | hash =>
    have hr := Disk.readContent_eq_ok.mpr ⟨place, time, hl, hk⟩
    simp only [fileStamp, hr, bind, Except.bind]
    rfl
  | lastModified =>
    obtain ⟨node, hn, hkind⟩ := Option.map_eq_some_iff.mp hk
    cases node with
    | directory entries age => cases hkind
    | file content' time' =>
      cases hkind
      simp only [fileStamp, Disk.node, hl, hn, bind, Except.bind]
      rfl

theorem fileStamp_congr (h : d'.node path = d.node path) (strategy : CacheStrategy) :
    fileStamp d' strategy path = fileStamp d strategy path := by
  cases strategy with
  | hash => rw [fileStamp, fileStamp, Disk.readContent, Disk.readContent, h]
  | lastModified => rw [fileStamp, fileStamp, h]

/-- The time of what is at the path, if anything is, has not too many digits to be recorded. -/
def Disk.Dated (d : Disk) (path : Path) : Prop :=
  ∀ node, d.node path = .ok node → node.time.natAbs < Nat.pow 10 maxDigits

/-- A stamp is the digest of a content or the time of a file. -/
theorem fileStamp_cases (h : fileStamp d strategy path = .ok stamp) :
    (strategy = .hash ∧ ∃ digest, stamp = .string digest) ∨
      strategy = .lastModified ∧ ∃ node, d.node path = .ok node ∧ stamp = .int node.time := by
  cases strategy with
  | hash =>
    rw [fileStamp] at h
    cases hr : d.readContent path with
    | error fault => rw [hr] at h; cases h
    | ok content =>
      rw [hr] at h
      cases h
      exact .inl ⟨rfl, _, rfl⟩
  | lastModified =>
    rw [fileStamp] at h
    cases hn : d.node path with
    | error problem => rw [hn] at h; cases h
    | ok node =>
      rw [hn] at h
      cases h
      exact .inr ⟨rfl, node, rfl, rfl⟩

theorem isStamp_of_fileStamp (hdated : d.Dated path) (h : fileStamp d strategy path = .ok stamp) :
    IsStamp stamp := by
  rcases fileStamp_cases h with ⟨-, digest, rfl⟩ | ⟨-, node, hn, rfl⟩
  · exact .digest digest
  · exact .time (hdated node hn)

/-- A stamp holds when it is recorded. -/
theorem stampHolds_self (h : fileStamp d strategy path = .ok stamp) :
    stampHolds strategy stamp stamp = true := by
  rcases fileStamp_cases h with ⟨rfl, digest, rfl⟩ | ⟨rfl, node, -, rfl⟩
  · simp [stampHolds]
  · simp [stampHolds, Json.wholeNumber?]

/-! ### Inputs by their keys -/

theorem sameKey_string : sameKey v (.string key) = true ↔ v = .string key := by
  have hnumber : (Json.string key).numberValue? = none := rfl
  rw [sameKey, hnumber]
  cases v.numberValue? <;> simp

theorem keyedInputs_eq (d : Disk) (inputs : List Path) :
    keyedInputs d inputs = inputs.foldl (fun keyed p => putKey (d.key p) p keyed) [] := by
  have hset : ∀ key path keyed, keyedInputs.setKeyed key path keyed = putKey key path keyed := by
    intro key path keyed
    induction keyed with
    | nil => rfl
    | cons y keyed ih => rw [keyedInputs.setKeyed, putKey, ih]
  simp only [keyedInputs, hset]

/-- Stamps are set as what they are made from. -/
theorem setPair_map {β : Type} (stamp : β → Json) (key : String) (b : β)
    (keyed : List (String × β)) :
    setPair (.string key) (stamp b) (keyed.map fun x => (.string x.1, stamp x.2)) =
      (putKey key b keyed).map fun x => (.string x.1, stamp x.2) := by
  induction keyed with
  | nil => rfl
  | cons y keyed ih =>
    rw [map_cons, setPair, putKey, ih]
    by_cases hk : y.1 = key
    · rw [if_pos (sameKey_string.mpr (by rw [hk])), if_pos hk]
      rfl
    · rw [if_neg (fun hs => hk (Json.string.inj (sameKey_string.mp hs))), if_neg hk]
      rfl

/-- The inputs are kept each under its own key, and no key twice. -/
theorem keyedInputs_spec (d : Disk) (inputs : List Path) :
    ((keyedInputs d inputs).map (·.1)).Nodup ∧
      ∀ x ∈ keyedInputs d inputs, x.2 ∈ inputs ∧ x.1 = d.key x.2 := by
  have hfold : ∀ (rest : List Path) (keyed : List (String × Path)), (keyed.map (·.1)).Nodup →
      (∀ x ∈ keyed, x.2 ∈ inputs ∧ x.1 = d.key x.2) → (∀ p ∈ rest, p ∈ inputs) →
      let all := rest.foldl (fun keyed p => putKey (d.key p) p keyed) keyed
      (all.map (·.1)).Nodup ∧ ∀ x ∈ all, x.2 ∈ inputs ∧ x.1 = d.key x.2 := by
    intro rest
    induction rest with
    | nil => exact fun keyed hn hk _ => ⟨hn, hk⟩
    | cons p rest ih =>
      intro keyed hn hk hrest
      rw [forall_mem_cons] at hrest
      refine ih _ (nodup_putKey hn) (fun x hx => ?_) hrest.2
      rcases mem_putKey hx with rfl | hx
      · exact ⟨hrest.1, rfl⟩
      · exact hk x hx
  rw [keyedInputs_eq]
  exact hfold inputs [] nodup_nil (forall_mem_nil _) fun _ h => h

/-- No input is left out. -/
theorem exists_keyedInputs {p : Path} (d : Disk) (hp : p ∈ inputs) :
    ∃ x ∈ keyedInputs d inputs, x.1 = d.key p := by
  have hfold : ∀ (rest : List Path) (keyed : List (String × Path)),
      (p ∈ rest ∨ d.key p ∈ keyed.map (·.1)) →
      d.key p ∈ (rest.foldl (fun keyed p => putKey (d.key p) p keyed) keyed).map (·.1) := by
    intro rest
    induction rest with
    | nil => exact fun keyed h => h.resolve_left not_mem_nil
    | cons q rest ih =>
      intro keyed h
      refine ih _ ?_
      rcases h with h | h
      · rcases mem_cons.mp h with rfl | h
        · exact .inr (mem_keys_putKey.mpr (.inl rfl))
        · exact .inl h
      · exact .inr (mem_keys_putKey.mpr (.inr h))
  rw [keyedInputs_eq, ← mem_map]
  exact hfold inputs [] (.inl hp)

theorem keyedInputs_congr (h : d'.working = d.working) (inputs : List Path) :
    keyedInputs d' inputs = keyedInputs d inputs := by
  simp only [keyedInputs, Disk.key, Disk.resolve, h]

/-! ### Stamps of inputs -/

/-- The stamps of the inputs, by their keys. -/
def inputStamps (d : Disk) (strategy : CacheStrategy) (inputs : List Path) : List (String × Json) :=
  (keyedInputs d inputs).map fun x => (x.1, stampOf d strategy x.2)

theorem nodup_inputStamps (d : Disk) (strategy : CacheStrategy) (inputs : List Path) :
    ((inputStamps d strategy inputs).map (·.1)).Nodup := by
  rw [inputStamps, map_map]
  exact (keyedInputs_spec d inputs).1

theorem inputStamps_congr (hworking : d'.working = d.working)
    (h : ∀ p ∈ inputs, fileStamp d' strategy p = fileStamp d strategy p) :
    inputStamps d' strategy inputs = inputStamps d strategy inputs := by
  rw [inputStamps, inputStamps, keyedInputs_congr hworking]
  refine map_congr_left fun x hx => ?_
  rw [stampOf, stampOf, h x.2 ((keyedInputs_spec d inputs).2 x hx).1]

/-- **The stamps that a compilation takes** are those of the inputs, if each can be stamped. -/
theorem stampInputs_eq_ok {stamps : List (Json × Json)} :
    stampInputs d strategy inputs = .ok stamps ↔
      (∀ p ∈ inputs, ∃ stamp, fileStamp d strategy p = .ok stamp) ∧
        stamps = (inputStamps d strategy inputs).map fun x => (.string x.1, x.2) := by
  have hfold : ∀ (rest : List Path) (keyed : List (String × Path)) (stamps : List (Json × Json)),
      rest.foldlM (fun stamps p =>
        match fileStamp d strategy p with
        | .ok stamp => Except.ok (setPair (.string (d.key p)) stamp stamps)
        | .error fault => .error (Error.file (.unstampedInput fault) (some p)))
        (keyed.map fun x => (.string x.1, stampOf d strategy x.2)) = .ok stamps ↔
      (∀ p ∈ rest, ∃ stamp, fileStamp d strategy p = .ok stamp) ∧
        stamps = (rest.foldl (fun keyed p => putKey (d.key p) p keyed) keyed).map
          fun x => (.string x.1, stampOf d strategy x.2) := by
    intro rest
    induction rest with
    | nil =>
      intro keyed stamps
      simp [pure, Except.pure, eq_comm]
    | cons p rest ih =>
      intro keyed stamps
      rw [foldlM_cons, foldl_cons, forall_mem_cons]
      cases hp : fileStamp d strategy p with
      | error fault => simp [bind, Except.bind]
      | ok stamp =>
        have hset := setPair_map (stampOf d strategy) (d.key p) p keyed
        rw [stampOf_eq hp] at hset
        simp only [bind, Except.bind, hset]
        rw [ih]
        simp
  rw [stampInputs, inputStamps, keyedInputs_eq, map_map]
  exact hfold inputs [] stamps

/-- The stamp that is found under a key is one that is recorded there. -/
theorem recordedStamp_mem {recorded : List (Json × Json)} (h : (.string key, v) ∈ recorded) :
    (.string key, recordedStamp recorded key) ∈ recorded := by
  rw [recordedStamp]
  cases hf : recorded.find? fun y => sameKey y.1 (.string key) with
  | none => exact absurd (sameKey_string.mpr rfl) (find?_eq_none.mp hf _ h)
  | some y =>
    have hsame := find?_some hf
    have hkey : y.1 = .string key := sameKey_string.mp hsame
    have hmem := mem_of_find?_eq_some hf
    rw [← hkey]
    exact hmem

namespace Cache

variable {cache : Cache}

/-! ### Records that hold -/

/-- The record has the stamps of the inputs, in any order, and its modules are there. -/
structure Fits (cache : Cache) (d : Disk) (inputs : List Path) (e : CacheEntry) : Prop where
  strategy : e.strategy = cache.strategy
  stamped : ∀ p ∈ inputs, ∃ stamp, fileStamp d cache.strategy p = .ok stamp
  inputs : e.inputs.Perm ((inputStamps d cache.strategy inputs).map fun x => (.string x.1, x.2))
  outputs : ∃ texts : List String, e.outputs = texts.map .string ∧
    ∀ s ∈ texts, d.contains (.ofString s) = true

namespace Fits

section
variable (h : cache.Fits d inputs e)
include h

theorem mem_inputs (hx : x ∈ keyedInputs d inputs) :
    (.string x.1, stampOf d cache.strategy x.2) ∈ e.inputs :=
  h.inputs.mem_iff.mpr (mem_map_of_mem (mem_map_of_mem hx))

theorem sameInputs :
    sameInputs (keyedInputs d inputs) e.inputs = true := by
  rw [Avroc.sameInputs, Bool.and_eq_true, decide_eq_true_eq, h.inputs.length_eq, length_map,
    inputStamps, length_map, all_eq_true]
  refine ⟨rfl, fun x hx => any_eq_true.mpr ⟨_, h.mem_inputs hx, ?_⟩⟩
  exact sameKey_string.mpr rfl

/-- Under the key of an input the record has its stamp. -/
theorem recordedStamp (hx : x ∈ keyedInputs d inputs) :
    recordedStamp e.inputs x.1 = stampOf d cache.strategy x.2 := by
  have hkeys : (e.inputs.map (·.1)).Nodup := by
    rw [(h.inputs.map _).nodup_iff, map_map]
    have hinj : (((inputStamps d cache.strategy inputs).map (·.1)).map Json.string).Nodup :=
      List.Pairwise.map Json.string (fun _ _ hne he => hne (Json.string.inj he))
        (nodup_inputStamps d cache.strategy inputs)
    rwa [map_map] at hinj
  have hfound := lookup_eq_some_of_mem hkeys (recordedStamp_mem (h.mem_inputs hx))
  rw [lookup_eq_some_of_mem hkeys (h.mem_inputs hx)] at hfound
  exact (Option.some.inj hfound).symm

theorem missingOutput? : missingOutput? d e.outputs = .ok none := by
  obtain ⟨texts, htexts, hthere⟩ := h.outputs
  rw [htexts]
  clear htexts h
  induction texts with
  | nil => rfl
  | cons s texts ih =>
    rw [forall_mem_cons] at hthere
    simp only [map_cons, Avroc.missingOutput?, pathOf, bind, Except.bind, hthere.1, if_true]
    exact ih hthere.2

end

end Fits

/-- **A record that fits holds.** -/
theorem staleness_of_fits (h : cache.Fits d inputs e) :
    cache.staleness d (some e) inputs = .ok none := by
  have hstale : ((keyedInputs d inputs).findSome? fun x =>
      inputStaleness d cache.strategy (recordedStamp e.inputs x.1) x.2) = none := by
    refine findSome?_eq_none_iff.mpr fun x hx => ?_
    obtain ⟨stamp, hstamp⟩ := h.stamped x.2 ((keyedInputs_spec d inputs).2 x hx).1
    rw [h.recordedStamp hx, stampOf_eq hstamp]
    simp only [inputStaleness, hstamp, stampHolds_self hstamp, if_true]
  simp only [staleness, h.strategy, ne_eq, not_true_eq_false, if_false, h.sameInputs, Bool.not_true,
    Bool.false_eq_true]
  rw [hstale]
  exact h.missingOutput?

/-- A record that holds has the inputs, and each of them holds. -/
theorem inputs_of_staleness (h : cache.staleness d (some e) inputs = .ok none) :
    sameInputs (keyedInputs d inputs) e.inputs = true ∧ ∀ x ∈ keyedInputs d inputs,
      inputStaleness d cache.strategy (recordedStamp e.inputs x.1) x.2 = none := by
  rw [staleness] at h
  dsimp only at h
  split at h
  · cases h
  · split at h
    · cases h
    · rename_i hsame
      split at h
      · cases h
      · rename_i hnone
        exact ⟨by simpa using hsame, fun x hx => findSome?_eq_none_iff.mp hnone x hx⟩

/-- **Whether a record holds can be told**, whatever the files are. -/
theorem exists_staleness (he : e.Storable) (d : Disk) (inputs : List Path) :
    ∃ reason, cache.staleness d (some e) inputs = .ok reason := by
  obtain ⟨source, stamps, outputs, written, heq, -, -⟩ := he
  have hmissing : ∃ reason, missingOutput? d e.outputs = .ok reason := by
    rw [heq, CacheEntry.of]
    clear heq
    induction outputs with
    | nil => exact ⟨none, rfl⟩
    | cons s outputs ih =>
      obtain ⟨reason, hr⟩ := ih
      simp only [map_cons, missingOutput?, pathOf, bind, Except.bind]
      split
      · exact ⟨reason, hr⟩
      · exact ⟨_, rfl⟩
  rw [staleness]
  dsimp only
  split
  · exact ⟨_, rfl⟩
  · split
    · exact ⟨_, rfl⟩
    · split
      · exact ⟨_, rfl⟩
      · exact hmissing

end Cache

end Avroc
