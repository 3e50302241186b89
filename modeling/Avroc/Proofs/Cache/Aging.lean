import Avroc.Proofs.Cache.Progress

/-!
# Inputs that age

Inputs are edited in place, and every edit gives its file a later time.  So a file that has the
time of its stamp, or an earlier one, is as it was when it was stamped.

* `Cache.Stamped.readContent` : **an input that holds has the content that was read** after it was
  stamped.
-/

namespace Avroc

open List

variable {p : Path} {old content : Content} {age time : Int} {seen : List Disk} {inputs : List Path}
  {d d' : Disk}

/-! ### Edits -/

namespace Disk

/-- One of the inputs has been edited in place, and its time is later than before. -/
def Edited (inputs : List Path) (d d' : Disk) : Prop :=
  d'.working = d.working ∧ ∃ p ∈ inputs, ∃ old age content time,
    d.root.kind? (d.resolve p).parts = some (.file old age) ∧
    d'.root.kind? (d.resolve p).parts = some (.file content time) ∧
    age < time ∧ time.natAbs < Nat.pow 10 maxDigits ∧
    ∀ q, q ≠ (d.resolve p).parts → d'.root.kind? q = d.root.kind? q

/-- From the first disk to the second, the directories have stayed, and each input is the same file
or has a later time. -/
structure Ages (inputs : List Path) (d d' : Disk) : Prop where
  working : d'.working = d.working
  directory : ∀ q, d.root.kind? q = some .directory → d'.root.kind? q = some .directory
  input : ∀ p ∈ inputs, ∀ old age, d.root.kind? (d.resolve p).parts = some (.file old age) →
    ∃ content time, d'.root.kind? (d.resolve p).parts = some (.file content time) ∧
      (content = old ∧ time = age ∨ age < time ∧ time.natAbs < Nat.pow 10 maxDigits)

variable {d₁ : Disk}

/-- A file that is put in place of an input, with a later time, is an edit. -/
theorem edited_set (hp : p ∈ inputs)
    (hold : d.root.kind? (d.resolve p).parts = some (.file old age)) (hlt : age < time)
    (hdated : time.natAbs < Nat.pow 10 maxDigits)
    (hnew : (Node.set d.now (.file content time) d.root (d.resolve p).parts).kind?
      (d.resolve p).parts = some (.file content time)) :
    d.Edited inputs { d with
      root := Node.set d.now (.file content time) d.root (d.resolve p).parts } := by
  refine ⟨rfl, p, hp, old, age, content, time, hold, hnew, hlt, hdated, fun q hq => ?_⟩
  exact kind?_set_file (by rw [hold]; simp) hq content time

namespace Ages

theorem refl (inputs : List Path) (d : Disk) : d.Ages inputs d :=
  ⟨rfl, fun _ h => h, fun _ _ old age h => ⟨old, age, h, .inl ⟨rfl, rfl⟩⟩⟩

theorem resolve (h : d.Ages inputs d') (path : Path) : d'.resolve path = d.resolve path := by
  rw [Disk.resolve, Disk.resolve, h.working]

theorem trans (h : d.Ages inputs d₁) (h' : d₁.Ages inputs d') : d.Ages inputs d' where
  working := h'.working.trans h.working
  directory q hq := h'.directory q (h.directory q hq)
  input p hp old age hk := by
    obtain ⟨c₁, t₁, hk₁, hfirst⟩ := h.input p hp old age hk
    rw [← h.resolve] at hk₁
    obtain ⟨c₂, t₂, hk₂, hsecond⟩ := h'.input p hp c₁ t₁ hk₁
    rw [h.resolve] at hk₂
    refine ⟨c₂, t₂, hk₂, ?_⟩
    rcases hfirst with ⟨rfl, rfl⟩ | ⟨hlt, hdated⟩ <;>
      rcases hsecond with ⟨rfl, rfl⟩ | ⟨hlt', hdated'⟩
    · exact .inl ⟨rfl, rfl⟩
    · exact .inr ⟨hlt', hdated'⟩
    · exact .inr ⟨hlt, hdated⟩
    · exact .inr ⟨Int.lt_trans hlt hlt', hdated'⟩

/-- Where the inputs stay as they are, nothing ages. -/
theorem of_same (hworking : d'.working = d.working)
    (hdirectory : ∀ q, d.root.kind? q = some .directory → d'.root.kind? q = some .directory)
    (hsame : ∀ p ∈ inputs, ∀ content time,
      d.root.kind? (d.resolve p).parts = some (.file content time) →
        d'.root.kind? (d.resolve p).parts = some (.file content time)) : d.Ages inputs d' :=
  ⟨hworking, hdirectory, fun p hp old age hk => ⟨old, age, hsame p hp old age hk, .inl ⟨rfl, rfl⟩⟩⟩

theorem of_edited (h : d.Edited inputs d') : d.Ages inputs d' := by
  obtain ⟨hworking, p, -, old, age, content, time, hold, hnew, hlt, hdated, hother⟩ := h
  refine ⟨hworking, fun q hq => ?_, fun p' _ old' age' hk => ?_⟩
  · rw [hother q, hq]
    rintro rfl
    rw [hold] at hq
    cases hq
  · by_cases hp : (d.resolve p').parts = (d.resolve p).parts
    · rw [hp, hold] at hk
      cases hk
      exact ⟨content, time, hp ▸ hnew, .inr ⟨hlt, hdated⟩⟩
    · exact ⟨old', age', (hother _ hp).trans hk, .inl ⟨rfl, rfl⟩⟩

/-- A file between two that have the same time is the same as they. -/
theorem eq_of_time_le (hp : p ∈ inputs) (h : d.Ages inputs d₁) (h' : d₁.Ages inputs d')
    (hold : d.root.kind? (d.resolve p).parts = some (.file old age))
    (hnew : d'.root.kind? (d.resolve p).parts = some (.file content time)) (hle : time ≤ age) :
    d₁.root.kind? (d.resolve p).parts = some (.file content time) := by
  obtain ⟨c₁, t₁, hk₁, hfirst⟩ := h.input p hp old age hold
  obtain ⟨c₂, t₂, hk₂, hsecond⟩ := h'.input p hp c₁ t₁ (by rwa [h.resolve])
  rw [h.resolve, hnew] at hk₂
  cases hk₂
  rcases hfirst with ⟨rfl, rfl⟩ | ⟨hlt, -⟩ <;> rcases hsecond with ⟨rfl, rfl⟩ | ⟨hlt', -⟩
  · exact hk₁
  all_goals omega

/-- An input that was a file is one, and its path leads to it. -/
theorem locate (hp : p ∈ inputs) (h : d.Ages inputs d') (hfile : d.isFile p = true) :
    d'.locate p = .ok (d'.resolve p).parts ∧
      ∃ content time, d'.root.kind? (d'.resolve p).parts = some (.file content time) := by
  obtain ⟨old, hr⟩ := exists_readContent_of_isFile hfile
  obtain ⟨place, age, hl, hk⟩ := readContent_eq_ok.mp hr
  obtain rfl := eq_resolve_of_locate hl
  obtain ⟨content, time, hk', -⟩ := h.input p hp old age hk
  rw [h.resolve]
  exact ⟨locate_of_directories h.working h.directory hl
    fun _ => by rw [hk']; rfl, content, time, hk'⟩

end Ages

end Disk

namespace Cache

variable {cache : Cache} {source : Path} {start : Disk}

/-! ### Inputs of a directory -/

/-- The inputs are files that can be told apart by their absolute paths, with times that can be
recorded, and there is no record yet. -/
structure Unbuilt (cache : Cache) (d : Disk) (source : Path) (inputs : List Path) : Prop
    extends cache.Ready d source inputs where
  inputsSpelled : ∀ p ∈ inputs, p.Spelled
  unrecorded : d.root.kind? (cache.entryPlace d source) = none

namespace Unbuilt

section
variable (h : cache.Unbuilt start source inputs) (hage : start.Ages inputs d) (hp : p ∈ inputs)
include h hage hp

/-- An input is a file with a time that can be recorded. -/
theorem exists_file : ∃ content time, d.locate p = .ok (d.resolve p).parts ∧
      d.root.kind? (d.resolve p).parts = some (.file content time) ∧
      time.natAbs < Nat.pow 10 maxDigits := by
  obtain ⟨old, hr⟩ := Disk.exists_readContent_of_isFile (h.files p hp)
  obtain ⟨place, age, hl, hk⟩ := Disk.readContent_eq_ok.mp hr
  obtain rfl := Disk.eq_resolve_of_locate hl
  obtain ⟨content, time, hk', hdated⟩ := hage.input p hp old age hk
  refine ⟨content, time, (hage.locate hp (h.files p hp)).1, by rwa [hage.resolve], ?_⟩
  rcases hdated with ⟨rfl, rfl⟩ | ⟨-, hdated⟩
  · obtain ⟨node, hn, hkind⟩ := Option.map_eq_some_iff.mp hk
    have htime : node.time = time := by
      cases node with
      | directory entries age => cases hkind
      | file content' time' =>
        cases hkind
        rfl
    exact htime ▸ h.dated p hp node (Disk.node_eq_ok.mpr ⟨_, hl, hn⟩)
  · exact hdated

/-- The absolute path of an input leads to the input. -/
theorem placeOfText_key : start.placeOfText (d.key p) = (d.resolve p).parts := by
  rw [Disk.key, hage.resolve, Disk.placeOfText]
  exact congrArg Path.parts (Disk.resolve_resolve h.working (h.inputsSpelled p hp))

end

end Unbuilt

/-! ### Stamps that are older than what was read -/

/-- Each stamp is the time that an input had on some disk, and the inputs have only aged from there
to the disks `seen`, and from these to `d`. -/
structure Stamped (start : Disk) (inputs : List Path) (stamps : List (String × Json))
    (seen : List Disk) (d : Disk) : Prop where
  nodup : (stamps.map (·.1)).Nodup
  read : ∀ d₁ ∈ seen, start.Ages inputs d₁ ∧ d₁.Ages inputs d
  time : ∀ x ∈ stamps, ∃ d₀ old, ∃ age : Int, x.2 = .int age ∧ age.natAbs < Nat.pow 10 maxDigits ∧
    d₀.root.kind? (start.placeOfText x.1) = some (.file old age) ∧ start.Ages inputs d₀ ∧
    d₀.Ages inputs d ∧ ∀ d₁ ∈ seen, d₀.Ages inputs d₁

namespace Stamped

variable {stamps : List (String × Json)}

theorem nil (start : Disk) (inputs : List Path) (d : Disk) : Stamped start inputs [] [] d :=
  ⟨nodup_nil, forall_mem_nil _, forall_mem_nil _⟩

section
variable (h : Stamped start inputs stamps seen d)
include h

theorem mono (hage : d.Ages inputs d') :
    Stamped start inputs stamps seen d' where
  nodup := h.nodup
  read d₁ hd := ⟨(h.read d₁ hd).1, (h.read d₁ hd).2.trans hage⟩
  time x hx := by
    obtain ⟨d₀, old, age, hint, hdated, hk, hstart, hnow, hread⟩ := h.time x hx
    exact ⟨d₀, old, age, hint, hdated, hk, hstart, hnow.trans hage, hread⟩

/-- The action looks at the disk. -/
theorem look (hstart : start.Ages inputs d) :
    Stamped start inputs stamps (d :: seen) d where
  nodup := h.nodup
  read := forall_mem_cons.mpr ⟨⟨hstart, .refl _ _⟩, h.read⟩
  time x hx := by
    obtain ⟨d₀, old, age, hint, hdated, hk, hstart, hnow, hread⟩ := h.time x hx
    exact ⟨d₀, old, age, hint, hdated, hk, hstart, hnow, forall_mem_cons.mpr ⟨hnow, hread⟩⟩

theorem isStamp : ∀ x ∈ stamps, IsStamp x.2 := by
  intro x hx
  obtain ⟨_, _, age, hint, hdated, -⟩ := h.time x hx
  rw [hint]
  exact .time hdated

end

end Stamped

section
variable (hunbuilt : cache.Unbuilt start source inputs) (hage : start.Ages inputs d)
  (hp : p ∈ inputs)
include hunbuilt hage hp

/-- One more input is stamped. -/
theorem Stamped.next {pairs : List (String × Json)} {stamps : List (Json × Json)}
    (h : Stamped start inputs pairs [] d)
    (hnext : stampNext d .lastModified (pairs.map fun x => (.string x.1, x.2)) p = .ok stamps) :
    ∃ more : List (String × Json), stamps = more.map (fun x => (.string x.1, x.2)) ∧
      Stamped start inputs more [] d := by
  obtain ⟨content, time, hl, hk, hdated⟩ := hunbuilt.exists_file hage hp
  rw [stampNext, fileStamp_of_locate hl hk] at hnext
  have hset := setPair_map id (d.key p) (.int time) pairs
  refine ⟨_, (Except.ok.inj hnext).symm.trans hset, nodup_putKey h.nodup, forall_mem_nil _, ?_⟩
  intro x hx
  rcases mem_putKey hx with rfl | hx
  · refine ⟨d, content, time, rfl, hdated, ?_, hage, .refl _ _, forall_mem_nil _⟩
    rw [hunbuilt.placeOfText_key hage hp]
    exact hk
  · exact h.time x hx

/-- An input that holds has the content that was read after it was stamped. -/
theorem Stamped.readContent {stamps : List (String × Json)} (h : Stamped start inputs stamps seen d)
    {recorded : List (Json × Json)}
    (hrecorded : recorded.Perm (stamps.map fun x => (.string x.1, x.2)))
    (hfresh : ∀ x ∈ keyedInputs d inputs,
      inputStaleness d .lastModified (recordedStamp recorded x.1) x.2 = none)
    (hsame : sameInputs (keyedInputs d inputs) recorded = true) : ∃ content,
      d.readContent p = .ok content ∧ ∀ d₁ ∈ seen, d₁.readContent p = .ok content := by
  obtain ⟨content, time, hl, hk, -⟩ := hunbuilt.exists_file hage hp
  refine ⟨content, Disk.readContent_eq_ok.mpr ⟨_, time, hl, hk⟩, fun d₁ hd₁ => ?_⟩
  -- the input is looked at under one of its paths, and all of them lead to the same place
  obtain ⟨x, hx, hkey⟩ := exists_keyedInputs d hp
  obtain ⟨hmem, hkey'⟩ := (keyedInputs_spec d inputs).2 x hx
  have hplace : (d.resolve x.2).parts = (d.resolve p).parts := by
    rw [← hunbuilt.placeOfText_key hage hmem, ← hunbuilt.placeOfText_key hage hp, ← hkey', hkey]
  obtain ⟨content', time', hl', hk', -⟩ := hunbuilt.exists_file hage hmem
  rw [hplace, hk] at hk'
  cases hk'
  -- its stamp was taken before the action read it
  obtain ⟨y, hy, hsameKey⟩ := any_eq_true.mp (all_eq_true.mp
    (Bool.and_eq_true_iff.mp hsame).2 x hx)
  have hrecord := recordedStamp_mem (show (.string x.1, y.2) ∈ recorded by
    rw [← sameKey_string.mp hsameKey]; exact hy)
  obtain ⟨z, hz, hzx⟩ := mem_map.mp (hrecorded.mem_iff.mp hrecord)
  obtain ⟨d₀, old, age, hint, -, hk₀, hstart, -, hseen⟩ := h.time z hz
  have hstamp : fileStamp d .lastModified x.2 = .ok (.int time) :=
    fileStamp_of_locate hl' (hplace ▸ hk)
  have hle : time ≤ age := by
    have hnone := hfresh x hx
    rw [← (Prod.mk.inj hzx).2, hint, inputStaleness, hstamp] at hnone
    simpa [stampHolds, Json.wholeNumber?] using hnone
  have hresolve : ∀ d' : Disk, start.Ages inputs d' → d'.resolve p = d.resolve p :=
    fun d' hd' => (hd'.resolve p).trans (hage.resolve p).symm
  have hz : z.1 = d.key p := (Json.string.inj (Prod.mk.inj hzx).1).trans hkey
  rw [hz, hunbuilt.placeOfText_key hage hp, ← hresolve d₀ hstart] at hk₀
  obtain ⟨hstart₁, hnow₁⟩ := h.read d₁ hd₁
  have hk₁ := Disk.Ages.eq_of_time_le hp (hseen d₁ hd₁) hnow₁ hk₀ (hresolve d₀ hstart ▸ hk) hle
  refine Disk.readContent_eq_ok.mpr ⟨_, time, (hstart₁.locate hp (hunbuilt.files p hp)).1, ?_⟩
  rw [hresolve d₁ hstart₁, ← hresolve d₀ hstart]
  exact hk₁

end

end Cache

end Avroc
