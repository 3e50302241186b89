import Avroc.Proofs.Batch.Run
import Mathlib.Data.List.Induction

/-!
# Order of reading

The files of a batch are read one after the other, each with the types of the files compiled so far,
and a file that is refused may be read again later.  If no full name is defined twice and every
reference can mean one full name only, the order does not matter: every order in which the files can
be settled leads to the same names with alike definitions, and to the same verdict on every file.

* `Job.Reach.inside` : **every snapshot that can be reached lies inside the end of any run.**
* `Job.Settled.agree` : **the ends of two runs agree and know the same names.**
* `Job.Fate.unique` : **the verdict on a file is the same at the ends of two runs.**
-/

namespace Avroc

open List

variable {ρ : Matching} {type : Schema} {final final' : Snapshot} {x : Path × List TypeId}
  {name : String} {t : Scope}

/-- The full name belongs to a type of the registry or of one of the files. -/
def Available (d : Disk) (known : Registry) (paths : List Path) (fullName : String) : Prop :=
  known.contains fullName = true ∨ ∃ path ∈ paths, d.Defines path fullName

/-- No full name is defined twice, and a name without a dot that is written inside a namespace is
not the name of one type inside it and of another outside. -/
structure Unambiguous (d : Disk) (known : Registry) (paths : List Path) : Prop where
  once : ∀ p ∈ paths, ∀ q ∈ paths, ∀ name, d.Defines p name → d.Defines q name → p = q
  new : ∀ p ∈ paths, ∀ name, d.Defines p name → known.contains name = false
  clear : ∀ p ∈ paths, ∀ name space text, d.Refers p name space → space.bind spaceOf = some text →
    '.' ∉ name.toList →
    ¬ (Available d known paths (text ++ "." ++ name) ∧ Available d known paths name)

namespace Job

variable {j : Job} {paths : List Path} {done done' : List (Path × List TypeId)}
  {s s' : Snapshot} {path : Path}

/-! ### Snapshots on the way -/

theorem Accepts.of_concat (h : j.Accepts (done ++ [x]) s) :
    ∃ r type t, j.Accepts done r ∧ Yields (j.read x.1) r.scope type t ∧
      j.misplaced? x.1 t.catalog type = none ∧ x.2 = t.registry.newTypes r.registry.names ∧
      s = t.snapshot := by
  generalize hl : done ++ [x] = l at h
  cases h with
  | start => simp at hl
  | @gain done' r t path type hr hy hplace =>
    obtain ⟨rfl, hx⟩ := append_inj' hl rfl
    obtain rfl := (List.cons.inj hx).1
    exact ⟨r, type, t, hr, hy, hplace, rfl, rfl⟩

/-- The files that have been compiled determine the snapshot. -/
theorem Accepts.unique (h : j.Accepts done s) (h' : j.Accepts done s') : s = s' := by
  induction h generalizing s' with
  | start =>
    generalize hl : ([] : List (Path × List TypeId)) = l at h'
    cases h' with
    | start => rfl
    | gain => simp at hl
  | gain _ hy _ ih =>
    obtain ⟨r, type, t, hr, hy', -, -, rfl⟩ := h'.of_concat
    obtain rfl := ih hr
    obtain ⟨-, rfl⟩ := hy.unique hy'
    rfl

/-- Snapshots on the way are kept to the end. -/
theorem Accepts.kept_of_isPrefix (hj : j.known.scope.Solid) (h : j.Accepts done s)
    (h' : j.Accepts done' s') (hpre : done <+: done') : s.scope.KeptIn s'.scope := by
  obtain ⟨more, rfl⟩ := hpre
  induction more using List.reverseRecOn generalizing s' with
  | nil =>
    rw [append_nil] at h'
    rw [h.unique h']
    exact .refl _
  | append_singleton more x ih =>
    rw [← append_assoc] at h'
    obtain ⟨r, type, t, hr, hy, -, -, rfl⟩ := h'.of_concat
    exact (ih hr).trans (adds_readSchemaFile (hr.solid hj) hy).kept.snapshot

/-- There was a snapshot after every part of the way. -/
theorem Accepts.exists_of_isPrefix (h : j.Accepts done' s) (hpre : done <+: done') :
    ∃ r, j.Accepts done r := by
  obtain ⟨more, rfl⟩ := hpre
  induction more using List.reverseRecOn generalizing s with
  | nil => exact ⟨s, by rwa [append_nil] at h⟩
  | append_singleton more x ih =>
    rw [← append_assoc] at h
    obtain ⟨r, -, -, hr, -⟩ := h.of_concat
    exact ih hr

/-- A compiled file has been read on the way. -/
theorem Accepts.exists_read (hj : j.known.scope.Solid) (h : j.Accepts done s) (hx : x ∈ done) :
    ∃ front r type t, front ++ [x] <+: done ∧
      j.Accepts front r ∧ Yields (j.read x.1) r.scope type t ∧
      j.misplaced? x.1 t.catalog type = none ∧ x.2 = t.registry.newTypes r.registry.names ∧
      t.KeptIn s.scope := by
  obtain ⟨front, back, rfl⟩ := append_of_mem hx
  have hpre : front ++ [x] <+: front ++ x :: back := ⟨back, by simp⟩
  obtain ⟨u, hu⟩ := h.exists_of_isPrefix hpre
  obtain ⟨r, type, t, hr, hy, hplace, htypes, rfl⟩ := hu.of_concat
  have hk := hu.kept_of_isPrefix hj h hpre
  exact ⟨front, r, type, t, hpre, hr, hy, hplace, htypes,
    ⟨hk.size, hk.definition, hk.entries, hk.checksNames, hk.checksDefaults⟩⟩

/-! ### Reaching -/

/-- What is asked of a batch. -/
structure Sound (j : Job) (paths : List Path) : Prop where
  solid : j.known.scope.Solid
  unambiguous : Unambiguous j.disk j.known.registry paths

/-- The snapshot has been reached by compiling files of the batch, each once. -/
structure Reach (j : Job) (paths : List Path) (done : List (Path × List TypeId)) (s : Snapshot) :
    Prop where
  accepts : j.Accepts done s
  nodup : (done.map (·.1)).Nodup
  subset : ∀ x ∈ done, x.1 ∈ paths

theorem Reach.of_isPrefix (h : j.Reach paths done s) (hpre : done' <+: done)
    (ha : j.Accepts done' s') : j.Reach paths done' s' :=
  ⟨ha, (hpre.sublist.map _).nodup h.nodup, fun x hx => h.subset x (hpre.subset hx)⟩

/-- Every name that the snapshot knows is known at the start or defined by a compiled file. -/
def NamesFrom (j : Job) (done : List (Path × List TypeId)) (s : Snapshot) : Prop :=
  ∀ name, s.registry.contains name = true →
    j.known.registry.contains name = true ∨ ∃ x ∈ done, j.disk.Defines x.1 name

theorem Accepts.namesFrom (hj : j.known.scope.Solid) (h : j.Accepts done s) :
    j.NamesFrom done s := by
  obtain ⟨new, he, -, -, hgained⟩ := h.new_entries hj
  intro name hn
  obtain ⟨id, hid⟩ := Option.isSome_iff_exists.mp hn
  rw [Registry.get?, he, lookup_append, Option.or_eq_some_iff] at hid
  refine hid.imp Registry.contains_of_get? fun hnew => ?_
  obtain ⟨l₁, l₂, rfl, -⟩ := lookup_eq_some_iff.mp hnew.2
  exact (hgained (name, id) (by simp)).file

theorem Reach.available (h : j.Reach paths done s) (hj : j.Sound paths)
    (hn : s.registry.contains name = true) : Available j.disk j.known.registry paths name := by
  refine (h.accepts.namesFrom hj.solid name hn).imp_right ?_
  rintro ⟨x, hx, hdef⟩
  exact ⟨x.1, h.subset x hx, hdef⟩

/-- A file that has not been compiled defines no name that the snapshot knows. -/
theorem Reach.contains_eq_false (h : j.Reach paths done s) (hj : j.Sound paths) (hp : path ∈ paths)
    (hd : path ∉ done.map (·.1)) (hn : j.disk.Defines path name) :
    s.registry.contains name = false := by
  refine Bool.eq_false_iff.mpr fun hc => ?_
  rcases h.accepts.namesFrom hj.solid name hc with hstart | ⟨x, hx, hdef⟩
  · rw [hj.unambiguous.new path hp name hn] at hstart
    cases hstart
  · have heq := hj.unambiguous.once path hp x.1 (h.subset x hx) name hn hdef
    exact hd (mem_map.mpr ⟨x, hx, heq.symm⟩)

/-! ### Two runs -/

/-- The file can be read with the snapshot: a run leads there without compiling the file. -/
def Turn (j : Job) (paths : List Path) (path : Path) (s : Snapshot) : Prop :=
  ∃ done, j.Reach paths done s ∧ path ∉ done.map (·.1)

theorem Turn.solid (h : j.Turn paths path s) (hj : j.Sound paths) : s.scope.Solid := by
  obtain ⟨_, hreach, -⟩ := h
  exact hreach.accepts.solid hj.solid

/-- The file is read with both snapshots. -/
def comparison (j : Job) (path : Path) (s s' : Snapshot) : Comparison where
  path := path
  first := s.scope
  second := s'.scope
  own := j.disk.Defines path
  forth := ∀ name, s.registry.contains name = true → s'.registry.contains name = true
  back := ∀ name, s'.registry.contains name = true → s.registry.contains name = true

/-- **A file whose turn it is in two runs is read side by side in the two.** -/
theorem paired_turn (hj : j.Sound paths) (hs : j.Turn paths path s) (hs' : j.Turn paths path s')
    (hp : path ∈ paths) (ha : Agree ρ s.scope s'.scope) :
    (j.comparison path s s').Paired ρ Schema.Alike (outcome (j.read path) s.scope)
      (outcome (j.read path) s'.scope) := by
  obtain ⟨done, hreach, hd⟩ := hs
  obtain ⟨done', hreach', hd'⟩ := hs'
  have htied : (j.comparison path s s').Tied ρ s.scope s'.scope := by
    refine Comparison.tied_start ha (fun name hn => ?_) id id
    show s.registry.contains name = s'.registry.contains name
    rw [hreach.contains_eq_false hj hp hd hn, hreach'.contains_eq_false hj hp hd' hn]
  refine htied.paired_readSchemaFile j.disk fun v hv o ho => ?_
  cases o with
  | definition fullName => exact ⟨v, hv, ho⟩
  | reference name space =>
    refine .inr fun text hspace hdot hhas => ?_
    have havail : ∀ name, (j.comparison path s s').Has name →
        Available j.disk j.known.registry paths name := by
      rintro name (hn | hn | hn)
      · exact hreach.available hj hn
      · exact hreach'.available hj hn
      · exact .inr ⟨path, hp, hn⟩
    exact hj.unambiguous.clear path hp name space text ⟨v, hv, ho⟩ hspace hdot
      ⟨havail _ hhas.1, havail _ hhas.2⟩

/-- The verdict on a file at the end of a run: the file could be read and has been compiled or is
misplaced, or it cannot be read even with all types that are known at the end. -/
inductive Fate (j : Job) (paths : List Path) (final : Snapshot) (path : Path) :
    Option Error → Prop
  | read {s : Snapshot} {t : Scope} {type : Schema} {verdict : Option Error} :
      j.Turn paths path s → s.scope.KeptIn final.scope → Yields (j.read path) s.scope type t →
      j.misplaced? path t.catalog type = verdict → (verdict = none → t.KeptIn final.scope) →
      Fate j paths final path verdict
  | failed {e : Error} :
      j.Turn paths path final → (outcome (j.read path) final.scope).1 = .error e →
      Fate j paths final path (some e)

/-- The snapshot is the end of a run that leaves no file without a verdict. -/
structure Settled (j : Job) (paths : List Path) (final : Snapshot) : Prop where
  reach : ∃ done, j.Reach paths done final
  fate : ∀ path ∈ paths, ∃ verdict, j.Fate paths final path verdict

/-- Whether a file is misplaced can be told from the full name of its type. -/
theorem misplaced?_alike {c c' : Catalog} (hc : c.Alike ρ c') {type' : Schema}
    (h : type.Alike ρ type') : j.misplaced? path c type = j.misplaced? path c' type' := by
  unfold misplaced?
  refine Schema.Alike.induction (fun _ _ => rfl) (fun _ _ _ => rfl) (fun _ _ _ => rfl)
    (fun _ _ => rfl) (fun hid => ?_) h
  rw [checkLayout, checkLayout, hc.fullName_eq hid]

/-- The first snapshot agrees with the second and knows no name that is not known there. -/
def Inside (s s' : Scope) : Prop :=
  ∃ ρ, Agree ρ s s' ∧ ∀ name, s.registry.contains name = true → s'.registry.contains name = true

section
variable (hj : j.Sound paths)
include hj

/-- **A file that is compiled keeps the run inside the end of any other.** -/
theorem inside_of_read (hfinal : j.Settled paths final) (hs : j.Turn paths path s)
    (hp : path ∈ paths) (hy : Yields (j.read path) s.scope type t)
    (hplace : j.misplaced? path t.catalog type = none) (h : Inside s.scope final.scope) :
    Inside t final.scope := by
  obtain ⟨ρ, ha, hsub⟩ := h
  obtain ⟨verdict, hfate⟩ := hfinal.fate path hp
  cases hfate with
  | @read s' t' type' verdict hs' hk' hy' hplace' ht' =>
    have hpair := paired_turn hj hs hs' hp (ha.restrict (hs'.solid hj) hk')
    rw [show outcome _ _ = _ from hy, show outcome _ _ = _ from hy'] at hpair
    cases hpair with
    | both _ ht halike =>
      have hk : t'.KeptIn final.scope := by
        refine ht' ?_
        rw [← hplace', ← misplaced?_alike ht.agree.alike halike, hplace]
      have hnew : ∀ name id, t.registry.get? name = some id →
          s.registry.get? name = some id ∨ t'.registry.contains name = true := by
        intro name id hid
        refine (ht.adds.get?_cases hid).imp_right fun hn => ?_
        rw [← ht.same name hn.own]
        exact Registry.contains_of_get? hid
      refine ⟨_, ha.merge ht.adds.kept ht.agree hk hnew, fun name hn => ?_⟩
      obtain ⟨id, hid⟩ := Option.isSome_iff_exists.mp hn
      rcases hnew name id hid with hold | hnew
      · exact hsub name (Registry.contains_of_get? hold)
      · exact hk.contains hnew
  | @failed e hs' he =>
    have hpair := paired_turn hj hs hs' hp ha
    rw [show outcome _ _ = _ from hy] at hpair
    rcases hr : outcome (j.read path) final.scope with ⟨r, t'⟩
    rw [hr] at he hpair
    subst he
    cases hpair with
    | left hn =>
      -- The file can be read with fewer names than those of the end.
      exact absurd hsub hn

/-- **Every snapshot that a batch can reach lies inside the end of any run.** -/
theorem Reach.inside (hfinal : j.Settled paths final) (h : j.Reach paths done s) :
    Inside s.scope final.scope := by
  obtain ⟨ha, hnd, hsub⟩ := h
  induction ha with
  | start =>
    obtain ⟨_, hreach⟩ := hfinal.reach
    have hk := hreach.accepts.kept hj.solid
    exact ⟨_, .of_kept hj.solid hk, fun _ hn => hk.contains hn⟩
  | @gain done s t path type hs hy hplace ih =>
    rw [map_append, nodup_append] at hnd
    have hturn : j.Turn paths path s := by
      refine ⟨done, ⟨hs, hnd.1, fun x hx => hsub x (mem_append_left _ hx)⟩, fun hm => ?_⟩
      exact hnd.2.2 path hm path (mem_singleton_self _) rfl
    have hp : path ∈ paths := hsub _ (mem_append_right _ (mem_singleton_self _))
    obtain ⟨ρ, ha, hnames⟩ := inside_of_read hj hfinal hturn hp hy hplace
      (ih hnd.1 fun x hx => hsub x (mem_append_left _ hx))
    exact ⟨ρ, ⟨ha.range, ha.alike, ha.named, ha.checksNames, ha.checksDefaults⟩, hnames⟩

/-- **The ends of two runs agree and know the same names.** -/
theorem Settled.agree (h : j.Settled paths final) (h' : j.Settled paths final') :
    ∃ ρ, Agree ρ final.scope final'.scope ∧
      ∀ name, final.registry.contains name = final'.registry.contains name := by
  obtain ⟨_, hreach⟩ := h.reach
  obtain ⟨_, hreach'⟩ := h'.reach
  obtain ⟨ρ, ha, hsub⟩ := hreach.inside hj h'
  obtain ⟨-, -, hsub'⟩ := hreach'.inside hj h
  exact ⟨ρ, ha, fun name => Bool.eq_iff_iff.mpr ⟨hsub name, hsub' name⟩⟩

/-- A file that can be read in one run does not fail at the end of another. -/
theorem Fate.not_failed (ha : Agree ρ final.scope final'.scope)
    (hnames : ∀ name, final.registry.contains name = final'.registry.contains name)
    (hp : path ∈ paths) (hs : j.Turn paths path s) (hk : s.scope.KeptIn final.scope)
    (hy : Yields (j.read path) s.scope type t) {e : Error} (hs' : j.Turn paths path final') :
    (outcome (j.read path) final'.scope).1 ≠ .error e := by
  intro he
  have hpair := paired_turn hj hs hs' hp (ha.restrict_left (hs.solid hj) hk)
  rw [show outcome _ _ = _ from hy] at hpair
  rcases hr : outcome (j.read path) final'.scope with ⟨r, t'⟩
  rw [hr] at he hpair
  subst he
  cases hpair with
  | left hn =>
    refine absurd (fun name h => ?_) hn
    rw [← hnames]
    exact hk.contains h

/-- **The verdict on a file is the same at the ends of two runs.** -/
theorem Fate.unique (h : j.Settled paths final) (h' : j.Settled paths final') (hp : path ∈ paths)
    {verdict verdict' : Option Error} (hv : j.Fate paths final path verdict)
    (hv' : j.Fate paths final' path verdict') : verdict = verdict' := by
  obtain ⟨ρ, ha, hnames⟩ := h.agree hj h'
  cases hv with
  | @read s t type _ hs hk hy hplace _ =>
    cases hv' with
    | @read s' t' type' _ hs' hk' hy' hplace' _ =>
      have hpair := paired_turn hj hs hs' hp
        ((ha.restrict (hs'.solid hj) hk').restrict_left (hs.solid hj) hk)
      rw [show outcome _ _ = _ from hy, show outcome _ _ = _ from hy'] at hpair
      cases hpair with
      | both _ ht halike => rw [← hplace, ← hplace', misplaced?_alike ht.agree.alike halike]
    | failed hs' he => exact absurd he (not_failed hj ha hnames hp hs hk hy hs')
  | @failed e hs he =>
    cases hv' with
    | @read s' t' type' _ hs' hk' hy' hplace' _ =>
      exact absurd he
        (not_failed hj ha.symm (fun name => (hnames name).symm) hp hs' hk' hy' hs)
    | @failed e' hs' he' =>
      have hpair := paired_turn hj hs hs' hp ha
      rcases hr : outcome (j.read path) final.scope with ⟨r, t⟩
      rcases hr' : outcome (j.read path) final'.scope with ⟨r', t'⟩
      rw [hr] at he hpair
      rw [hr'] at he' hpair
      subst he he'
      cases hpair with
      | fail he =>
        exact congrArg some (he (fun name h => hnames name ▸ h) fun name h => hnames name ▸ h).1

end

end Job

end Avroc
