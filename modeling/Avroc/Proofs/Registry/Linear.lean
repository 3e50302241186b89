import Avroc.Proofs.Registry.Threads
import Mathlib.Data.List.Infix
import Mathlib.Data.List.Perm.Basic

/-!
# Calls on the shared registry linearise

The calls of threads that share a registry are put in the order of the registries that they worked
on, and those on one registry in the order in which they ended.  A call that holds the reference to
a registry that was replaced comes before the reset, which it had begun before.

* `Threads.linearises` : **the calls of any run have an order, and a copy shows a moment of its
  call unless types came late to a registry that was replaced.**
-/

namespace Avroc

open List

variable {i : Nat} {id : RegistryId} {ids : List RegistryId} {past : List FinishedCall}
  {e : FinishedCall} {r : Registry} {w : PendingUse} {p : Pool} {m : Threads}

/-! ### Calls one after the other -/

/-- The copy that the call returned, if it makes one, has the types of the registry. -/
def FinishedCall.Returns (p : Pool) (r : Registry) (e : FinishedCall) : Prop :=
  e.call = .use .copy → ∃ c ∈ e.copy, p.registry c = r

/-- Carried out one after the other, the calls lead from one shared registry to another and return
the copies that they have returned. -/
inductive Replays (p : Pool) : Registry → List FinishedCall → Registry → Prop
  | nil (r : Registry) : Replays p r [] r
  | cons {r r' : Registry} {e : FinishedCall} {calls : List FinishedCall} :
    e.Returns p r → Replays p (e.call.after p.catalog r) calls r' → Replays p r (e :: calls) r'

namespace Replays

variable {p' : Pool} {r' r'' : Registry} {calls calls' : List FinishedCall}

theorem append (h : Replays p r calls r') (h' : Replays p r' calls' r'') :
    Replays p r (calls ++ calls') r'' := by
  induction h with
  | nil _ => exact h'
  | cons he _ ih => exact .cons he (ih h')

/-- Only the catalog and the copies count. -/
theorem congr (hcatalog : p'.catalog = p.catalog)
    (hcopy : ∀ e ∈ calls, ∀ c ∈ e.copy, p'.registry c = p.registry c)
    (h : Replays p r calls r') : Replays p' r calls r' := by
  induction h with
  | nil r => exact .nil r
  | @cons _ _ e _ he _ ih =>
    have hreturns : e.Returns p' _ := fun hcall => by
      obtain ⟨c, hc, heq⟩ := he hcall
      exact ⟨c, hc, (hcopy e mem_cons_self c hc).trans heq⟩
    refine .cons hreturns ?_
    rw [hcatalog]
    exact ih fun e' he' => hcopy e' (mem_cons_of_mem _ he')

/-- Calls registry by registry, where those on a later one can start from any. -/
theorem flatMap {f : RegistryId → List FinishedCall} (h : Replays p r (f id) (p.registry id))
    (hrest : ∀ j ∈ ids, ∀ r, Replays p r (f j) (p.registry j)) :
    Replays p r ((id :: ids).flatMap f) (p.registry ((id :: ids).getLast (by simp))) := by
  induction ids generalizing r id with
  | nil => simpa using h
  | cons j ids ih =>
    rw [flatMap_cons, getLast_cons (by simp)]
    exact h.append (ih (hrest j mem_cons_self _)
      fun k hk => hrest k (mem_cons_of_mem _ hk))

end Replays

/-! ### The calls registry by registry -/

/-- The calls that worked on a registry, in the order of their last steps. -/
def callsOn (past : List FinishedCall) (id : RegistryId) : List FinishedCall :=
  past.filter (·.on = id)

theorem mem_callsOn :
    e ∈ callsOn past id ↔ e ∈ past ∧ e.on = id := by
  simp [callsOn]

theorem callsOn_concat (past : List FinishedCall) (e : FinishedCall) (id : RegistryId) :
    callsOn (past ++ [e]) id = if e.on = id then callsOn past id ++ [e] else callsOn past id := by
  split <;> simp_all [callsOn]

/-- Every call works on one registry. -/
theorem perm_flatMap_callsOn (hids : ids.Nodup) (h : ∀ e ∈ past, e.on ∈ ids) :
    (ids.flatMap (callsOn past)).Perm past := by
  induction ids generalizing past with
  | nil =>
    obtain rfl := eq_nil_iff_forall_not_mem.mpr fun e he => not_mem_nil (h e he)
    exact .nil
  | cons id ids ih =>
    obtain ⟨hid, hids⟩ := nodup_cons.mp hids
    -- the calls on the other registries are among those that are not on the first
    have hothers : ids.flatMap (callsOn past) =
        ids.flatMap (callsOn (past.filter fun e => !decide (e.on = id))) := by
      refine flatMap_congr fun j hj => ?_
      rw [callsOn, callsOn, filter_filter]
      refine filter_congr fun e _ => ?_
      have hne : e.on = j → e.on ≠ id := fun he => he ▸ fun hji => hid (hji ▸ hj)
      by_cases hej : e.on = j <;> simp [hej]
      exact fun hji => hne hej (hej.trans hji)
    rw [flatMap_cons, hothers]
    refine ((ih hids fun e he => ?_).append_left _).trans (filter_append_perm _ past)
    obtain ⟨hmem, hne⟩ := mem_filter.mp he
    exact (mem_cons.mp (h e hmem)).resolve_left (by simpa using hne)

namespace Threads

/-- The registries that were shared, from the first one on, and the calls on each of them: carried
out alone they lead to the registry as it is, and all but those on the first do so from any. -/
structure Told (p : Pool) (m : Threads) (earlier : List RegistryId) : Prop where
  sorted : (earlier ++ [m.pool.shared]).Pairwise (·.index < ·.index)
  first : (earlier ++ [m.pool.shared]).head? = some p.shared
  begun : ∀ id t, m.Begun id t → id ∈ earlier ++ [m.pool.shared]
  replays : ∀ id ∈ earlier ++ [m.pool.shared], ∀ r, (id = p.shared → r = p.registry p.shared) →
    Replays m.pool r (callsOn m.past id) (m.pool.registry id)

namespace Told

variable {earlier : List RegistryId}

section
variable (h : Told p m earlier)
include h

theorem le_shared (hid : id ∈ earlier ++ [m.pool.shared]) :
    id.index ≤ m.pool.shared.index := by
  rcases mem_append.mp hid with hid | hid
  · exact Nat.le_of_lt ((pairwise_append.mp h.sorted).2.2 id hid _ mem_cons_self)
  · exact Nat.le_of_eq (congrArg _ (mem_singleton.mp hid))

/-- The calls that were there before a step are told as before. -/
theorem replays_step (ho : m.Ordered) (i : Nat) (hid : id ∈ earlier ++ [m.pool.shared])
    (hr : id = p.shared → r = p.registry p.shared) :
    Replays (m.step i).pool r (callsOn m.past id) (m.pool.registry id) :=
  (h.replays id hid r hr).congr (m.catalog_step i) fun _ he _ hc =>
    ho.registry_copy_step i (mem_callsOn.mp he).1 hc

/-- A thread uses a registry that was shared. -/
theorem finish (ho : m.Ordered) (hw : (m.thread i).pending = some w)
    (he : m.step i = m.finish i w) : Told p (m.step i) earlier := by
  have hshared : (m.step i).pool.shared = m.pool.shared := by
    rw [he]
    exact RegistryUse.run_shared ..
  have hbegun : m.Begun w.on w.began := .inr ⟨w, ⟨i, hw⟩, rfl, rfl⟩
  refine ⟨hshared ▸ h.sorted, hshared ▸ h.first, fun id t hb => ?_, fun id hid r hr => ?_⟩
  · rw [hshared]
    rcases begun_step hb with hb | ⟨rfl, _⟩
    · exact h.begun id t hb
    · rw [hshared]
      exact mem_append_right _ mem_cons_self
  · rw [hshared] at hid
    have hold := h.replays_step ho i hid hr
    have hlt : id.index < m.pool.registries.length :=
      Nat.lt_of_le_of_lt (h.le_shared hid) ho.shared
    have hpast : (m.step i).past = m.past ++
        [⟨.use w.use, w.on, w.began, m.time + 1, (w.use.run m.pool w.on).1⟩] := by
      rw [he]
      rfl
    rw [hpast, callsOn_concat]
    by_cases hon : w.on = id
    · -- the call is the last one on its registry
      subst hon
      rw [if_pos rfl]
      refine hold.append (.cons (fun hcall => ?_) ?_)
      · have huse : w.use = .copy := SharedCall.use.inj hcall
        rw [he]
        simp only [Threads.finish, huse]
        exact ⟨_, rfl, RegistryUse.registry_copy⟩
      · rw [catalog_step, ← RegistryUse.registry_run_self hlt, he]
        exact .nil _
    · rw [if_neg hon, registry_step hlt fun v hv hid => ?_]
      · exact hold
      · cases hw.symm.trans hv
        exact (hon hid.symm).elim

/-- A thread shares a new registry. -/
theorem reset (ho : m.Ordered) {rest : List SharedCall} (he : m.step i = m.reset i rest) :
    Told p (m.step i) (earlier ++ [m.pool.shared]) := by
  have hshared : (m.step i).pool.shared = ⟨m.pool.registries.length⟩ := by
    rw [he]
    rfl
  have hpast : (m.step i).past = m.past ++
      [⟨.reset, ⟨m.pool.registries.length⟩, m.time, m.time + 1, none⟩] := by
    rw [he]
    rfl
  have hlt (id) (hid : id ∈ earlier ++ [m.pool.shared]) :
      id.index < m.pool.registries.length :=
    Nat.lt_of_le_of_lt (h.le_shared hid) ho.shared
  refine ⟨?_, ?_, fun id t hb => ?_, fun id hid r hr => ?_⟩
  · refine pairwise_append.mpr ⟨h.sorted, pairwise_singleton _ _, fun a ha b hb => ?_⟩
    rw [mem_singleton.mp hb, hshared]
    exact hlt a ha
  · rw [head?_append, h.first]
    rfl
  · rcases begun_step hb with hb | ⟨rfl, _⟩
    · exact mem_append_left _ (h.begun id t hb)
    · exact mem_append_right _ mem_cons_self
  · rw [hpast, callsOn_concat]
    rcases mem_append.mp hid with hid | hid
    · -- the calls on the registries of before are told as before
      have hne : (⟨m.pool.registries.length⟩ : RegistryId) ≠ id := by
        rintro rfl
        exact Nat.lt_irrefl _ (hlt _ hid)
      have hregistry : (m.step i).pool.registry id = m.pool.registry id := by
        rw [he]
        exact Pool.registry_reset_of_lt (hlt id hid)
      rw [if_neg hne, hregistry]
      exact h.replays_step ho i hid hr
    · -- the new registry has had no call yet
      obtain rfl := (mem_singleton.mp hid).trans hshared
      have hnone : callsOn m.past ⟨m.pool.registries.length⟩ = [] := by
        refine eq_nil_iff_forall_not_mem.mpr fun e hmem => ?_
        obtain ⟨hmem, hon⟩ := mem_callsOn.mp hmem
        have := ho.begun_lt_length (.inl ⟨e, hmem, hon, rfl⟩)
        exact Nat.lt_irrefl _ this
      rw [if_pos rfl, hnone, he]
      refine .cons (fun hcall => nomatch hcall) ?_
      have hempty := m.pool.registry_reset_shared
      rw [Pool.reset_shared] at hempty
      rw [Threads.reset, hempty]
      exact .nil _

/-- **One step**: the calls are told registry by registry. -/
theorem step (ho : m.Ordered) (i : Nat) :
    ∃ earlier', Told p (m.step i) earlier' := by
  obtain he | ⟨use, rest, he⟩ | ⟨w, hw, he⟩ | ⟨rest, he⟩ := m.step_cases i
  · refine ⟨earlier, ?_⟩
    rw [he]
    exact ⟨h.sorted, h.first, h.begun, h.replays⟩
  · refine ⟨earlier, ?_⟩
    have hbegun (id t) (hb : (m.step i).Begun id t) : id ∈ earlier ++ [m.pool.shared] := by
      rcases begun_step hb with hb | ⟨rfl, _⟩
      · exact h.begun id t hb
      · rw [he]
        exact mem_append_right _ mem_cons_self
    rw [he] at hbegun ⊢
    exact ⟨h.sorted, h.first, hbegun, h.replays⟩
  · exact ⟨earlier, h.finish ho hw he⟩
  · exact ⟨_, h.reset ho he⟩

/-- Told registry by registry, the calls lead to the registry that is shared. -/
theorem replays_flatMap :
    Replays m.pool (p.registry p.shared)
      ((earlier ++ [m.pool.shared]).flatMap (callsOn m.past)) m.shared := by
  obtain ⟨ids, hids⟩ := head?_eq_some_iff.mp h.first
  have hsorted := h.sorted
  have hreplays := h.replays
  have hlast : (p.shared :: ids).getLast (by simp) = m.pool.shared := by
    simp only [← hids, getLast_append_singleton]
  rw [hids] at hsorted hreplays ⊢
  rw [shared, ← hlast]
  refine Replays.flatMap (hreplays p.shared mem_cons_self _ fun _ => rfl) fun j hj r => ?_
  refine hreplays j (mem_cons_of_mem _ hj) r fun hjp => ?_
  have := (pairwise_cons.mp hsorted).1 j hj
  rw [hjp] at this
  exact (Nat.lt_irrefl _ this).elim

/-- A call comes after those that ended before it began. -/
theorem pairwise_flatMap (ho : m.Ordered) :
    ((earlier ++ [m.pool.shared]).flatMap (callsOn m.past)).Pairwise
      fun a b => a.began < b.ended := by
  refine List.pairwise_flatMap.mpr ⟨fun id _ => ?_, h.sorted.imp fun {id j} hlt a ha b hb => ?_⟩
  · -- on one registry the calls are in the order in which they ended
    refine (ho.sorted.filter _).imp_of_mem fun {a b} ha _ hlt => ?_
    have := (ho.ended a (mem_filter.mp ha).1).1
    omega
  · -- a call on an earlier registry read its reference first
    obtain ⟨hma, rfl⟩ := mem_callsOn.mp ha
    obtain ⟨hmb, rfl⟩ := mem_callsOn.mp hb
    have hbegan := ho.begun_lt _ _ _ _ (.inl ⟨a, hma, rfl, rfl⟩) (.inl ⟨b, hmb, rfl, rfl⟩) hlt
    exact Nat.lt_trans hbegan (ho.ended b hmb).1

end

end Told

theorem told_run (h : p.shared.index < p.registries.length) (calls : Nat → List SharedCall)
    (schedule : List Nat) :
    ∃ earlier, Told p ((start p calls).run schedule) earlier := by
  have hstart : Told p (start p calls) [] := by
    refine ⟨pairwise_singleton _ _, rfl, fun id t hb => ?_, fun id hid r hr => ?_⟩
    · rcases hb with ⟨e, he, _⟩ | ⟨w, ⟨i, hi⟩, _⟩
      · cases he
      · cases hi
    · obtain rfl := mem_singleton.mp hid
      rw [hr rfl]
      exact .nil _
  refine run_induction (P := fun _ m => ∃ earlier, Told p m earlier) ⟨[], hstart⟩
    (fun s i hs => ?_) schedule
  obtain ⟨earlier, hs⟩ := hs
  exact hs.step (ordered_run h calls s) i

/-! ### The moment of a copy -/

/-- While a call was under way the registry that it had read the reference of was replaced, and
types were entered in it afterwards by a call that had read the reference before. -/
def Overtaken (past : List FinishedCall) (e : FinishedCall) : Prop :=
  ∃ reset ∈ past, ∃ add ∈ past, reset.call = .reset ∧ (∃ types, add.call = .use (.add types)) ∧
    add.on = e.on ∧ e.began < reset.began ∧ add.began < reset.began ∧
    reset.ended < add.ended ∧ add.ended < e.ended

/-- A registry that was shared is still shared, or was replaced while it was as it is, or types
came to it late. -/
def Dated (m₀ : Threads) (schedule : List Nat) (m : Threads) (id : RegistryId) : Prop :=
  m.pool.shared = id ∨ ∃ e ∈ m.past, e.call = .reset ∧ id.index < e.on.index ∧
    ((∃ before, before <+: schedule ∧ before.length = e.began ∧
        (m₀.run before).shared = m.pool.registry id) ∨
      ∃ a ∈ m.past, (∃ types, a.call = .use (.add types)) ∧ a.on = id ∧ e.ended < a.ended)

/-- The copy that a call returned shows a moment of the call, or the call was overtaken. -/
def Shows (m₀ : Threads) (schedule : List Nat) (m : Threads) (e : FinishedCall) : Prop :=
  ∀ c ∈ e.copy, (∃ before, before <+: schedule ∧ e.began ≤ before.length ∧
    before.length ≤ e.ended ∧ (m₀.run before).shared = m.pool.registry c) ∨ Overtaken m.past e

/-- The calls that have returned stay in the past. -/
theorem past_subset_step (m : Threads) (i : Nat) : m.past ⊆ (m.step i).past := by
  obtain he | ⟨use, rest, he⟩ | ⟨w, hw, he⟩ | ⟨rest, he⟩ := m.step_cases i <;> rw [he]
  · exact List.Subset.refl _
  · exact List.Subset.refl _
  · exact subset_append_left _ _
  · exact subset_append_left _ _

section

variable {m₀ : Threads} {schedule : List Nat}

/-- **One step**: a registry that was shared keeps its date, unless types are entered in it. -/
theorem Dated.step (h : Dated m₀ schedule m id) (hm : m = m₀.run schedule) (ho : m.Ordered)
    (htime : m.time = schedule.length) (hid : id.index < m.pool.registries.length) (i : Nat) :
    Dated m₀ (schedule ++ [i]) (m.step i) id := by
  have hsub := m.past_subset_step i
  have hprefix : schedule <+: schedule ++ [i] := prefix_append _ _
  rcases h with hshared | ⟨e, he, hcall, hlt, hdate⟩
  · obtain hs | ⟨use, rest, hs⟩ | ⟨w, hw, hs⟩ | ⟨rest, hs⟩ := m.step_cases i
    · rw [hs]
      exact .inl hshared
    · rw [hs]
      exact .inl hshared
    · rw [hs]
      exact .inl ((RegistryUse.run_shared ..).trans hshared)
    · -- it is replaced at this step, and has the types that it had before
      rw [hs]
      refine .inr ⟨_, mem_append_right _ mem_cons_self, rfl, hid, .inl ?_⟩
      refine ⟨schedule, hprefix, htime.symm, ?_⟩
      rw [← hm, shared, hshared]
      exact (Pool.registry_reset_of_lt hid).symm
  refine .inr ⟨e, hsub he, hcall, hlt, ?_⟩
  rcases hdate with ⟨before, hbefore, hlen, hregistry⟩ | ⟨a, ha, hadd⟩
  · by_cases hlate : ∃ w, (m.thread i).pending = some w ∧ id = w.on ∧ w.use ≠ .copy
    · -- types are entered, and it is not shared any more
      obtain ⟨w, hw, hon, huse⟩ := hlate
      obtain ⟨types, hadd⟩ : ∃ types, w.use = .add types := by
        cases hu : w.use with
        | copy => exact (huse hu).elim
        | add types => exact ⟨types, rfl⟩
      have hpast : (m.step i).past = m.past ++
          [⟨.use w.use, w.on, w.began, m.time + 1, (w.use.run m.pool w.on).1⟩] := by
        rw [Threads.step, hw]
        rfl
      refine .inr ⟨_, hpast ▸ mem_append_right _ mem_cons_self,
        ⟨types, congrArg _ hadd⟩, hon.symm, ?_⟩
      exact Nat.lt_succ_of_le (ho.ended e he).2
    · refine .inl ⟨before, hbefore.trans hprefix, hlen, hregistry.trans ?_⟩
      refine (registry_step hid fun w hw hon => ?_).symm
      exact Decidable.not_not.mp fun huse => hlate ⟨w, hw, hon, huse⟩
  · exact .inr ⟨a, hsub ha, hadd⟩

/-- A call that copies a registry with a date shows a moment of its own, or was overtaken. -/
theorem Dated.shows (h : Dated m₀ schedule m w.on) (hm : m = m₀.run schedule) (ho : m.Ordered)
    (htime : m.time = schedule.length) (hw : (m.thread i).pending = some w) :
    Shows m₀ (schedule ++ [i]) (m.finish i w)
      ⟨.use w.use, w.on, w.began, m.time + 1, (w.use.run m.pool w.on).1⟩ := by
  intro c hc
  obtain ⟨_, _, _, hregistry⟩ := RegistryUse.copy_of_run hc
  have hbegun : m.Begun w.on w.began := .inr ⟨w, ⟨i, hw⟩, rfl, rfl⟩
  have hbegan : w.began < m.time := (ho.begun _ _ hbegun).2
  have hprefix : schedule <+: schedule ++ [i] := prefix_append _ _
  rcases h with hshared | ⟨e, he, hcall, hlt, hdate⟩
  · refine .inl ⟨schedule, hprefix, ?_, ?_, ?_⟩
    · simp only
      omega
    · simp only
      omega
    · rw [← hm, shared, hshared]
      exact hregistry.symm
  -- a call reads its reference before the registry is replaced
  have hwe : w.began < e.began := ho.begun_lt _ _ _ _ hbegun (.inl ⟨e, he, rfl, rfl⟩) hlt
  rcases hdate with ⟨before, hbefore, hlen, hdate⟩ | ⟨a, ha, hadd, hon, hea⟩
  · have hee := ho.ended e he
    refine .inl ⟨before, hbefore.trans hprefix, ?_, ?_, hdate.trans hregistry.symm⟩
    · simp only
      omega
    · simp only
      omega
  · have hae := ho.begun_lt _ _ _ _ (.inl ⟨a, ha, rfl, rfl⟩) (.inl ⟨e, he, rfl, rfl⟩) (hon ▸ hlt)
    have haa := ho.ended a ha
    exact .inr ⟨e, mem_append_left _ he, a, mem_append_left _ ha, hcall, hadd, hon, hwe,
      hae, hea, Nat.lt_succ_of_le haa.2⟩

/-- What a copy shows does not change with further steps. -/
theorem Shows.step (h : Shows m₀ schedule m e) (ho : m.Ordered) (he : e ∈ m.past) (i : Nat) :
    Shows m₀ (schedule ++ [i]) (m.step i) e := by
  intro c hc
  rcases h c hc with ⟨before, hbefore, hle, hge, hregistry⟩ | ⟨reset, hr, add, ha, hover⟩
  · refine .inl ⟨before, hbefore.trans (prefix_append _ _), hle, hge, hregistry.trans ?_⟩
    exact (ho.registry_copy_step i he hc).symm
  · exact .inr ⟨reset, m.past_subset_step i hr, add, m.past_subset_step i ha, hover⟩

end

/-- Every registry that was shared has a date, and every call that has returned shows a moment. -/
theorem shows_run (h : p.shared.index < p.registries.length) (calls : Nat → List SharedCall)
    (schedule : List Nat) :
    (∀ id t, ((start p calls).run schedule).Begun id t →
      Dated (start p calls) schedule ((start p calls).run schedule) id) ∧
    ∀ e ∈ ((start p calls).run schedule).past,
      Shows (start p calls) schedule ((start p calls).run schedule) e := by
  refine run_induction (P := fun s m => (∀ id t, m.Begun id t → Dated (start p calls) s m id) ∧
    ∀ e ∈ m.past, Shows (start p calls) s m e) ⟨fun id t hb => ?_, fun e he => ?_⟩
    (fun s i hs => ?_) schedule
  · rcases hb with ⟨e, he, _⟩ | ⟨w, ⟨i, hi⟩, _⟩
    · cases he
    · cases hi
  · cases he
  have ho := ordered_run h calls s
  have htime := time_run p calls s
  obtain ⟨hdated, hshows⟩ := hs
  refine ⟨fun id t hb => ?_, fun e he => ?_⟩
  · rcases begun_step hb with hb | ⟨rfl, _⟩
    · exact (hdated id t hb).step rfl ho htime (ho.begun_lt_length hb) i
    · exact .inl rfl
  generalize hm : (start p calls).run s = m at *
  obtain hs | ⟨use, rest, hs⟩ | ⟨w, hw, hs⟩ | ⟨rest, hs⟩ := m.step_cases i
  · have hold : e ∈ m.past := by rwa [hs] at he
    exact (hshows e hold).step ho hold i
  · have hold : e ∈ m.past := by rwa [hs] at he
    exact (hshows e hold).step ho hold i
  · rw [hs] at he
    rcases mem_append.mp he with hold | hnew
    · exact (hshows e hold).step ho hold i
    · obtain rfl := mem_singleton.mp hnew
      rw [hs]
      have hbegun : m.Begun w.on w.began := .inr ⟨w, ⟨i, hw⟩, rfl, rfl⟩
      exact (hdated _ _ hbegun).shows hm.symm ho htime hw
  · rw [hs] at he
    rcases mem_append.mp he with hold | hnew
    · exact (hshows e hold).step ho hold i
    · obtain rfl := mem_singleton.mp hnew
      exact fun c hc => nomatch hc

/-- The calls of a run have an order: in it a call comes after those that ended before it began,
and carried out in it, one after the other, the calls return the copies that they have returned and
lead to the registry that is shared.  A copy has the types that the shared registry had at a moment
of its call, unless the call was overtaken. -/
structure Linearised (p : Pool) (calls : Nat → List SharedCall) (schedule : List Nat)
    (m : Threads) : Prop where
  order : ∃ order : List FinishedCall, order.Perm m.past ∧
    order.Pairwise (fun a b => a.began < b.ended) ∧
    Replays m.pool (p.registry p.shared) order m.shared
  moment : ∀ e ∈ m.past, ∀ c ∈ e.copy,
    (∃ before, before <+: schedule ∧ e.began ≤ before.length ∧ before.length ≤ e.ended ∧
      ((start p calls).run before).shared = m.pool.registry c) ∨
    Overtaken m.past e

/-- **Calls on the shared registry linearise**, for any threads and any schedule. -/
theorem linearises {p : Pool} (h : p.shared.index < p.registries.length)
    (calls : Nat → List SharedCall) (schedule : List Nat) :
    Linearised p calls schedule ((start p calls).run schedule) := by
  have ho := ordered_run h calls schedule
  obtain ⟨earlier, htold⟩ := told_run h calls schedule
  refine ⟨⟨_, ?_, htold.pairwise_flatMap ho, htold.replays_flatMap⟩,
    (shows_run h calls schedule).2⟩
  refine perm_flatMap_callsOn (htold.sorted.imp fun {a b} hlt hab => ?_) fun e he => ?_
  · exact Nat.lt_irrefl _ (hab ▸ hlt)
  · exact htold.begun e.on e.began (.inl ⟨e, he, rfl, rfl⟩)

/-- An empty shared registry, beside one with a type. -/
def aside : Pool :=
  let fixed : Pool.Action :=
    .parse ⟨1⟩ (.schema "\x7b\"type\":\"fixed\",\"name\":\"X\",\"size\":1\x7d")
  (fixed.run ((Pool.Action.create true true []).run .initial).2).2

/-- One thread copies, one enters the type, and one resets. -/
def copyAddReset : Nat → List SharedCall
  | 0 => [.use .copy]
  | 1 => [.use (.add [⟨0⟩])]
  | 2 => [.reset]
  | _ => []

/-- Two references are read, then comes the reset, then the type, then the copy. -/
def lateAddition : List Nat :=
  [0, 1, 2, 1, 0]

theorem linearises_late :
    (aside.shared.index < aside.registries.length ∧
      ((start aside copyAddReset).run lateAddition).past.map (·.call) =
        [.reset, .use (.add [⟨0⟩]), .use .copy]) ∧
      Linearised aside copyAddReset lateAddition
        ((start aside copyAddReset).run lateAddition) :=
  ⟨by decide +kernel, linearises (by decide +kernel) copyAddReset lateAddition⟩

/-- A copy can have a type that the shared registry never has. -/
theorem copy_of_no_moment :
    ∃ e ∈ ((start aside copyAddReset).run lateAddition).past, ∃ c ∈ e.copy,
      (((start aside copyAddReset).run lateAddition).pool.registry c).names = ["X"] ∧
      ∀ before, before <+: lateAddition →
        ((start aside copyAddReset).run before).shared.names = [] := by
  have hmoments : ∀ before ∈ lateAddition.inits,
      ((start aside copyAddReset).run before).shared.names = [] := by decide +kernel
  have hcopy : ∃ e ∈ ((start aside copyAddReset).run lateAddition).past, ∃ c ∈ e.copy,
      (((start aside copyAddReset).run lateAddition).pool.registry c).names = ["X"] := by
    decide +kernel
  obtain ⟨e, he, c, hc, hnames⟩ := hcopy
  exact ⟨e, he, c, hc, hnames, fun before hb => hmoments before ((mem_inits ..).mpr hb)⟩

end Threads

end Avroc
