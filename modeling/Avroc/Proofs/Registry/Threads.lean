import Avroc.Proofs.Registry.Isolation
import Mathlib.Data.List.Induction
import Mathlib.Logic.Function.Basic

/-!
# Threads that share a registry

Threads copy the shared registry, enter types in it or put an empty one in its place.  Copying and
entering take two steps: the reference to the shared registry is read first and the registry is
used afterwards, so that other threads can come in between.

* `Threads.Ordered`, `Threads.ordered_run` : **references are read in the order in which registries
  were shared**, and copies are apart from what is shared.
-/

namespace Avroc

open List

variable {i t : Nat} {id c : RegistryId} {m : Threads}

/-- What is done with a registry once the reference to it is read. -/
inductive RegistryUse
  | copy
  | add (types : List TypeId)
deriving DecidableEq, Repr

/-- The copy that is made, if one is, and the pool afterwards. -/
def RegistryUse.run (p : Pool) (id : RegistryId) : RegistryUse → Option RegistryId × Pool
  | copy => (some (p.snapshot id).1, (p.snapshot id).2)
  | add types => (none, p.addTypes id types)

/-- A call on the shared registry. -/
inductive SharedCall
  | reset
  | use (use : RegistryUse)
deriving DecidableEq, Repr

/-- The shared registry after a call that nothing comes in between of. -/
def SharedCall.after (c : Catalog) (r : Registry) : SharedCall → Registry
  | reset => .empty
  | use .copy => r
  | use (.add types) => r.addAll c types

/-- A call that has read its reference and not used it. -/
structure PendingUse where
  use : RegistryUse
  on : RegistryId
  began : Nat

/-- A call that has returned. -/
structure FinishedCall where
  call : SharedCall
  /-- The registry that the call worked on, for a reset the one that it shared. -/
  on : RegistryId
  /-- The moment before the first step of the call. -/
  began : Nat
  /-- The moment after its last step. -/
  ended : Nat
  copy : Option RegistryId

/-- A thread: the call that it is in, and those that it has still to make. -/
structure Thread where
  pending : Option PendingUse
  calls : List SharedCall

/-- Threads over one pool of registries. -/
structure Threads where
  pool : Pool
  thread : Nat → Thread
  /-- The calls that have returned, in the order of their last steps. -/
  past : List FinishedCall
  /-- The number of steps so far. -/
  time : Nat

namespace Threads

/-- Threads that have not begun. -/
def start (p : Pool) (calls : Nat → List SharedCall) : Threads :=
  ⟨p, fun i => ⟨none, calls i⟩, [], 0⟩

/-- The registry that is shared. -/
def shared (m : Threads) : Registry :=
  m.pool.registry m.pool.shared

/-- A step of a thread that is through. -/
def wait (m : Threads) : Threads :=
  { m with time := m.time + 1 }

/-- A thread reads the reference to the shared registry. -/
def read (m : Threads) (i : Nat) (use : RegistryUse) (rest : List SharedCall) : Threads :=
  { m with
    thread := Function.update m.thread i ⟨some ⟨use, m.pool.shared, m.time⟩, rest⟩
    time := m.time + 1 }

/-- A thread uses the registry that it has the reference of. -/
def finish (m : Threads) (i : Nat) (w : PendingUse) : Threads where
  pool := (w.use.run m.pool w.on).2
  thread := Function.update m.thread i ⟨none, (m.thread i).calls⟩
  past := m.past ++ [⟨.use w.use, w.on, w.began, m.time + 1, (w.use.run m.pool w.on).1⟩]
  time := m.time + 1

/-- A thread shares a new registry. -/
def reset (m : Threads) (i : Nat) (rest : List SharedCall) : Threads where
  pool := m.pool.reset
  thread := Function.update m.thread i ⟨none, rest⟩
  past := m.past ++ [⟨.reset, m.pool.reset.shared, m.time, m.time + 1, none⟩]
  time := m.time + 1

/-- The next step of a thread. -/
def step (m : Threads) (i : Nat) : Threads :=
  match (m.thread i).pending, (m.thread i).calls with
  | some w, _ => m.finish i w
  | none, [] => m.wait
  | none, .reset :: rest => m.reset i rest
  | none, .use use :: rest => m.read i use rest

/-- The steps of the threads of a schedule. -/
def run (m : Threads) (schedule : List Nat) : Threads :=
  schedule.foldl step m

theorem run_concat (m : Threads) (schedule : List Nat) (i : Nat) :
    m.run (schedule ++ [i]) = (m.run schedule).step i := by
  simp [run]

/-- What a step can be. -/
theorem step_cases (m : Threads) (i : Nat) :
    m.step i = m.wait ∨ (∃ use rest, m.step i = m.read i use rest) ∨
      (∃ w, (m.thread i).pending = some w ∧ m.step i = m.finish i w) ∨
      ∃ rest, m.step i = m.reset i rest := by
  unfold step
  split
  · next w hw => exact .inr (.inr (.inl ⟨w, hw, rfl⟩))
  · exact .inl rfl
  · next rest _ _ => exact .inr (.inr (.inr ⟨rest, rfl⟩))
  · next use rest _ _ => exact .inr (.inl ⟨use, rest, rfl⟩)

theorem time_step (m : Threads) (i : Nat) : (m.step i).time = m.time + 1 := by
  obtain h | ⟨_, _, h⟩ | ⟨_, _, h⟩ | ⟨_, h⟩ := m.step_cases i <;> rw [h] <;> rfl

/-- What holds of the start and is kept by every step holds after every run. -/
theorem run_induction {P : List Nat → Threads → Prop} (hstart : P [] m)
    (hstep : ∀ schedule i, P schedule (m.run schedule) →
      P (schedule ++ [i]) ((m.run schedule).step i)) (schedule : List Nat) :
    P schedule (m.run schedule) := by
  induction schedule using List.reverseRecOn with
  | nil => exact hstart
  | append_singleton schedule i ih =>
    rw [run_concat]
    exact hstep schedule i ih

theorem time_run (p : Pool) (calls : Nat → List SharedCall) (schedule : List Nat) :
    ((start p calls).run schedule).time = schedule.length := by
  refine run_induction (P := fun s m => m.time = s.length) rfl (fun s i hs => ?_) schedule
  rw [time_step, hs, length_append, length_singleton]

end Threads

/-! ### Registries under the steps -/

namespace RegistryUse

variable (p : Pool) (use : RegistryUse) (id : RegistryId)

@[simp] theorem run_catalog : (use.run p id).2.catalog = p.catalog := by
  cases use <;> rfl

@[simp] theorem run_shared : (use.run p id).2.shared = p.shared := by
  cases use <;> rfl

theorem le_length_run : p.registries.length ≤ (use.run p id).2.registries.length := by
  cases use <;> simp [run, Pool.snapshot, Pool.create, Pool.addTypes, Pool.update]

variable {p use id}

/-- Only the registry that types are entered in changes. -/
theorem registry_run {other : RegistryId} (h : other.index < p.registries.length)
    (hne : other = id → use = .copy) : (use.run p id).2.registry other = p.registry other := by
  cases use with
  | copy => exact Pool.registry_create_of_lt h _
  | add types =>
    exact Pool.registry_update_of_ne (fun he => RegistryUse.noConfusion (hne he.symm)) _

/-- The registry that is used is as after a call that nothing comes in between of. -/
theorem registry_run_self (h : id.index < p.registries.length) :
    (use.run p id).2.registry id = (SharedCall.use use).after p.catalog (p.registry id) := by
  cases use with
  | copy => exact Pool.registry_create_of_lt h _
  | add types => exact Pool.registry_update_self h _

theorem registry_copy : (p.snapshot id).2.registry (p.snapshot id).1 = p.registry id := by
  simp [Pool.snapshot, Pool.create, Pool.registry, getD_eq_getElem?_getD]

/-- What is returned is a new registry. -/
theorem copy_of_run (h : c ∈ (use.run p id).1) :
    use = .copy ∧ c = ⟨p.registries.length⟩ ∧
      (use.run p id).2.registries.length = p.registries.length + 1 ∧
      (use.run p id).2.registry c = p.registry id := by
  cases use with
  | add types => cases h
  | copy =>
    cases h
    exact ⟨rfl, rfl, by simp [run, Pool.snapshot, Pool.create], registry_copy⟩

end RegistryUse

namespace Pool

variable (p : Pool)

@[simp] theorem reset_shared : p.reset.shared = ⟨p.registries.length⟩ := rfl

@[simp] theorem length_reset : p.reset.registries.length = p.registries.length + 1 := by
  simp [reset, create]

theorem registry_reset_of_lt {p : Pool} (h : id.index < p.registries.length) :
    p.reset.registry id = p.registry id :=
  registry_create_of_lt h .empty

theorem registry_reset_shared : p.reset.registry p.reset.shared = .empty := by
  simp [reset, create, registry, getD_eq_getElem?_getD]

end Pool

namespace Threads

/-! ### When references are read -/

/-- A thread holds the reference that a call has read. -/
def Holds (m : Threads) (w : PendingUse) : Prop :=
  ∃ i, (m.thread i).pending = some w

/-- A call has taken the registry as the shared one at some step. -/
def Begun (m : Threads) (id : RegistryId) (t : Nat) : Prop :=
  (∃ e ∈ m.past, e.on = id ∧ e.began = t) ∨ ∃ w, m.Holds w ∧ w.on = id ∧ w.began = t

/-- A thread that goes on holds the reference that it has read, if one. -/
theorem holds_of_update {q : Thread} {w : PendingUse}
    (h : ∃ j, (Function.update m.thread i q j).pending = some w) :
    q.pending = some w ∨ m.Holds w := by
  obtain ⟨j, hj⟩ := h
  by_cases hji : j = i
  · subst hji
    rw [Function.update_self] at hj
    exact .inl hj
  · rw [Function.update_of_ne hji] at hj
    exact .inr ⟨j, hj⟩

/-- **One step**: a registry that is taken as the shared one is shared after the step. -/
theorem begun_step (h : (m.step i).Begun id t) :
    m.Begun id t ∨ id = (m.step i).pool.shared ∧ t = m.time := by
  obtain he | ⟨use, rest, he⟩ | ⟨w, hw, he⟩ | ⟨rest, he⟩ := m.step_cases i <;> rw [he] at h ⊢
  · exact .inl h
  · rcases h with h | ⟨w, hw, hid, ht⟩
    · exact .inl (.inl h)
    rcases holds_of_update hw with hq | hw
    · cases hq
      exact .inr ⟨hid.symm, ht.symm⟩
    · exact .inl (.inr ⟨w, hw, hid, ht⟩)
  · rcases h with ⟨e, hmem, hid, ht⟩ | ⟨v, hv, hid, ht⟩
    · rcases mem_append.mp hmem with hmem | hmem
      · exact .inl (.inl ⟨e, hmem, hid, ht⟩)
      · obtain rfl := mem_singleton.mp hmem
        exact .inl (.inr ⟨w, ⟨i, hw⟩, hid, ht⟩)
    · rcases holds_of_update hv with hq | hv
      · cases hq
      · exact .inl (.inr ⟨v, hv, hid, ht⟩)
  · rcases h with ⟨e, hmem, hid, ht⟩ | ⟨v, hv, hid, ht⟩
    · rcases mem_append.mp hmem with hmem | hmem
      · exact .inl (.inl ⟨e, hmem, hid, ht⟩)
      · obtain rfl := mem_singleton.mp hmem
        exact .inr ⟨hid.symm, ht.symm⟩
    · rcases holds_of_update hv with hq | hv
      · cases hq
      · exact .inl (.inr ⟨v, hv, hid, ht⟩)

/-- After a step the registry that is shared is the same or a new one. -/
theorem shared_step (m : Threads) (i : Nat) : (m.step i).pool.shared = m.pool.shared ∨
    (m.step i).pool.shared = ⟨m.pool.registries.length⟩ := by
  obtain he | ⟨use, rest, he⟩ | ⟨w, hw, he⟩ | ⟨rest, he⟩ := m.step_cases i <;> rw [he]
  · exact .inl rfl
  · exact .inl rfl
  · exact .inl (RegistryUse.run_shared ..)
  · exact .inr rfl

/-- References are read in the order in which registries were shared, calls end in the order of
`past`, and copies are apart from all registries that were shared. -/
structure Ordered (m : Threads) : Prop where
  shared : m.pool.shared.index < m.pool.registries.length
  begun : ∀ id t, m.Begun id t → id.index ≤ m.pool.shared.index ∧ t < m.time
  begun_lt : ∀ id t id' t', m.Begun id t → m.Begun id' t' → id.index < id'.index → t < t'
  ended : ∀ e ∈ m.past, e.began < e.ended ∧ e.ended ≤ m.time
  sorted : m.past.Pairwise fun a b => a.ended < b.ended
  copies : ∀ e ∈ m.past, ∀ c ∈ e.copy, c.index < m.pool.registries.length ∧
    c ≠ m.pool.shared ∧ ∀ id t, m.Begun id t → id ≠ c

namespace Ordered

variable {m : Threads} (h : m.Ordered)
include h

theorem begun_lt_length (hb : m.Begun id t) : id.index < m.pool.registries.length :=
  Nat.lt_of_le_of_lt (h.begun id t hb).1 h.shared

theorem le_shared_step (i : Nat) : m.pool.shared.index ≤ (m.step i).pool.shared.index := by
  rcases m.shared_step i with he | he
  · exact Nat.le_of_eq (congrArg _ he.symm)
  · rw [he]
    exact Nat.le_of_lt h.shared

theorem length_step (i : Nat) :
    m.pool.registries.length ≤ (m.step i).pool.registries.length ∧
      (m.step i).pool.shared.index < (m.step i).pool.registries.length := by
  have hs := h.shared
  obtain he | ⟨use, rest, he⟩ | ⟨w, hw, he⟩ | ⟨rest, he⟩ := m.step_cases i <;> rw [he]
  · exact ⟨Nat.le_refl _, hs⟩
  · exact ⟨Nat.le_refl _, hs⟩
  · have hle := w.use.le_length_run m.pool w.on
    refine ⟨hle, ?_⟩
    simp only [finish, RegistryUse.run_shared]
    omega
  · simp [reset]

/-- The calls that have returned after a step: those before, and perhaps one that ends with the
step. -/
theorem past_step (i : Nat) : (m.step i).past = m.past ∨
    ∃ e : FinishedCall, (m.step i).past = m.past ++ [e] ∧ e.began < e.ended ∧
      e.ended = m.time + 1 ∧ ∀ c ∈ e.copy, c = ⟨m.pool.registries.length⟩ ∧
        (m.step i).pool.shared = m.pool.shared ∧
        c.index < (m.step i).pool.registries.length := by
  obtain he | ⟨use, rest, he⟩ | ⟨w, hw, he⟩ | ⟨rest, he⟩ := m.step_cases i <;> rw [he]
  · exact .inl rfl
  · exact .inl rfl
  · refine .inr ⟨_, rfl, ?_, rfl, fun c hc => ?_⟩
    · have := (h.begun w.on w.began (.inr ⟨w, ⟨i, hw⟩, rfl, rfl⟩)).2
      simp only
      omega
    · obtain ⟨_, hc, hlen, _⟩ := RegistryUse.copy_of_run hc
      refine ⟨hc, RegistryUse.run_shared .., ?_⟩
      rw [hc, finish, hlen]
      exact Nat.lt_succ_self _
  · exact .inr ⟨_, rfl, Nat.lt_succ_self _, rfl, fun c hc => nomatch hc⟩

theorem step (i : Nat) : (m.step i).Ordered := by
  have hlen := h.length_step i
  have hle := h.le_shared_step i
  -- a call that begins with the step has the last reference and the last time
  have hbegun (id t) (hb : (m.step i).Begun id t) :
      id.index ≤ (m.step i).pool.shared.index ∧ t < m.time + 1 := by
    rcases begun_step hb with hb | ⟨rfl, rfl⟩
    · have := h.begun id t hb
      omega
    · exact ⟨Nat.le_refl _, Nat.lt_succ_self _⟩
  refine ⟨hlen.2, fun id t hb => ?_, fun id t id' t' hb hb' hlt => ?_, ?_, ?_, ?_⟩
  · rw [time_step]
    exact hbegun id t hb
  · rcases begun_step hb with hold | ⟨rfl, rfl⟩
    · rcases begun_step hb' with hold' | ⟨rfl, rfl⟩
      · exact h.begun_lt id t id' t' hold hold' hlt
      · exact (h.begun id t hold).2
    · have := (hbegun id' t' hb').1
      omega
  · intro e he
    rw [time_step]
    rcases h.past_step i with hp | ⟨e', hp, hlt, heq, _⟩ <;> rw [hp] at he
    · have := h.ended e he
      omega
    · rcases mem_append.mp he with he | he
      · have := h.ended e he
        omega
      · obtain rfl := mem_singleton.mp he
        omega
  · rcases h.past_step i with hp | ⟨e', hp, hlt, heq, _⟩ <;> rw [hp]
    · exact h.sorted
    · refine pairwise_append.mpr ⟨h.sorted, pairwise_singleton _ _, fun a ha b hb => ?_⟩
      obtain rfl := mem_singleton.mp hb
      have := h.ended a ha
      omega
  · -- an old copy is none of the registries that are shared, and a new one is the last registry
    have hold (e) (he : e ∈ m.past) (c) (hc : c ∈ e.copy) :
        c.index < (m.step i).pool.registries.length ∧ c ≠ (m.step i).pool.shared ∧
          ∀ id t, (m.step i).Begun id t → id ≠ c := by
      obtain ⟨hlt, hne, hbegun⟩ := h.copies e he c hc
      have hne' : c ≠ (m.step i).pool.shared := by
        rcases m.shared_step i with hs | hs <;> rw [hs]
        · exact hne
        · rintro rfl
          exact Nat.lt_irrefl _ hlt
      refine ⟨Nat.lt_of_lt_of_le hlt hlen.1, hne', fun id t hb => ?_⟩
      rcases begun_step hb with hb | ⟨rfl, rfl⟩
      · exact hbegun id t hb
      · exact hne'.symm
    intro e he c hc
    rcases h.past_step i with hp | ⟨e', hp, _, _, hcopy⟩ <;> rw [hp] at he
    · exact hold e he c hc
    · rcases mem_append.mp he with he | he
      · exact hold e he c hc
      · obtain rfl := mem_singleton.mp he
        obtain ⟨rfl, hshared, hlt⟩ := hcopy c hc
        have hs := h.shared
        refine ⟨hlt, fun hcs => ?_, fun id t hb hid => ?_⟩
        · rw [hshared] at hcs
          rw [← hcs] at hs
          exact Nat.lt_irrefl _ hs
        · have := (hbegun id t hb).1
          rw [hid, hshared] at this
          simp only at this
          omega

end Ordered

theorem ordered_run {p : Pool} (h : p.shared.index < p.registries.length)
    (calls : Nat → List SharedCall) (schedule : List Nat) :
    ((start p calls).run schedule).Ordered := by
  have hnone (id t) : ¬ (start p calls).Begun id t := by
    rintro (⟨e, he, _⟩ | ⟨w, ⟨i, hi⟩, _⟩)
    · cases he
    · cases hi
  have hstart : (start p calls).Ordered := by
    refine ⟨h, fun id t hb => (hnone id t hb).elim, fun id t _ _ hb => (hnone id t hb).elim,
      ?_, .nil, ?_⟩ <;> intro e he <;> cases he
  exact run_induction (P := fun _ m => m.Ordered) hstart (fun s i hs => hs.step i) schedule

/-! ### What a step does to registries -/

theorem catalog_step (m : Threads) (i : Nat) : (m.step i).pool.catalog = m.pool.catalog := by
  obtain he | ⟨use, rest, he⟩ | ⟨w, hw, he⟩ | ⟨rest, he⟩ := m.step_cases i <;> rw [he]
  · rfl
  · rfl
  · exact RegistryUse.run_catalog ..
  · rfl

/-- A step changes no registry but the one that types are entered in. -/
theorem registry_step (hlt : id.index < m.pool.registries.length)
    (hne : ∀ w, (m.thread i).pending = some w → id = w.on → w.use = .copy) :
    (m.step i).pool.registry id = m.pool.registry id := by
  obtain he | ⟨use, rest, he⟩ | ⟨w, hw, he⟩ | ⟨rest, he⟩ := m.step_cases i <;> rw [he]
  · rfl
  · rfl
  · exact RegistryUse.registry_run hlt (hne w hw)
  · exact Pool.registry_reset_of_lt hlt

/-- A copy that was returned stays as it is. -/
theorem Ordered.registry_copy_step (h : m.Ordered) (i : Nat) {e : FinishedCall} (he : e ∈ m.past)
    (hc : c ∈ e.copy) : (m.step i).pool.registry c = m.pool.registry c := by
  obtain ⟨hlt, _, hbegun⟩ := h.copies e he c hc
  refine registry_step hlt fun w hw hcw => ?_
  exact (hbegun w.on w.began (.inr ⟨w, ⟨i, hw⟩, rfl, rfl⟩) hcw.symm).elim

end Threads

end Avroc
