import Avroc.Proofs.Cache.Compile
import Avroc.Proofs.Process
import Mathlib.Logic.Relation

/-!
# Compilations under way

A compilation through the cache, step by step: the look at the record, the stamps of the inputs one
by one, the steps of the action, and the recording.

* `Cache.Progress.exists_advance` : **steps with nothing in between are a compilation.**
-/

namespace Avroc

variable {previous : Option CacheEntry} {w : World} {d : Disk}

namespace Cache

/-! ### A compilation step by step -/

/-- Looks at the record: the record, and why it does not hold. -/
def inspect (cache : Cache) (source : Path) (inputs : List Path) :
    Build (Option CacheEntry × Option Staleness) := do
  let previous ← cache.load source
  let reason ← (cache.staleness (← currentDisk) previous inputs : Except Error (Option Staleness))
  match reason with
  | none => report .cache .info ("Up to date: " ++ source.text)
  | some reason => report .cache .info ("Compiling " ++ source.text ++ ": " ++ reason.message)
  return (previous, reason)

/-- A compilation looks at the record and goes on from there. -/
theorem compile_eq (cache : Cache) (source : Path) (inputs : List Path)
    (action : Build Compilation) :
    cache.compile source inputs action = cache.inspect source inputs >>= fun x =>
      match x.2 with
      | none => (((x.1.map (·.outputs)).getD []).mapM pathOf : Except Error (List Path))
      | some _ => cache.recompile source inputs x.1 action := by
  rw [compile, inspect, bind_assoc]
  refine congrArg _ (funext fun previous => ?_)
  rw [bind_assoc]
  refine congrArg _ (funext fun disk => ?_)
  rw [bind_assoc]
  refine congrArg _ (funext fun reason => ?_)
  cases reason with
  | none => rfl
  | some reason => rfl

/-- The stamps with that of one more input. -/
def stampNext (d : Disk) (strategy : CacheStrategy) (stamps : List (Json × Json)) (path : Path) :
    Except Error (List (Json × Json)) :=
  match fileStamp d strategy path with
  | .ok stamp => .ok (setPair (.string (d.key path)) stamp stamps)
  | .error fault => .error (.file (.unstampedInput fault) (some path))

theorem stampInputs_eq (d : Disk) (strategy : CacheStrategy) (inputs : List Path) :
    stampInputs d strategy inputs = inputs.foldlM (stampNext d strategy) [] :=
  rfl

/-- How far a compilation has come. -/
inductive Phase
  | idle
  /-- Inputs are left to be stamped. -/
  | stamping (previous : Option CacheEntry) (left : List Path) (stamps : List (Json × Json))
  /-- The action is under way, and took its steps on the disks `seen`. -/
  | acting (previous : Option CacheEntry) (stamps : List (Json × Json)) (seen : List Disk)
      (rest : Process Compilation)

/-- A compilation under way. -/
structure Progress where
  world : World
  phase : Phase
  /-- The disks on which the action of the recorded compilation took its steps. -/
  basis : List Disk

/-- The next step of a compilation; when it is over, the first step of another one. -/
def Progress.advance (cache : Cache) (source : Path) (inputs : List Path)
    (action : Process Compilation) (s : Progress) : Progress :=
  match s.phase with
  | .idle =>
    match outcome (cache.inspect source inputs) s.world with
    | (.ok (previous, some _), world) => { s with world, phase := .stamping previous inputs [] }
    | (_, world) => { s with world }
  | .stamping previous [] stamps => { s with phase := .acting previous stamps [] action }
  | .stamping previous (path :: left) stamps =>
    match stampNext s.world.disk cache.strategy stamps path with
    | .ok stamps => { s with phase := .stamping previous left stamps }
    | .error _ => { s with phase := .idle }
  | .acting previous stamps seen (.step change next) =>
    { s with
      world := change s.world
      phase := .acting previous stamps (s.world.disk :: seen) (next s.world) }
  | .acting _ _ _ (.done (.error _)) => { s with phase := .idle }
  | .acting previous stamps seen (.done (.ok result)) =>
    match outcome (cache.record source previous stamps result) s.world with
    | (.ok _, world) => ⟨world, .idle, seen⟩
    | (.error _, world) => { s with world, phase := .idle }

variable {cache : Cache} {source : Path} {inputs : List Path} {action : Process Compilation}

/-! ### Compilations with nothing in between -/

/-- The second state comes after the first by steps with nothing in between. -/
abbrev Progress.Follows (cache : Cache) (source : Path) (inputs : List Path)
    (action : Process Compilation) : Progress → Progress → Prop :=
  Relation.ReflTransGen fun s s' => s' = s.advance cache source inputs action

theorem Progress.follows_stamping {basis : List Disk} {left : List Path}
    {stamps : List (Json × Json)} :
    (∀ all, left.foldlM (stampNext w.disk cache.strategy) stamps = .ok all →
      Follows cache source inputs action ⟨w, .stamping previous left stamps, basis⟩
        ⟨w, .acting previous all [] action, basis⟩) ∧
    ∀ e, left.foldlM (stampNext w.disk cache.strategy) stamps = .error e →
      Follows cache source inputs action ⟨w, .stamping previous left stamps, basis⟩
        ⟨w, .idle, basis⟩ := by
  induction left generalizing stamps with
  | nil =>
    refine ⟨fun all h => ?_, fun e h => ?_⟩ <;> cases h
    exact .single rfl
  | cons path left ih =>
    rw [List.foldlM_cons]
    cases hs : stampNext w.disk cache.strategy stamps path with
    | error e =>
      refine ⟨fun all h => ?_, fun _ _ => .single ?_⟩
      · cases h
      · simp only [advance, hs]
    | ok more =>
      have hnext : Follows cache source inputs action
          ⟨w, .stamping previous (path :: left) stamps, basis⟩
          ⟨w, .stamping previous left more, basis⟩ := .single (by simp only [advance, hs])
      exact ⟨fun all h => hnext.trans (ih.1 all h), fun e h => hnext.trans (ih.2 e h)⟩

theorem Progress.follows_acting (previous : Option CacheEntry) (stamps : List (Json × Json))
    (basis seen : List Disk) (rest : Process Compilation) (w : World) : ∃ basis',
      Follows cache source inputs action ⟨w, .acting previous stamps seen rest, basis⟩
        ⟨(outcome (rest.run >>= cache.record source previous stamps) w).2, .idle, basis'⟩ := by
  induction rest generalizing w seen with
  | done result =>
    cases result with
    | error e => exact ⟨basis, .single rfl⟩
    | ok result =>
      rw [outcome_bind, Process.outcome_run_done]
      rcases hr : outcome (cache.record source previous stamps result) w with ⟨e | paths, w'⟩
      · exact ⟨basis, .single (by simp only [advance, hr])⟩
      · exact ⟨seen, .single (by simp only [advance, hr])⟩
  | step change next ih =>
    obtain ⟨basis', h⟩ := ih w (w.disk :: seen) (change w)
    rw [outcome_bind] at h ⊢
    exact ⟨basis', .head rfl h⟩

/-- **Steps with nothing in between are a compilation.** -/
theorem Progress.exists_advance (cache : Cache) (source : Path) (inputs : List Path)
    (action : Process Compilation) (w : World) (basis : List Disk) : ∃ basis',
      Follows cache source inputs action ⟨w, .idle, basis⟩
        ⟨(outcome (cache.compile source inputs action.run) w).2, .idle, basis'⟩ := by
  rw [compile_eq, outcome_bind]
  rcases hi : outcome (cache.inspect source inputs) w with ⟨e | ⟨previous, reason⟩, w₁⟩
  · exact ⟨basis, .single (by simp only [advance, hi])⟩
  · cases reason with
    | none =>
      refine ⟨basis, .single ?_⟩
      simp only [advance, hi, outcome_liftM]
    | some reason =>
      have hfirst : Follows cache source inputs action ⟨w, .idle, basis⟩
          ⟨w₁, .stamping previous inputs [], basis⟩ := .single (by simp only [advance, hi])
      dsimp only
      rw [recompile, outcome_currentDisk_bind, outcome_bind, outcome_liftM, stampInputs_eq]
      cases hs : inputs.foldlM (stampNext w₁.disk cache.strategy) [] with
      | error e => exact ⟨basis, hfirst.trans (follows_stamping.2 e hs)⟩
      | ok stamps =>
        obtain ⟨basis', hact⟩ := follows_acting previous stamps basis [] action w₁
        exact ⟨basis', (hfirst.trans (follows_stamping.1 stamps hs)).trans hact⟩

/-! ### The look at the record -/

/-- A look at the record leaves the disk alone. -/
theorem outcome_inspect (hload : outcome (cache.load source) w = (.ok previous, w)) :
    (outcome (cache.inspect source inputs) w).2.disk = w.disk ∧
      ∀ x, (outcome (cache.inspect source inputs) w).1 = .ok x → x.1 = previous := by
  rw [inspect, outcome_bind, hload]
  dsimp only
  rw [outcome_currentDisk_bind, outcome_bind, outcome_liftM]
  cases cache.staleness w.disk previous inputs with
  | error e => exact ⟨rfl, fun x hx => by cases hx⟩
  | ok reason =>
    cases reason <;> exact ⟨rfl, fun x hx => by cases hx; rfl⟩

theorem Progress.disk_advance_idle (hload : outcome (cache.load source) w = (.ok previous, w))
    (basis : List Disk) :
    (Progress.advance cache source inputs action ⟨w, .idle, basis⟩).world.disk = w.disk := by
  obtain ⟨hdisk, -⟩ := outcome_inspect hload
  rcases hi : outcome (cache.inspect source inputs) w with ⟨e | ⟨previous', _ | reason⟩, w'⟩ <;>
    rw [hi] at hdisk <;> simpa only [Progress.advance, hi] using hdisk

/-! ### The file of the record -/

theorem absent_of_kind? (h : d.root.kind? (cache.entryPlace d source) = none) :
    cache.Absent d source := by
  rw [Absent, Bool.eq_false_iff]
  intro hc
  obtain ⟨place, hl, hs⟩ := Disk.contains_eq_true.mp hc
  rw [entryPlace, ← Disk.eq_resolve_of_locate hl] at h
  rw [h] at hs
  cases hs

/-- A record that stands in its place is held, unless no path leads there. -/
theorem absent_or_holds {e : CacheEntry} {time : Int}
    (h : d.root.kind? (cache.entryPlace d source) = some (.file (.text e.text) time)) :
    cache.Absent d source ∨ cache.Holds d source e := by
  cases hc : d.contains (cache.entryPath d source) with
  | false => exact .inl hc
  | true =>
    obtain ⟨place, hl, -⟩ := Disk.contains_eq_true.mp hc
    refine .inr (Disk.readContent_eq_ok.mpr ⟨place, time, hl, ?_⟩)
    rw [Disk.eq_resolve_of_locate hl]
    exact h

end Cache

end Avroc
