import Avroc.Build.Pool
import Avroc.Proofs.Batch.Run
import Avroc.Proofs.Idl.Building

/-!
# The types known after a compilation

A compilation never touches the definitions of the state and the shared registry.  What it learns
grows file by file and is kept up to a failure.

* `onward_compileDirectory` : **the types known after a compilation are those of before and more**,
  whether it succeeds or not, and the shared registry is left alone.
-/

namespace Avroc

variable {b b' : Batch} {known : Snapshot} {w w' : World}

/-! ### What a build leaves alone -/

/-- The step leaves the types of the state alone, whether it succeeds or not. -/
def Aside {α : Type} (x : Build α) : Prop :=
  ∀ w, (outcome x w).2.catalog = w.catalog ∧ (outcome x w).2.shared = w.shared ∧
    (outcome x w).2.learned = w.learned

section
variable {α β : Type} {x : Build α} {f : α → Build β}

theorem Still.aside (h : Still x) : Aside x := by
  intro w
  rw [h w]
  exact ⟨rfl, rfl, rfl⟩

theorem Aside.bind (hx : Aside x) (hf : ∀ a, Aside (f a)) : Aside (x >>= f) := by
  intro w
  have hw := hx w
  rw [outcome_bind]
  rcases hr : outcome x w with ⟨e | a, w₁⟩ <;> rw [hr] at hw
  · exact hw
  · obtain ⟨hcatalog, hshared, hlearned⟩ := hf a w₁
    exact ⟨hcatalog.trans hw.1, hshared.trans hw.2.1, hlearned.trans hw.2.2⟩

theorem aside_pure (a : α) : Aside (pure a : Build α) :=
  (still_pure a).aside

theorem aside_throw (e : Error) : Aside (throw e : Build α) :=
  (still_throw e).aside

theorem aside_report (source : LogSource) (level : LogLevel) (message : String) :
    Aside (report source level message) :=
  fun _ => ⟨rfl, rfl, rfl⟩

theorem aside_currentDisk : Aside currentDisk :=
  fun _ => ⟨rfl, rfl, rfl⟩

theorem aside_readFrom (known : Snapshot) (step : Reading α) : Aside (readFrom known step) :=
  fun _ => ⟨rfl, rfl, rfl⟩

theorem aside_orFail (e : Except Misuse α) : Aside (orFail e) := by
  cases e with
  | ok a => exact aside_pure a
  | error cause => exact aside_throw _

end

theorem aside_writeModule (target : Path) (file : SourceFile) :
    Aside (writeModule target file .calm) := by
  intro w
  have hends := ends_writeModule target file .calm w
  rcases h : outcome (writeModule target file .calm) w with ⟨e | path, w'⟩
  · rcases hends.of_error h with ⟨-, rfl⟩ | ⟨-, hw', -⟩
    · exact ⟨rfl, rfl, rfl⟩
    · rw [hw']
      exact ⟨rfl, rfl, rfl⟩
  · rw [(hends.of_ok h).2.1]
    exact ⟨rfl, rfl, rfl⟩

theorem aside_writeModules (target : Path) (files : List SourceFile) :
    Aside (writeModules target files) := by
  induction files with
  | nil => exact aside_pure _
  | cons file files ih =>
    exact (aside_writeModule target file).bind fun _ => ih.bind fun _ => aside_pure _

theorem aside_reportFailures (failures : List (Path × Error)) :
    Aside (reportFailures failures) := by
  induction failures with
  | nil => exact aside_pure _
  | cons failure failures ih => exact (aside_report _ _ _).bind fun _ => ih

theorem aside_compileEach {compile : Path → Build (List Path)} (h : ∀ path, Aside (compile path))
    (sources : List SourceInput) : Aside (compileEach compile sources) := by
  induction sources with
  | nil => exact aside_pure _
  | cons source sources ih => exact (h source.path).bind fun _ => ih.bind fun _ => aside_pure _

theorem aside_writeProtocol (o : CompileOptions) (target : Path) (c : Catalog)
    (read : Except Error Protocol) : Aside (writeProtocol o target c read) := by
  cases read with
  | error e => exact aside_throw e
  | ok p => exact (aside_orFail _).bind fun files => aside_writeModules target files

theorem aside_reportSkipped (messages : List String) : Aside (reportSkipped messages) := by
  induction messages with
  | nil => exact aside_pure _
  | cons message messages ih => exact (aside_report _ _ _).bind fun _ => ih

theorem aside_findFiles (root : String) (extensions : List String) :
    Aside (findFiles root extensions) := by
  refine aside_currentDisk.bind fun d => (aside_reportSkipped _).bind fun _ => ?_
  split <;> exact aside_pure _

/-! ### Snapshots that grow -/

/-- The registry of the snapshot is in order, and its definitions mention only definitions. -/
structure Snapshot.Sound (k : Snapshot) : Prop where
  keyed : k.registry.Keyed k.catalog
  closed : k.catalog.Closed

/-- The second snapshot has all that the first one has, and is in order. -/
structure Snapshot.Grown (k k' : Snapshot) : Prop where
  kept : k.scope.KeptIn k'.scope
  sound : k'.Sound

namespace Snapshot

variable {k k₁ k' : Snapshot}

theorem Sound.grown (h : k.Sound) : k.Grown k :=
  ⟨.refl _, h⟩

theorem Grown.trans (h : k.Grown k₁) (h' : k₁.Grown k') : k.Grown k' :=
  ⟨h.kept.trans h'.kept, h'.sound⟩

/-- The state that a snapshot starts from. -/
theorem Sound.orderly (h : k.Sound) : k.scope.Orderly k.catalog.size :=
  Scope.orderly_of_closed (s := k.scope) h.keyed h.closed

theorem Sound.of_builds (h : k.Sound) {t : Scope}
    (hb : Scope.Builds True k.catalog.size k.scope t) :
    k.Grown t.snapshot :=
  ⟨(hb.kept (Nat.le_refl _)).snapshot,
    hb.orderly.keyed, hb.closed (Nat.le_refl _) h.keyed h.closed⟩

end Snapshot

/-! ### Types that are learned -/

/-- The definitions of the state and the shared registry stay, and the types that are learned come
on top of those that were. -/
structure World.Onward (w w' : World) : Prop where
  catalog : w'.catalog = w.catalog
  shared : w'.shared = w.shared
  grown : w.learned.Sound → w.learned.Grown w'.learned

theorem World.Onward.trans {w₁ : World} (h : w.Onward w₁) (h' : w₁.Onward w') : w.Onward w' :=
  ⟨h'.catalog.trans h.catalog, h'.shared.trans h.shared,
    fun hw => (h.grown hw).trans (h'.grown (h.grown hw).sound)⟩

instance : Trans World.Onward World.Onward World.Onward := ⟨World.Onward.trans⟩

theorem World.Onward.refl (w : World) : w.Onward w :=
  ⟨rfl, rfl, Snapshot.Sound.grown⟩

/-- What is learned stays when the types are left alone. -/
theorem Aside.leads {α : Type} {x : Build α} (h : Aside x) (w : World) :
    Leads World.Onward w (fun _ w' => w'.learned = w.learned) (outcome x w) := by
  obtain ⟨hcatalog, hshared, hlearned⟩ := h w
  refine ⟨⟨hcatalog, hshared, fun hk => ?_⟩, fun _ _ => hlearned⟩
  rw [hlearned]
  exact hk.grown

section
variable (o : CompileOptions) (sourceRoot target : Path)

/-- **A try at a file learns the types that the batch comes to know.** -/
theorem leads_attempt (source : SourceInput) (hb : b.known = w.learned) :
    Leads World.Onward w (fun r w' => r.2.known = w'.learned)
      (outcome (attempt o sourceRoot target b source) w) := by
  unfold attempt
  refine (aside_currentDisk.leads w).bind fun d w₁ _ h₁ => ?_
  have hread : Leads World.Onward w₁ (fun r w₂ => w₂.learned = w₁.learned ∧
        r = ((outcome (Idl.readSchemaFile d source.path) b.known.scope).1,
          (outcome (Idl.readSchemaFile d source.path) b.known.scope).2.snapshot))
      (outcome (readFrom b.known (Idl.readSchemaFile d source.path)) w₁) :=
    ⟨((aside_readFrom _ _).leads w₁).rel, fun _ hr => ⟨rfl, (Except.ok.inj hr).symm⟩⟩
  refine hread.bind ?_
  rintro _ w₂ _ ⟨h₂, rfl⟩
  have hb₂ : b.known = w₂.learned := (hb.trans h₁.symm).trans h₂.symm
  have hbuilds : b.known.Sound → Scope.Builds True b.known.catalog.size b.known.scope
      (outcome (Idl.readSchemaFile d source.path) b.known.scope).2 := fun hk =>
    (Idl.leads_readSchemaFile hk.orderly source.path).rel
  generalize outcome (Idl.readSchemaFile d source.path) b.known.scope = read at hbuilds ⊢
  obtain ⟨e | type, t⟩ := read <;> dsimp only <;> split
  · exact leads_pure (.refl w₂) hb₂
  · exact leads_throw (.refl w₂) e
  · exact ((aside_report _ _ _).leads w₂).bind fun _ w₃ _ h₃ =>
      leads_pure (.refl w₃) (hb₂.trans h₃.symm)
  · refine ((aside_report _ _ _).leads w₂).bind fun _ w₃ _ h₃ => ?_
    refine ((aside_orFail _).leads w₃).bind fun files w₄ _ h₄ => ?_
    refine ((aside_writeModules target files).leads w₄).bind fun paths w₅ _ h₅ => ?_
    refine ⟨⟨rfl, rfl, fun hk => ?_⟩, fun _ hr => by cases hr; rfl⟩
    rw [h₅, h₄, h₃, ← hb₂] at hk ⊢
    -- adding the new types to the known ones gives the registry in which the file was read
    have hnew : b.known.registry.addAll t.catalog (t.registry.newTypes b.known.registry.names) =
        t.registry := (hbuilds hk).addAll_newTypes (Nat.le_refl _)
    show b.known.Grown ⟨t.catalog, b.known.registry.addAll t.catalog
      (t.registry.newTypes b.known.registry.names)⟩
    rw [hnew]
    exact hk.of_builds (hbuilds hk)

theorem leads_round (sources : List SourceInput) (hb : b.known = w.learned) :
    Leads World.Onward w (fun r w' => r.2.known = w'.learned)
      (outcome (round o sourceRoot target b sources) w) := by
  induction sources generalizing b w with
  | nil => exact leads_pure (.refl w) hb
  | cons source sources ih =>
    exact (leads_attempt o sourceRoot target source hb).bind fun _ _ _ hb₁ =>
      (ih hb₁).bind fun _ w₂ _ hb₂ => leads_pure (.refl w₂) hb₂

theorem leads_rounds (bound : Nat) (pending : List SourceInput) (hb : b.known = w.learned) :
    Leads World.Onward w (fun b' w' => b'.known = w'.learned)
      (outcome (rounds o sourceRoot target bound pending b) w) := by
  induction bound generalizing pending b w with
  | zero => exact leads_pure (.refl w) hb
  | succ bound ih =>
    unfold rounds
    split
    · exact leads_pure (.refl w) hb
    · refine (leads_round o sourceRoot target pending hb).bind fun _ w₁ _ hb₁ => ?_
      dsimp only
      split
      · exact leads_pure (.refl w₁) hb₁
      · exact ih _ hb₁

theorem leads_compileFormat {known : Snapshot} (format : SourceFormat) (files : List SourceInput)
    (hk : known = w.learned) :
    Leads World.Onward w (fun r w' => r.2.2 = w'.learned)
      (outcome (compileFormat o sourceRoot target known format files) w) := by
  cases format with
  | idl =>
    refine ((aside_compileEach (fun path => ?_) files).leads w).bind fun _ w₁ _ h₁ =>
      leads_pure (.refl w₁) (hk.trans h₁.symm)
    refine (aside_report _ _ _).bind fun _ => aside_currentDisk.bind fun d => ?_
    exact (aside_readFrom _ _).bind fun _ => aside_writeProtocol o target _ _
  | protocol =>
    refine ((aside_compileEach (fun path => ?_) files).leads w).bind fun _ w₁ _ h₁ =>
      leads_pure (.refl w₁) (hk.trans h₁.symm)
    refine (aside_report _ _ _).bind fun _ => aside_currentDisk.bind fun d => ?_
    exact (aside_readFrom _ _).bind fun _ => aside_writeProtocol o target _ _
  | schema =>
    refine Leads.bind (Q := fun b w' => b.known = w'.learned) ?_
      fun _ w₁ _ h₁ => leads_pure (.refl w₁) h₁
    refine (leads_rounds o sourceRoot target files.length files hk).bind fun b w₁ _ hb => ?_
    exact ((aside_reportFailures b.failures).leads w₁).bind fun _ w₂ _ h₂ =>
      leads_pure (.refl w₂) (hb.trans h₂.symm)

theorem leads_compileFormats {known : Snapshot} (sources : List (SourceFormat × List SourceInput))
    (hk : known = w.learned) :
    Leads World.Onward w (fun r w' => r.2.2 = w'.learned)
      (outcome (compileFormats o sourceRoot target known sources) w) := by
  induction sources generalizing known w with
  | nil => exact leads_pure (.refl w) hk
  | cons source sources ih =>
    exact (leads_compileFormat o sourceRoot target _ _ hk).bind fun _ _ _ h₁ =>
      (ih h₁).bind fun _ w₂ _ h₂ => leads_pure (.refl w₂) h₂

end

/-- **The types known after a compilation are those of before and more**, whether it succeeds or
not, and the shared registry is left alone. -/
theorem onward_compileDirectory (o : CompileOptions) (source target : Path) (known : Registry)
    (w : World) :
    World.Onward { w with learned := ⟨w.catalog, known⟩ }
      (outcome (compileDirectory o source target known) w).2 := by
  have hsame : outcome (compileDirectory o source target known) w =
      outcome (compileDirectory o source target known) { w with learned := ⟨w.catalog, known⟩ } :=
    rfl
  rw [hsame]
  generalize hw : { w with learned := ⟨w.catalog, known⟩ } = w₁
  have hlearned : w₁.learned = ⟨w₁.catalog, known⟩ := by rw [← hw]
  refine (Leads.bind (Q := fun _ w' => w' = w₁) (P := fun _ _ => True) ⟨?_, fun _ _ => ?_⟩ ?_).rel
  · rw [← hw]
    exact .refl _
  · rw [← hw]
    rfl
  rintro _ _ _ rfl
  refine ((aside_report _ _ _).leads _).bind fun _ w₂ r₂ h₂ => ?_
  refine (((aside_findFiles _ _).bind fun _ => aside_pure _).leads w₂).bind
    fun sources w₃ r₃ h₃ => ?_
  rw [outcome_get_bind]
  have hknown : ⟨w₃.catalog, known⟩ = w₃.learned := by
    rw [h₃, h₂, hlearned, r₃.catalog, r₂.catalog]
  refine (leads_compileFormats o source target sources hknown).bind fun _ w₄ _ _ => ?_
  exact ((aside_findFiles _ _).leads w₄).bind fun _ w₅ _ _ => leads_pure (.refl w₅) trivial

end Avroc
