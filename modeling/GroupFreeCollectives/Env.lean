import GroupFreeCollectives.Validation

/-!
# The environment overrides

`gfc/env.py` reads the `SYMM_COLL_*` flags into a record, and the constructor of the
runtime replaces the overridden fields one after the other.  Every replacement builds a
new configuration and so runs the whole validation on the mixture of old and new fields
reached so far.

The checks concern one field each, or a field and one that no flag sets, with one
exception: `pipeline_chunks` against `max_pipeline_chunks`, where the bound is replaced
first.  So the steps amount to one replacement of all the fields, unless the new bound is
below the chunk count that is still in place (`overrides_as_one_iff`).
-/

namespace GroupFreeCollectives

/-- `_EnvOverrides`, without `dump_signals`, which nothing reads. -/
structure EnvOverrides where
  debug : Bool := false
  useTma : Bool := false
  useCopyEngine : Bool := false
  copySms : Option ℤ := none
  timeoutMs : Option ℤ := none
  pipelineChunks : Option ℤ := none
  maxPipelineChunks : Option ℤ := none
  enableFusedPath : Option Bool := none
  fusedNumChannels : Option ℤ := none
  fusedChunkSize : Option ℤ := none
  autotuneConfigPath : Option String := none
  deriving DecidableEq, Repr

namespace SymmetricCollectiveConfig

/-- `_replace`: build the configuration with the field replaced, which validates it. -/
def replace (c : SymmetricCollectiveConfig) : Except PyError SymmetricCollectiveConfig := do
  c.postInit
  pure c

/-- Replace a field if the environment sets it. -/
def replaceIfSet {α : Type} (o : Option α) (set : α → SymmetricCollectiveConfig)
    (c : SymmetricCollectiveConfig) : Except PyError SymmetricCollectiveConfig :=
  match o with
  | some v => replace (set v)
  | none => pure c

theorem replace_eq_ok_iff {c c' : SymmetricCollectiveConfig} :
    replace c = .ok c' ↔ c.Valid ∧ c' = c := by
  rw [← postInit_eq_ok_iff_valid, replace]
  cases c.postInit with
  | error e => simp [bind, Except.bind]
  | ok u => simp [bind, Except.bind, pure, Except.pure, eq_comm]

/-- A field that may be replaced: afterwards it has its new value, or still the old one. -/
theorem replaceIfSet_eq_ok_iff {α : Type} {o : Option α} {set : α → SymmetricCollectiveConfig}
    {c c' : SymmetricCollectiveConfig} (h : c.Valid) (old : α) (hold : set old = c) :
    replaceIfSet o set c = .ok c' ↔ c'.Valid ∧ c' = set (o.getD old) := by
  cases o with
  | some v =>
    rw [replaceIfSet, replace_eq_ok_iff]
    exact and_congr_left fun heq => by rw [heq]
  | none =>
    rw [Option.getD_none, hold, replaceIfSet]
    constructor
    · intro heq
      exact ⟨Except.ok.inj heq ▸ h, (Except.ok.inj heq).symm⟩
    · rintro ⟨-, rfl⟩
      rfl

theorem exists_replaceIfSet_ok {α : Type} {o : Option α} {set : α → SymmetricCollectiveConfig}
    {c : SymmetricCollectiveConfig} (h : c.Valid) (old : α) (hold : set old = c)
    (hnew : (set (o.getD old)).Valid) : ∃ r, replaceIfSet o set c = .ok r :=
  ⟨_, (replaceIfSet_eq_ok_iff h old hold).mpr ⟨hnew, rfl⟩⟩

/-- The rest of a run from a step whose new configuration is valid. -/
theorem exists_bind_ok {α : Type} {o : Option α} {set : α → SymmetricCollectiveConfig}
    {c : SymmetricCollectiveConfig}
    {f : SymmetricCollectiveConfig → Except PyError SymmetricCollectiveConfig} (h : c.Valid)
    (old : α) (hold : set old = c) (hnew : (set (o.getD old)).Valid)
    (hrest : ∀ d, d.Valid → d = set (o.getD old) → ∃ r, f d = .ok r) :
    ∃ r, (replaceIfSet o set c >>= f) = .ok r := by
  obtain ⟨r, hr⟩ := hrest _ hnew rfl
  refine ⟨r, bind_ok_iff.mpr ⟨_, ?_, hr⟩⟩
  exact (replaceIfSet_eq_ok_iff h old hold).mpr ⟨hnew, rfl⟩

end SymmetricCollectiveConfig

namespace EnvOverrides

open SymmetricCollectiveConfig

variable (env : EnvOverrides)

/-- A flag of the source that only switches on. -/
def whenOn (b : Bool) : Option Bool := if b then some true else none

/-- The first lines of `SymmetricCollectiveRuntime.__init__`. -/
def apply (config : SymmetricCollectiveConfig) : Except PyError SymmetricCollectiveConfig := do
  let config ← replaceIfSet (whenOn env.debug)
    (fun v => { config with enableDebugChecks := v }) config
  let config ← replaceIfSet (whenOn env.useTma) (fun v => { config with useTma := v }) config
  let config ← replaceIfSet (whenOn env.useCopyEngine)
    (fun v => { config with useCopyEngine := v }) config
  let config ← replaceIfSet env.copySms (fun v => { config with copySms := v }) config
  let config ← replaceIfSet env.timeoutMs (fun v => { config with timeoutMs := v }) config
  let config ← replaceIfSet env.maxPipelineChunks
    (fun v => { config with maxPipelineChunks := v }) config
  let config ← replaceIfSet env.pipelineChunks
    (fun v => { config with pipelineChunks := v }) config
  let config ← replaceIfSet env.enableFusedPath
    (fun v => { config with enableFusedPath := v }) config
  let config ← replaceIfSet env.fusedNumChannels
    (fun v => { config with fusedNumChannels := v }) config
  let config ← replaceIfSet env.fusedChunkSize
    (fun v => { config with fusedChunkSize := v }) config
  replaceIfSet (env.autotuneConfigPath.map some)
    (fun v => { config with autotuneConfigPath := v }) config

/-- All the overridden fields replaced at once. -/
def combined (config : SymmetricCollectiveConfig) : SymmetricCollectiveConfig :=
  { config with
    enableDebugChecks := (whenOn env.debug).getD config.enableDebugChecks
    useTma := (whenOn env.useTma).getD config.useTma
    useCopyEngine := (whenOn env.useCopyEngine).getD config.useCopyEngine
    copySms := env.copySms.getD config.copySms
    timeoutMs := env.timeoutMs.getD config.timeoutMs
    maxPipelineChunks := env.maxPipelineChunks.getD config.maxPipelineChunks
    pipelineChunks := env.pipelineChunks.getD config.pipelineChunks
    enableFusedPath := env.enableFusedPath.getD config.enableFusedPath
    fusedNumChannels := env.fusedNumChannels.getD config.fusedNumChannels
    fusedChunkSize := env.fusedChunkSize.getD config.fusedChunkSize
    autotuneConfigPath := (env.autotuneConfigPath.map some).getD config.autotuneConfigPath }

/-! ## The steps -/

variable {env} {c r : SymmetricCollectiveConfig}

/-- A run of the steps leaves the combination, and it has compared the bound on the chunks
with the chunk count of the base configuration. -/
theorem of_apply_eq_ok (h : c.Valid) (hrun : env.apply c = .ok r) :
    (∀ m, env.maxPipelineChunks = some m → c.pipelineChunks ≤ m) ∧ r.Valid ∧
      r = env.combined c := by
  obtain ⟨c₁, s₁, hrun⟩ := bind_ok_iff.mp hrun
  obtain ⟨h₁, e₁⟩ := (replaceIfSet_eq_ok_iff h c.enableDebugChecks rfl).mp s₁
  obtain ⟨c₂, s₂, hrun⟩ := bind_ok_iff.mp hrun
  obtain ⟨h₂, e₂⟩ := (replaceIfSet_eq_ok_iff h₁ c₁.useTma rfl).mp s₂
  obtain ⟨c₃, s₃, hrun⟩ := bind_ok_iff.mp hrun
  obtain ⟨h₃, e₃⟩ := (replaceIfSet_eq_ok_iff h₂ c₂.useCopyEngine rfl).mp s₃
  obtain ⟨c₄, s₄, hrun⟩ := bind_ok_iff.mp hrun
  obtain ⟨h₄, e₄⟩ := (replaceIfSet_eq_ok_iff h₃ c₃.copySms rfl).mp s₄
  obtain ⟨c₅, s₅, hrun⟩ := bind_ok_iff.mp hrun
  obtain ⟨h₅, e₅⟩ := (replaceIfSet_eq_ok_iff h₄ c₄.timeoutMs rfl).mp s₅
  obtain ⟨c₆, s₆, hrun⟩ := bind_ok_iff.mp hrun
  obtain ⟨h₆, e₆⟩ := (replaceIfSet_eq_ok_iff h₅ c₅.maxPipelineChunks rfl).mp s₆
  obtain ⟨c₇, s₇, hrun⟩ := bind_ok_iff.mp hrun
  obtain ⟨h₇, e₇⟩ := (replaceIfSet_eq_ok_iff h₆ c₆.pipelineChunks rfl).mp s₇
  obtain ⟨c₈, s₈, hrun⟩ := bind_ok_iff.mp hrun
  obtain ⟨h₈, e₈⟩ := (replaceIfSet_eq_ok_iff h₇ c₇.enableFusedPath rfl).mp s₈
  obtain ⟨c₉, s₉, hrun⟩ := bind_ok_iff.mp hrun
  obtain ⟨h₉, e₉⟩ := (replaceIfSet_eq_ok_iff h₈ c₈.fusedNumChannels rfl).mp s₉
  obtain ⟨c₁₀, s₁₀, hrun⟩ := bind_ok_iff.mp hrun
  obtain ⟨h₁₀, e₁₀⟩ := (replaceIfSet_eq_ok_iff h₉ c₉.fusedChunkSize rfl).mp s₁₀
  obtain ⟨h₁₁, e₁₁⟩ := (replaceIfSet_eq_ok_iff h₁₀ c₁₀.autotuneConfigPath rfl).mp hrun
  refine ⟨?_, h₁₁, ?_⟩
  · intro m hm
    have hle := h₆.pipelineChunks_le
    simpa only [e₆, e₅, e₄, e₃, e₂, e₁, hm, Option.getD_some] using hle
  · simp only [e₁₁, e₁₀, e₉, e₈, e₇, e₆, e₅, e₄, e₃, e₂, e₁, combined]

/-- Each step meets a mixture that is valid because both the base configuration and the
combination are. -/
theorem exists_apply_eq_ok (h : c.Valid) (hall : (env.combined c).Valid)
    (hmax : ∀ m, env.maxPipelineChunks = some m → c.pipelineChunks ≤ m) :
    ∃ r, env.apply c = .ok r := by
  have hbound : c.pipelineChunks ≤ env.maxPipelineChunks.getD c.maxPipelineChunks := by
    cases hm : env.maxPipelineChunks with
    | none => exact h.pipelineChunks_le
    | some m => exact hmax m hm
  refine exists_bind_ok h c.enableDebugChecks rfl { h with } fun c₁ h₁ e₁ => ?_
  refine exists_bind_ok h₁ c₁.useTma rfl { h₁ with } fun c₂ h₂ e₂ => ?_
  refine exists_bind_ok h₂ c₂.useCopyEngine rfl { h₂ with } fun c₃ h₃ e₃ => ?_
  refine exists_bind_ok h₃ c₃.copySms rfl
    { h₃ with
      copySms_pos := by
        simpa only [combined, e₃, e₂, e₁] using hall.copySms_pos } fun c₄ h₄ e₄ => ?_
  refine exists_bind_ok h₄ c₄.timeoutMs rfl
    { h₄ with
      timeoutMs_nonneg := by
        simpa only [combined, e₄, e₃, e₂, e₁] using hall.timeoutMs_nonneg } fun c₅ h₅ e₅ => ?_
  refine exists_bind_ok h₅ c₅.maxPipelineChunks rfl
    { h₅ with
      maxPipelineChunks_pos := by
        simpa only [combined, e₅, e₄, e₃, e₂, e₁] using hall.maxPipelineChunks_pos
      pipelineChunks_le := by
        simpa only [combined, e₅, e₄, e₃, e₂, e₁] using hbound } fun c₆ h₆ e₆ => ?_
  refine exists_bind_ok h₆ c₆.pipelineChunks rfl
    { h₆ with
      pipelineChunks_pos := by
        simpa only [combined, e₆, e₅, e₄, e₃, e₂, e₁] using hall.pipelineChunks_pos
      pipelineChunks_le := by
        simpa only [combined, e₆, e₅, e₄, e₃, e₂, e₁] using hall.pipelineChunks_le }
    fun c₇ h₇ e₇ => ?_
  refine exists_bind_ok h₇ c₇.enableFusedPath rfl { h₇ with } fun c₈ h₈ e₈ => ?_
  refine exists_bind_ok h₈ c₈.fusedNumChannels rfl
    { h₈ with
      fusedNumChannels_pos := by
        simpa only [combined, e₈, e₇, e₆, e₅, e₄, e₃, e₂, e₁] using hall.fusedNumChannels_pos }
    fun c₉ h₉ e₉ => ?_
  refine exists_bind_ok h₉ c₉.fusedChunkSize rfl
    { h₉ with
      fusedChunkSize_pos := by
        simpa only [combined, e₉, e₈, e₇, e₆, e₅, e₄, e₃, e₂, e₁] using hall.fusedChunkSize_pos
      alignment_dvd_chunk := by
        simpa only [combined, e₉, e₈, e₇, e₆, e₅, e₄, e₃, e₂, e₁] using hall.alignment_dvd_chunk }
    fun c₁₀ h₁₀ e₁₀ => ?_
  exact exists_replaceIfSet_ok h₁₀ c₁₀.autotuneConfigPath rfl { h₁₀ with }

theorem apply_eq_ok_iff (h : c.Valid) :
    env.apply c = .ok r ↔
      (∀ m, env.maxPipelineChunks = some m → c.pipelineChunks ≤ m) ∧ r.Valid ∧
        r = env.combined c := by
  refine ⟨of_apply_eq_ok h, ?_⟩
  rintro ⟨hmax, hall, rfl⟩
  obtain ⟨r, hrun⟩ := exists_apply_eq_ok h hall hmax
  obtain ⟨-, -, rfl⟩ := of_apply_eq_ok h hrun
  exact hrun

/-! ## One combination -/

/-- The step that applies the overrides succeeds exactly when the combination is valid, and
then yields the combination. -/
def AsOne (env : EnvOverrides) (base : Config) : Prop :=
  ∀ c, env.apply base.toFields = .ok c ↔
    (env.combined base.toFields).postInit = .ok () ∧ c = env.combined base.toFields

/-- **The overrides are applied as one combination, unless a valid combination lowers the
bound on the chunks below the chunk count it replaces.** -/
theorem overrides_as_one_iff (env : EnvOverrides) (base : Config) :
    env.AsOne base ↔
      ¬ ((∃ m, env.maxPipelineChunks = some m ∧ m < base.pipelineChunks) ∧
        (env.combined base.toFields).postInit = .ok ()) := by
  have hbase := base.toFields.postInit_eq_ok_iff_valid.mp (postInit_toFields base)
  simp only [AsOne, postInit_eq_ok_iff_valid, apply_eq_ok_iff hbase]
  constructor
  · rintro hone ⟨⟨m, hm, hlt⟩, hvalid⟩
    obtain ⟨hmax, -⟩ := (hone _).mpr ⟨hvalid, rfl⟩
    exact absurd (hmax m hm) (not_le.mpr hlt)
  · intro hnot c
    constructor
    · rintro ⟨-, hvalid, rfl⟩
      exact ⟨hvalid, rfl⟩
    · rintro ⟨hvalid, rfl⟩
      refine ⟨fun m hm => ?_, hvalid, rfl⟩
      by_contra hlt
      exact hnot ⟨⟨m, hm, not_le.mp hlt⟩, hvalid⟩

/-- The base runs four chunks of at most four; the environment asks for two of at most two. -/
def fourChunks : Config :=
  { Config.default with
    pipelineChunks := 4
    pipelineChunks_pos := Nat.le_add_left 1 3
    pipelineChunks_le := by decide }

theorem lowered_bound_is_rejected :
    ¬ ∀ (env : EnvOverrides) (base : Config), env.AsOne base := by
  intro h
  have hone := h { pipelineChunks := some 2, maxPipelineChunks := some 2 } fourChunks
  -- the combination is valid, and the step that lowers the bound raises
  cases (hone _).mpr ⟨rfl, rfl⟩

end EnvOverrides

end GroupFreeCollectives
