import GroupFreeCollectives.Runtime.Entry

/-!
# Construction

`SymmetricCollectiveRuntime.__init__` of `gfc/runtime.py`.  The environment overrides
replace fields and validate again, so the configuration here is the one after them; the
checks on the process group and on the device type are left out.

The load check looks at the channel counts the table names, the dispatch guard at the
one a call would use.  `fused_channel_checks_iff` says when the second passes after the
first.
-/

namespace GroupFreeCollectives

open Tiling

/-- What the constructor finds outside its arguments. -/
structure Host where
  device : String
  rank : ℕ
  worldSize : ℕ
  numSms : ℕ
  sessionNonce : ℤ
  bufferPtrs : ℕ → ℕ
  /-- `probe_tma_supported` -/
  tmaProbe : Bool
  /-- the keys of the file at `autotune_config_path` -/
  autotuneVersion : ℤ
  autotuneRules : List Rule
  numSms_pos : 0 < numSms
  rank_lt : rank < worldSize

namespace Runtime

/-- The load of the autotune table, if the configuration names one. -/
def loadAutotune (config : Config) (host : Host) : Except PyError (Option AutotuneTable) := do
  match config.autotuneConfigPath with
  | none => pure none
  | some "" => pure none
  | some path =>
    let table ← AutotuneTable.fromJson host.autotuneVersion host.autotuneRules
    let needChannels := table.maxFusedNumChannels
    let provisioned := config.fusedNumChannels
    let shown := pyRepr path
    require (needChannels ≤ provisioned)
      s!"autotune config {shown} contains a fused policy requesting fused_num_channels={needChannels}, but this runtime is provisioned for config.fused_num_channels={provisioned}. The symmetric step_pad grid is sized once from the config and cannot grow per call. Provision the runtime to match before loading this table, e.g. set SYMM_COLL_FUSED_NUM_CHANNELS={needChannels} (or pass fused_num_channels={needChannels} in SymmetricCollectiveConfig)."
    pure (some table)

/-- `SymmetricCollectiveRuntime.__init__`. -/
def init (config : Config) (host : Host) : Except PyError Runtime := do
  let autotune ← loadAutotune config host
  let rt : Runtime :=
    { config := config
      device := host.device
      rank := host.rank
      worldSize := host.worldSize
      numSms := host.numSms
      tmaEnabled := false
      autotune := autotune
      sessionNonce := host.sessionNonce
      bufferPtrs := host.bufferPtrs
      numSms_pos := host.numSms_pos
      rank_lt := host.rank_lt }
  if config.enableFusedPath then rt.checkFusedLaunchCapacity config.fusedNumChannels
  require (host.sessionNonce ≠ 0) "session_nonce must be non-zero"
  require (¬ (config.useTma ∧ rt.copyEngineEnabled))
    "use_tma and use_copy_engine are mutually exclusive"
  if config.useTma then
    if host.tmaProbe then pure { rt with tmaEnabled := true }
    else throw (.runtimeError
      "TMA probe failed on this hardware/driver; set use_tma=False to use the vec fallback")
  else pure rt

/-! ## What construction has checked -/

/-- A loaded table names no more channels than are provisioned. -/
theorem maxFusedNumChannels_le_of_load {config : Config} {host : Host} {table : AutotuneTable}
    (h : loadAutotune config host = .ok (some table)) :
    table.maxFusedNumChannels ≤ config.fusedNumChannels := by
  unfold loadAutotune at h
  split at h
  case h_1 => cases h
  case h_2 => cases h
  case h_3 path _ =>
    obtain ⟨t, -, h⟩ := bind_ok_iff.mp h
    obtain ⟨hmax, h⟩ := require_bind_ok_iff.mp h
    obtain rfl := Option.some_inj.mp (Except.ok.inj h)
    exact of_decide_eq_true hmax

/-- What a constructed runtime is known to satisfy. -/
structure Constructed (rt : Runtime) : Prop where
  load : ∀ table, rt.autotune = some table →
    table.maxFusedNumChannels ≤ rt.config.fusedNumChannels
  capacity : rt.config.enableFusedPath = true →
    rt.checkFusedLaunchCapacity rt.config.fusedNumChannels = .ok ()
  sessionNonce_ne : rt.sessionNonce ≠ 0
  tmaEnabled_eq : rt.tmaEnabled = rt.config.useTma
  exclusive : ¬ (rt.tmaEnabled = true ∧ rt.copyEngineEnabled = true)

/-- A check made under a condition, in front of the rest. -/
theorem ite_bind_ok_iff {β : Type} {c : Prop} [Decidable c] {x : Except PyError Unit}
    {y : Except PyError β} {b : β} :
    (if c then x >>= fun _ => y else y) = .ok b ↔ (c → x = .ok ()) ∧ y = .ok b := by
  by_cases hc : c
  · rw [if_pos hc, bind_ok_iff]
    constructor
    · rintro ⟨⟨⟩, hx, hy⟩
      exact ⟨fun _ => hx, hy⟩
    · rintro ⟨hx, hy⟩
      exact ⟨(), hx hc, hy⟩
  · rw [if_neg hc]
    exact ⟨fun hy => ⟨fun h => absurd h hc, hy⟩, fun h => h.2⟩

/-- **A runtime that `__init__` returns has passed its checks.** -/
theorem constructed_of_init {config : Config} {host : Host} {rt : Runtime}
    (h : init config host = .ok rt) : rt.Constructed := by
  unfold init at h
  obtain ⟨autotune, hload, h⟩ := bind_ok_iff.mp h
  dsimp only at h
  obtain ⟨hcap, h⟩ := ite_bind_ok_iff.mp h
  obtain ⟨hnonce, h⟩ := require_bind_ok_iff.mp h
  obtain ⟨hexcl, h⟩ := require_bind_ok_iff.mp h
  have hmax : ∀ table, autotune = some table →
      table.maxFusedNumChannels ≤ config.fusedNumChannels := by
    intro table htable
    exact maxFusedNumChannels_le_of_load (htable ▸ hload)
  split at h
  case isTrue htma =>
    split at h
    case isTrue =>
      rw [← Except.ok.inj h]
      refine ⟨hmax, hcap, of_decide_eq_true hnonce, htma.symm, ?_⟩
      intro hboth
      exact of_decide_eq_true hexcl ⟨htma, hboth.2⟩
    case isFalse => cases h
  case isFalse htma =>
    rw [← Except.ok.inj h]
    exact ⟨hmax, hcap, of_decide_eq_true hnonce, (Bool.eq_false_iff.mpr htma).symm, by simp⟩

/-! ## The channel checks of the dispatch guard -/

variable (rt : Runtime)

/-- The checks of `_autotune_path_guard` on the channel count of a `fused` policy. -/
def fusedChannelChecks (policy : Policy) : Except PyError Unit := do
  let provisioned := rt.config.fusedNumChannels
  let numChannels := policy.knobs.fusedNumChannels.getD provisioned
  require (0 < numChannels) "autotune fused_num_channels must be > 0"
  rt.checkFusedLaunchCapacity numChannels
  require (numChannels ≤ provisioned)
    s!"autotune fused_num_channels={numChannels} exceeds the allocated config.fused_num_channels={provisioned}; step_pad is sized from config.fused_num_channels (it backs the symmetric step grid) — raise it in the runtime config to use more channels"

/-- The checks that follow them, on the chunks. -/
def fusedChunkChecks (policy : Policy) (sliceBytes : ℕ) : Except PyError Unit := do
  let cfg := rt.config
  let alignment := cfg.alignment
  let bound := cfg.fusedMaxChunksPerChannel
  let numChannels := policy.knobs.fusedNumChannels.getD cfg.fusedNumChannels
  let chunkSize := policy.knobs.fusedChunkSize.getD cfg.fusedChunkSize
  require (0 < chunkSize) "autotune fused_chunk_size must be > 0"
  require (chunkSize % alignment = 0)
    s!"autotune fused_chunk_size={chunkSize} must be a multiple of alignment={alignment}; otherwise chunk bases at k*fused_chunk_size lose vector alignment and the fused kernel's vectorized stores fault"
  let partitionBytes := alignUp (cdiv sliceBytes numChannels.toNat) alignment
  let nChunks := cdiv partitionBytes chunkSize.toNat
  require (nChunks ≤ bound)
    s!"autotune fused config yields {nChunks} chunks/channel for slice_bytes={sliceBytes} (channels={numChannels}, chunk_size={chunkSize}) > static bound {bound}; raise fused_chunk_size or max_collective_bytes"

variable {rt}

/-- The guard of a `fused` policy is these checks. -/
theorem autotunePathGuard_fused {policy : Policy} (hp : policy.path = .fused)
    (sliceBytes dstPtr : ℕ) : rt.autotunePathGuard policy sliceBytes 0 dstPtr =
      (rt.fusedChannelChecks policy >>= fun _ => rt.fusedChunkChecks policy sliceBytes) := by
  unfold autotunePathGuard fusedChannelChecks fusedChunkChecks
  rw [hp]
  simp only [bind_assoc]

theorem fusedChannelChecks_eq_ok_iff {policy : Policy} :
    rt.fusedChannelChecks policy = .ok () ↔
      let numChannels := policy.knobs.fusedNumChannels.getD rt.config.fusedNumChannels
      (0 < numChannels ∧ 2 * numChannels ≤ rt.numSms) ∧
        numChannels ≤ rt.config.fusedNumChannels := by
  unfold fusedChannelChecks
  dsimp only
  rw [require_bind_ok_iff, bind_ok_iff, decide_eq_true_eq]
  constructor
  · rintro ⟨-, ⟨⟩, hcap, hprov⟩
    exact ⟨checkFusedLaunchCapacity_eq_ok_iff.mp hcap,
      of_decide_eq_true (require_eq_ok_iff.mp hprov)⟩
  · rintro ⟨hcap, hprov⟩
    exact ⟨hcap.1, (), checkFusedLaunchCapacity_eq_ok_iff.mpr hcap,
      require_eq_ok_iff.mpr (decide_eq_true hprov)⟩

/-- The channel count of a selected policy is provisioned: this the load has checked. -/
theorem Constructed.numChannels_le (h : rt.Constructed) {table : AutotuneTable}
    (htable : rt.autotune = some table) {kind : Collective} {groupSize sliceBytes : ℕ}
    {policy : Policy} (hpolicy : table.policyFor kind groupSize sliceBytes = some policy)
    (hpath : policy.path = .fused) :
    policy.knobs.fusedNumChannels.getD rt.config.fusedNumChannels ≤ rt.config.fusedNumChannels := by
  obtain ⟨r, hr, hname, hknobs⟩ := AutotuneTable.exists_rule_of_policyFor hpolicy
  rw [hpath] at hname
  cases hc : policy.knobs.fusedNumChannels with
  | none => exact le_refl _
  | some c =>
    rw [hknobs] at hc
    exact le_trans (AutotuneTable.le_maxFusedNumChannels hr hname hc) (h.load table htable)

/-- **When the channel checks of the guard pass for a selected `fused` policy**: its
rule names no channel count that is zero or negative, and either the default path is
fused too, or both kernels of every channel fit the device. -/
theorem fused_channel_checks_iff {config : Config} {host : Host} (h : init config host = .ok rt)
    {table : AutotuneTable} (htable : rt.autotune = some table) {kind : Collective}
    {groupSize sliceBytes : ℕ} {policy : Policy}
    (hpolicy : table.policyFor kind groupSize sliceBytes = some policy)
    (hpath : policy.path = .fused) :
    rt.fusedChannelChecks policy = .ok () ↔
      (∀ c, policy.knobs.fusedNumChannels = some c → 0 < c) ∧
        (rt.config.enableFusedPath = true ∨
          2 * policy.knobs.fusedNumChannels.getD rt.config.fusedNumChannels ≤ rt.numSms) := by
  have hcon := constructed_of_init h
  have hle := hcon.numChannels_le htable hpolicy hpath
  have hprov : (0 : ℤ) < rt.config.fusedNumChannels :=
    Int.natCast_pos.mpr rt.config.fusedNumChannels_pos
  rw [fusedChannelChecks_eq_ok_iff]
  dsimp only
  constructor
  · rintro ⟨⟨hpos, hsms⟩, -⟩
    refine ⟨?_, Or.inr hsms⟩
    intro c hc
    rwa [hc] at hpos
  · rintro ⟨hknob, hfit⟩
    refine ⟨⟨?_, ?_⟩, hle⟩
    · cases hc : policy.knobs.fusedNumChannels with
      | none => exact hprov
      | some c => exact hknob c hc
    · rcases hfit with hfused | hsms
      · -- construction has checked the provisioned channels, which are no fewer
        have hcap := (checkFusedLaunchCapacity_eq_ok_iff.mp (hcon.capacity hfused)).2
        omega
      · exact hsms

/-! ### Tables that load and are rejected later -/

section LateRejection

/-- One rank of two, on a device with 40 SMs. -/
def smallHost (rules : List Rule) : Host where
  device := "cuda:0"
  rank := 0
  worldSize := 2
  numSms := 40
  sessionNonce := 1
  bufferPtrs _ := 4096
  tmaProbe := false
  autotuneVersion := 1
  autotuneRules := rules
  numSms_pos := by decide
  rank_lt := by decide

/-- The default configuration with a table. -/
def tableConfig : Config := { Config.default with autotuneConfigPath := some "table.json" }

/-- A table with one rule: `fused`, with this channel count. -/
def fusedRule (numChannels : Option ℤ) : Rule :=
  { path := some "fused", knobs := { fusedNumChannels := numChannels } }

/-- The rule, as a table. -/
def fusedTable (numChannels : Option ℤ) : AutotuneTable :=
  ⟨[fusedRule numChannels], by
    intro r hr
    rw [List.mem_singleton.mp hr]
    rfl⟩

/-- The runtime of the default configuration with this table, on the small device. -/
def smallRuntime (numChannels : Option ℤ) : Runtime where
  config := tableConfig
  device := "cuda:0"
  rank := 0
  worldSize := 2
  numSms := 40
  tmaEnabled := false
  autotune := some (fusedTable numChannels)
  sessionNonce := 1
  bufferPtrs _ := 4096
  numSms_pos := by decide
  rank_lt := by decide

/-- A rule that leaves the channel count to the configuration loads on a device that
cannot hold it, and one that names no channels loads anywhere; every `all_gather` of two
ranks that selects them is rejected. -/
theorem accepted_table_is_rejected_later :
    (init tableConfig (smallHost [fusedRule none]) = .ok (smallRuntime none) ∧
      (fusedTable none).policyFor .allGather 2 1024 = some ⟨.fused, (fusedRule none).knobs⟩ ∧
      (smallRuntime none).fusedChannelChecks ⟨.fused, (fusedRule none).knobs⟩ ≠ .ok ()) ∧
    init tableConfig (smallHost [fusedRule (some 0)]) = .ok (smallRuntime (some 0)) ∧
      (fusedTable (some 0)).policyFor .allGather 2 1024 =
        some ⟨.fused, (fusedRule (some 0)).knobs⟩ ∧
      (smallRuntime (some 0)).fusedChannelChecks ⟨.fused, (fusedRule (some 0)).knobs⟩ ≠ .ok () := by
  refine ⟨⟨rfl, by decide +kernel, ?_⟩, rfl, by decide +kernel, ?_⟩
  · decide +kernel
  · decide +kernel

/-- The theorem for a table whose rule names 20 channels. -/
theorem fused_channel_checks_iff_witness :
    (smallRuntime (some 20)).fusedChannelChecks ⟨.fused, (fusedRule (some 20)).knobs⟩ =
      .ok () := by
  have hinit : init tableConfig (smallHost [fusedRule (some 20)]) = .ok (smallRuntime (some 20)) :=
    rfl
  have hpolicy : (fusedTable (some 20)).policyFor .allGather 2 1024 =
      some ⟨.fused, (fusedRule (some 20)).knobs⟩ := by
    decide +kernel
  refine (fused_channel_checks_iff hinit rfl hpolicy rfl).mpr ⟨?_, Or.inr (by decide)⟩
  rintro c ⟨⟩
  decide

end LateRejection

end Runtime

end GroupFreeCollectives
