import Mathlib.Data.Nat.Bits
import Mathlib.Data.Nat.Size
import Mathlib.Data.Int.Bitwise
import Mathlib.Tactic.Linarith

/-!
# The configuration object and its validation

`gfc/config.py`.  The dataclass is a record of Python integers, so its fields
are `ℤ` here, and `postInit` is `__post_init__`: the checks in the order of the
source, each raising the first time its condition fails.  The order is visible,
because the second check on `max_collective_bytes` divides by `alignment` before
any check has looked at `alignment`.

`Config` is what the rest of the runtime works with: the natural numbers of an
accepted configuration together with the facts that validation established.
`postInit_toFields` and `exists_toFields_of_postInit` say that these are exactly
the accepted configurations, so no later proof goes back to the checks.
-/

namespace GroupFreeCollectives

/-- The exceptions the modelled code raises.  `TMARequirementError` is a
`ValueError` of its own class. -/
inductive PyError where
  | valueError (msg : String)
  | tmaRequirementError (msg : String)
  | runtimeError (msg : String)
  | assertionError
  | zeroDivisionError
  deriving DecidableEq, Repr

/-- An integer in Python's `#x` format. -/
def pyHex (n : ℤ) : String :=
  (if n < 0 then "-0x" else "0x") ++ String.ofList (Nat.toDigits 16 n.natAbs)

/-- A tuple of integers as Python prints it. -/
def pyTuple : List ℤ → String
  | [x] => s!"({x},)"
  | xs => "(" ++ ", ".intercalate (xs.map toString) ++ ")"

/-- `_require`: raise `ValueError` unless the condition holds. -/
def require {m : Type → Type} [Monad m] [MonadExceptOf PyError m] (cond : Bool)
    (msg : String) : m Unit :=
  if cond then pure () else throw (.valueError msg)

/-- `_require`, with the fact it establishes. -/
def requireProof {m : Type → Type} [Monad m] [MonadExceptOf PyError m] (p : Prop) [Decidable p]
    (msg : String) : m (PLift p) :=
  if h : p then pure ⟨h⟩ else throw (.valueError msg)

/-- `assert`. -/
def pyAssert {m : Type → Type} [Monad m] [MonadExceptOf PyError m] (cond : Bool) : m Unit :=
  if cond then pure () else throw .assertionError

/-- The dataclass `SymmetricCollectiveConfig`, with its defaults. -/
structure SymmetricCollectiveConfig where
  maxGroupSize : ℤ := 8
  maxCollectiveBytes : ℤ := 128 * 1024 * 1024
  alignment : ℤ := 128
  useTma : Bool := false
  useCopyEngine : Bool := false
  copySms : ℤ := 24
  enableDebugChecks : Bool := false
  timeoutMs : ℤ := 30000
  pipelineChunks : ℤ := 1
  maxPipelineChunks : ℤ := 4
  pipelineMinChunkBytes : ℤ := 256 * 1024
  enableFusedPath : Bool := false
  fusedChunkSize : ℤ := 256 * 1024
  fusedNumChannels : ℤ := 24
  autotuneConfigPath : Option String := none
  deriving DecidableEq, Repr

namespace SymmetricCollectiveConfig

/-- Python's `a % b == 0`, which raises when `b` is zero. -/
def divides (b a : ℤ) : Except PyError Bool :=
  if b = 0 then throw .zeroDivisionError else pure (a % b = 0)

/-- `__post_init__`. -/
def postInit (c : SymmetricCollectiveConfig) : Except PyError Unit := do
  require (0 < c.maxGroupSize ∧ c.maxGroupSize ≤ 16)
    "max_group_size must be in (0, 16] (barrier kernel hard ceiling)"
  require (0 < c.maxCollectiveBytes) "max_collective_bytes must be > 0"
  require (← divides c.alignment c.maxCollectiveBytes)
    "max_collective_bytes must be a multiple of alignment"
  require (16 ≤ c.alignment ∧ c.alignment.land (c.alignment - 1) = 0)
    "alignment must be a power of two >= 16"
  require (0 < c.copySms) "copy_sms must be > 0"
  require (0 ≤ c.timeoutMs) "timeout_ms must be >= 0"
  require (1 ≤ c.pipelineChunks) "pipeline_chunks must be >= 1"
  require (1 ≤ c.maxPipelineChunks) "max_pipeline_chunks must be >= 1"
  require (c.pipelineChunks ≤ c.maxPipelineChunks)
    "pipeline_chunks must be <= max_pipeline_chunks"
  require (0 < c.pipelineMinChunkBytes) "pipeline_min_chunk_bytes must be > 0"
  require (0 < c.fusedChunkSize) "fused_chunk_size must be > 0"
  require (← divides c.alignment c.fusedChunkSize)
    "fused_chunk_size must be a multiple of alignment"
  require (0 < c.fusedNumChannels) "fused_num_channels must be > 0"

end SymmetricCollectiveConfig

/-! ## Accepted configurations -/

/-- An accepted configuration: the values of the fields, with what
`__post_init__` checked about them. -/
structure Config where
  maxGroupSize : ℕ
  maxCollectiveBytes : ℕ
  alignment : ℕ
  useTma : Bool
  useCopyEngine : Bool
  copySms : ℕ
  enableDebugChecks : Bool
  timeoutMs : ℕ
  pipelineChunks : ℕ
  maxPipelineChunks : ℕ
  pipelineMinChunkBytes : ℕ
  enableFusedPath : Bool
  fusedChunkSize : ℕ
  fusedNumChannels : ℕ
  autotuneConfigPath : Option String
  maxGroupSize_pos : 0 < maxGroupSize
  maxGroupSize_le : maxGroupSize ≤ 16
  maxCollectiveBytes_pos : 0 < maxCollectiveBytes
  alignment_dvd : alignment ∣ maxCollectiveBytes
  alignment_ge : 16 ≤ alignment
  alignment_pow : alignment.isPowerOfTwo
  copySms_pos : 0 < copySms
  pipelineChunks_pos : 1 ≤ pipelineChunks
  pipelineChunks_le : pipelineChunks ≤ maxPipelineChunks
  pipelineMinChunkBytes_pos : 0 < pipelineMinChunkBytes
  fusedChunkSize_pos : 0 < fusedChunkSize
  alignment_dvd_chunk : alignment ∣ fusedChunkSize
  fusedNumChannels_pos : 0 < fusedNumChannels

namespace Config

variable (cfg : Config)

/-- The dataclass instance behind an accepted configuration. -/
def toFields : SymmetricCollectiveConfig where
  maxGroupSize := cfg.maxGroupSize
  maxCollectiveBytes := cfg.maxCollectiveBytes
  alignment := cfg.alignment
  useTma := cfg.useTma
  useCopyEngine := cfg.useCopyEngine
  copySms := cfg.copySms
  enableDebugChecks := cfg.enableDebugChecks
  timeoutMs := cfg.timeoutMs
  pipelineChunks := cfg.pipelineChunks
  maxPipelineChunks := cfg.maxPipelineChunks
  pipelineMinChunkBytes := cfg.pipelineMinChunkBytes
  enableFusedPath := cfg.enableFusedPath
  fusedChunkSize := cfg.fusedChunkSize
  fusedNumChannels := cfg.fusedNumChannels
  autotuneConfigPath := cfg.autotuneConfigPath

/-- `fused_max_chunks_per_channel`: the static bound on chunks per channel. -/
def fusedMaxChunksPerChannel : ℕ :=
  (cfg.maxCollectiveBytes + cfg.fusedChunkSize - 1) / cfg.fusedChunkSize + 1

theorem alignment_pos : 0 < cfg.alignment := lt_of_lt_of_le (by decide) cfg.alignment_ge

theorem maxPipelineChunks_pos : 1 ≤ cfg.maxPipelineChunks :=
  le_trans cfg.pipelineChunks_pos cfg.pipelineChunks_le

end Config

/-! ## Validation accepts exactly these -/

/-- `x & (x - 1) == 0` on a positive integer says that it is a power of two. -/
theorem land_sub_one_eq_zero_iff {n : ℕ} (hn : 0 < n) :
    (n : ℤ).land ((n : ℤ) - 1) = 0 ↔ n.isPowerOfTwo := by
  obtain ⟨m, rfl⟩ := Nat.exists_eq_succ_of_ne_zero hn.ne'
  have hcast : ((m.succ : ℕ) : ℤ) - 1 = (m : ℤ) := by
    rw [Nat.succ_eq_add_one, Nat.cast_add, Nat.cast_one, Int.add_sub_cancel]
  have hland : ((m.succ : ℕ) : ℤ).land (m : ℤ) = ((m.succ &&& m : ℕ) : ℤ) := rfl
  rw [hcast, hland, ← Nat.and_sub_one_eq_zero_iff_isPowerOfTwo hn.ne']
  simp

theorem bind_ok_iff {α β : Type} {x : Except PyError α} {f : α → Except PyError β} {b : β} :
    (x >>= f) = .ok b ↔ ∃ a, x = .ok a ∧ f a = .ok b := by
  cases x <;> simp [bind, Except.bind]

theorem require_eq_ok_iff {cond : Bool} {msg : String} :
    (require cond msg : Except PyError Unit) = .ok () ↔ cond = true := by
  cases cond <;> simp [require, throw, throwThe, MonadExceptOf.throw, pure, Except.pure]

/-- A passed check lets the rest run. -/
theorem require_bind_ok_iff {β : Type} {cond : Bool} {msg : String}
    {f : Unit → Except PyError β} {b : β} :
    ((require cond msg : Except PyError Unit) >>= f) = .ok b ↔ cond = true ∧ f () = .ok b := by
  cases cond <;> simp [require, bind, Except.bind, throw, throwThe, MonadExceptOf.throw, pure,
    Except.pure]

theorem pyAssert_bind_ok_iff {β : Type} {cond : Bool} {f : Unit → Except PyError β} {b : β} :
    ((pyAssert cond : Except PyError Unit) >>= f) = .ok b ↔ cond = true ∧ f () = .ok b := by
  cases cond <;> simp [pyAssert, bind, Except.bind, throw, throwThe, MonadExceptOf.throw, pure,
    Except.pure]

theorem divides_bind_ok_iff {β : Type} {a b : ℤ} {f : Bool → Except PyError β} {r : β} :
    (SymmetricCollectiveConfig.divides b a >>= f) = .ok r ↔
      b ≠ 0 ∧ f (decide (a % b = 0)) = .ok r := by
  unfold SymmetricCollectiveConfig.divides
  by_cases h : b = 0 <;> simp [h, bind, Except.bind, throw, throwThe, MonadExceptOf.throw, pure,
    Except.pure]

/-- What `__post_init__` accepts, as a list of conditions. -/
theorem postInit_eq_ok_iff (c : SymmetricCollectiveConfig) :
    c.postInit = .ok () ↔
      (0 < c.maxGroupSize ∧ c.maxGroupSize ≤ 16) ∧ 0 < c.maxCollectiveBytes ∧
      c.maxCollectiveBytes % c.alignment = 0 ∧
      (16 ≤ c.alignment ∧ c.alignment.land (c.alignment - 1) = 0) ∧ 0 < c.copySms ∧
      0 ≤ c.timeoutMs ∧ 1 ≤ c.pipelineChunks ∧ 1 ≤ c.maxPipelineChunks ∧
      c.pipelineChunks ≤ c.maxPipelineChunks ∧ 0 < c.pipelineMinChunkBytes ∧
      0 < c.fusedChunkSize ∧ c.fusedChunkSize % c.alignment = 0 ∧ 0 < c.fusedNumChannels := by
  unfold SymmetricCollectiveConfig.postInit
  simp only [require_bind_ok_iff, divides_bind_ok_iff, require_eq_ok_iff, decide_eq_true_eq]
  constructor
  · rintro ⟨h1, h2, -, h3, h4, h5, h6, h7, h8, h9, h10, h11, -, h12, h13⟩
    exact ⟨h1, h2, h3, h4, h5, h6, h7, h8, h9, h10, h11, h12, h13⟩
  · rintro ⟨h1, h2, h3, h4, h5, h6, h7, h8, h9, h10, h11, h12, h13⟩
    have hne : c.alignment ≠ 0 := by omega
    exact ⟨h1, h2, hne, h3, h4, h5, h6, h7, h8, h9, h10, h11, hne, h12, h13⟩

/-- Every `Config` passes validation. -/
theorem postInit_toFields (cfg : Config) : cfg.toFields.postInit = .ok () := by
  rw [postInit_eq_ok_iff]
  have hland := (land_sub_one_eq_zero_iff cfg.alignment_pos).mpr cfg.alignment_pow
  have hdvd : ((cfg.maxCollectiveBytes : ℤ) % (cfg.alignment : ℤ)) = 0 :=
    Int.emod_eq_zero_of_dvd (Int.natCast_dvd_natCast.mpr cfg.alignment_dvd)
  have hdvd' : ((cfg.fusedChunkSize : ℤ) % (cfg.alignment : ℤ)) = 0 :=
    Int.emod_eq_zero_of_dvd (Int.natCast_dvd_natCast.mpr cfg.alignment_dvd_chunk)
  have h1 := cfg.maxGroupSize_pos
  have h2 := cfg.maxGroupSize_le
  have h3 := cfg.maxCollectiveBytes_pos
  have h4 := cfg.alignment_ge
  have h5 := cfg.copySms_pos
  have h6 := cfg.pipelineChunks_pos
  have h7 := cfg.pipelineChunks_le
  have h8 := cfg.pipelineMinChunkBytes_pos
  have h9 := cfg.fusedChunkSize_pos
  have h10 := cfg.fusedNumChannels_pos
  refine ⟨⟨?_, ?_⟩, ?_, hdvd, ⟨?_, hland⟩, ?_, ?_, ?_, ?_, ?_, ?_, ?_, hdvd', ?_⟩ <;>
    simp only [Config.toFields] <;> omega

/-- **Every accepted configuration is a `Config`.** -/
theorem exists_toFields_of_postInit {c : SymmetricCollectiveConfig} (h : c.postInit = .ok ()) :
    ∃ cfg : Config, cfg.toFields = c := by
  rw [postInit_eq_ok_iff] at h
  obtain ⟨⟨h1, h2⟩, h3, h4, ⟨h5, h6⟩, h7, h8, h9, h10, h11, h12, h13, h14, h15⟩ := h
  obtain ⟨mg, mc, al, tma, ce, cs, dbg, tm, pc, mp, pm, fe, fc, fn, ap⟩ := c
  simp only at h1 h2 h3 h4 h5 h6 h7 h8 h9 h10 h11 h12 h13 h14 h15
  lift mg to ℕ using by omega
  lift mc to ℕ using by omega
  lift al to ℕ using by omega
  lift cs to ℕ using by omega
  lift tm to ℕ using by omega
  lift pc to ℕ using by omega
  lift mp to ℕ using by omega
  lift pm to ℕ using by omega
  lift fc to ℕ using by omega
  lift fn to ℕ using by omega
  refine ⟨{ maxGroupSize := mg, maxCollectiveBytes := mc, alignment := al, useTma := tma,
            useCopyEngine := ce, copySms := cs, enableDebugChecks := dbg, timeoutMs := tm,
            pipelineChunks := pc, maxPipelineChunks := mp, pipelineMinChunkBytes := pm,
            enableFusedPath := fe, fusedChunkSize := fc, fusedNumChannels := fn,
            autotuneConfigPath := ap,
            maxGroupSize_pos := by omega, maxGroupSize_le := by omega,
            maxCollectiveBytes_pos := by omega,
            alignment_dvd := Int.natCast_dvd_natCast.mp (Int.dvd_of_emod_eq_zero h4),
            alignment_ge := by omega,
            alignment_pow := (land_sub_one_eq_zero_iff (by omega)).mp h6,
            copySms_pos := by omega, pipelineChunks_pos := by omega,
            pipelineChunks_le := by omega, pipelineMinChunkBytes_pos := by omega,
            fusedChunkSize_pos := by omega,
            alignment_dvd_chunk := Int.natCast_dvd_natCast.mp (Int.dvd_of_emod_eq_zero h14),
            fusedNumChannels_pos := by omega }, rfl⟩

/-- The configuration with all defaults. -/
def Config.default : Config where
  maxGroupSize := 8
  maxCollectiveBytes := 128 * 1024 * 1024
  alignment := 128
  useTma := false
  useCopyEngine := false
  copySms := 24
  enableDebugChecks := false
  timeoutMs := 30000
  pipelineChunks := 1
  maxPipelineChunks := 4
  pipelineMinChunkBytes := 256 * 1024
  enableFusedPath := false
  fusedChunkSize := 256 * 1024
  fusedNumChannels := 24
  autotuneConfigPath := none
  maxGroupSize_pos := by decide
  maxGroupSize_le := by decide
  maxCollectiveBytes_pos := by decide
  alignment_dvd := ⟨1024 * 1024, rfl⟩
  alignment_ge := by decide
  alignment_pow := ⟨7, rfl⟩
  copySms_pos := by decide
  pipelineChunks_pos := by decide
  pipelineChunks_le := by decide
  pipelineMinChunkBytes_pos := by decide
  fusedChunkSize_pos := by decide
  alignment_dvd_chunk := ⟨2048, rfl⟩
  fusedNumChannels_pos := by decide

/-- It is the dataclass with its defaults. -/
theorem toFields_default : Config.default.toFields = {} := rfl

end GroupFreeCollectives
