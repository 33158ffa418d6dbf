import GroupFreeCollectives.Config
import GroupFreeCollectives.Lib.Tiling

/-!
# What the validation of a configuration establishes

`SymmetricCollectiveConfig.postInit` is `__post_init__`.  Here its outcome is compared with the
constraints it states, `Valid`, over all integers in the numeric fields, and with the
sizes that the runtime later derives from the fields: the bound on the chunks of a
channel, the cells of `step_pad`, and rounding up to the alignment by a mask.

A configuration is accepted exactly when it is valid (`postInit_eq_ok_iff_valid`), and then
the derived sizes are defined and positive (`Valid.derivedSizes`).  What is rejected is
rejected with `ValueError`, with one kind of exception: the third check divides by
`alignment`, which only the fourth looks at (`constructor_checks_exactly_iff`).
-/

namespace GroupFreeCollectives

open Tiling

/-! ## Failing only with `ValueError` -/

/-- Whatever the computation raises is a `ValueError`. -/
def RaisesOnlyValueError {α : Type} (x : Except PyError α) : Prop :=
  ∀ e, x = .error e → ∃ msg, e = .valueError msg

theorem raisesOnlyValueError_require (cond : Bool) (msg : String) :
    RaisesOnlyValueError (require cond msg : Except PyError Unit) := by
  intro e he
  cases cond with
  | true => cases he
  | false => exact ⟨msg, (Except.error.inj he).symm⟩

theorem RaisesOnlyValueError.bind {α β : Type} {x : Except PyError α} {f : α → Except PyError β}
    (hx : RaisesOnlyValueError x) (hf : ∀ a, x = .ok a → RaisesOnlyValueError (f a)) :
    RaisesOnlyValueError (x >>= f) := by
  intro e he
  cases x with
  | error e' => exact hx e (congrArg Except.error (Except.error.inj he))
  | ok a => exact hf a rfl e he

namespace SymmetricCollectiveConfig

variable (c : SymmetricCollectiveConfig)

theorem raisesOnlyValueError_divides {a b : ℤ} (hb : b ≠ 0) :
    RaisesOnlyValueError (divides b a) := by
  intro e he
  rw [divides, if_neg hb] at he
  cases he

/-- Where the division does not come on a zero alignment, a check that fails raises
`ValueError`. -/
theorem raisesOnlyValueError_postInit
    (hdiv : 0 < c.maxGroupSize ∧ c.maxGroupSize ≤ 16 → 0 < c.maxCollectiveBytes →
      c.alignment ≠ 0) : RaisesOnlyValueError c.postInit := by
  have hreq := raisesOnlyValueError_require
  refine (hreq _ _).bind fun _ hsize => (hreq _ _).bind fun _ hbytes => ?_
  have ha : c.alignment ≠ 0 := hdiv (by simpa using require_eq_ok_iff.mp hsize)
    (by simpa using require_eq_ok_iff.mp hbytes)
  refine (raisesOnlyValueError_divides ha).bind fun _ _ => (hreq _ _).bind fun _ _ => ?_
  refine (hreq _ _).bind fun _ _ => ?_
  refine (hreq _ _).bind fun _ _ => (hreq _ _).bind fun _ _ => (hreq _ _).bind fun _ _ => ?_
  refine (hreq _ _).bind fun _ _ => (hreq _ _).bind fun _ _ => (hreq _ _).bind fun _ _ => ?_
  refine (hreq _ _).bind fun _ _ => ?_
  exact (raisesOnlyValueError_divides ha).bind fun _ _ => (hreq _ _).bind fun _ _ => hreq _ _

/-! ## The stated constraints -/

/-- The constraints that the messages of `__post_init__` state. -/
structure Valid : Prop where
  maxGroupSize_pos : 0 < c.maxGroupSize
  maxGroupSize_le : c.maxGroupSize ≤ 16
  maxCollectiveBytes_pos : 0 < c.maxCollectiveBytes
  alignment_dvd : c.alignment ∣ c.maxCollectiveBytes
  alignment_ge : 16 ≤ c.alignment
  alignment_pow : ∃ k : ℕ, c.alignment = 2 ^ k
  copySms_pos : 0 < c.copySms
  timeoutMs_nonneg : 0 ≤ c.timeoutMs
  pipelineChunks_pos : 1 ≤ c.pipelineChunks
  maxPipelineChunks_pos : 1 ≤ c.maxPipelineChunks
  pipelineChunks_le : c.pipelineChunks ≤ c.maxPipelineChunks
  pipelineMinChunkBytes_pos : 0 < c.pipelineMinChunkBytes
  fusedChunkSize_pos : 0 < c.fusedChunkSize
  alignment_dvd_chunk : c.alignment ∣ c.fusedChunkSize
  fusedNumChannels_pos : 0 < c.fusedNumChannels

/-- The bit test of the fourth check says what its message says. -/
theorem land_eq_zero_iff_exists_pow {a : ℤ} (ha : 16 ≤ a) :
    a.land (a - 1) = 0 ↔ ∃ k : ℕ, a = 2 ^ k := by
  lift a to ℕ using by omega
  rw [land_sub_one_eq_zero_iff (by omega)]
  constructor
  · rintro ⟨k, rfl⟩
    exact ⟨k, by simp⟩
  · rintro ⟨k, hk⟩
    exact ⟨k, by exact_mod_cast hk⟩

/-- **Validation accepts exactly the valid configurations.** -/
theorem postInit_eq_ok_iff_valid : c.postInit = .ok () ↔ c.Valid := by
  rw [postInit_eq_ok_iff]
  constructor
  · rintro ⟨⟨h1, h2⟩, h3, h4, ⟨h5, h6⟩, h7, h8, h9, h10, h11, h12, h13, h14, h15⟩
    exact ⟨h1, h2, h3, Int.dvd_of_emod_eq_zero h4, h5, (land_eq_zero_iff_exists_pow h5).mp h6,
      h7, h8, h9, h10, h11, h12, h13, Int.dvd_of_emod_eq_zero h14, h15⟩
  · intro h
    exact ⟨⟨h.maxGroupSize_pos, h.maxGroupSize_le⟩, h.maxCollectiveBytes_pos,
      Int.emod_eq_zero_of_dvd h.alignment_dvd,
      ⟨h.alignment_ge, (land_eq_zero_iff_exists_pow h.alignment_ge).mpr h.alignment_pow⟩,
      h.copySms_pos, h.timeoutMs_nonneg, h.pipelineChunks_pos, h.maxPipelineChunks_pos,
      h.pipelineChunks_le, h.pipelineMinChunkBytes_pos, h.fusedChunkSize_pos,
      Int.emod_eq_zero_of_dvd h.alignment_dvd_chunk, h.fusedNumChannels_pos⟩

/-! ## The derived sizes -/

/-- Python's `a // b`, which raises when `b` is zero. -/
def floorDiv (a b : ℤ) : Except PyError ℤ :=
  if b = 0 then throw .zeroDivisionError else pure (a.fdiv b)

/-- `fused_max_chunks_per_channel`. -/
def fusedMaxChunksPerChannel : Except PyError ℤ := do
  let q ← floorDiv (c.maxCollectiveBytes + c.fusedChunkSize - 1) c.fusedChunkSize
  pure (q + 1)

/-- The number of cells `allocate_symm_regions` allocates for `step_pad`. -/
def stepPadCells (worldSize : ℤ) : Except PyError ℤ := do
  pure (c.fusedNumChannels * (← c.fusedMaxChunksPerChannel) * worldSize)

/-- `num_signal_slots`. -/
def numSignalSlots (_ : SymmetricCollectiveConfig) : ℤ := 2

/-- `(x + alignment - 1) & ~(alignment - 1)`. -/
def roundUp (x : ℤ) : ℤ := (x + c.alignment - 1).land (c.alignment - 1).lnot

/-- The sizes derived from the fields are defined and positive, and the alignment mask
rounds up to a multiple of the alignment. -/
structure DerivedSizes : Prop where
  commBuf : 0 < c.maxCollectiveBytes
  signalBuf : ∀ worldSize : ℤ, 0 < worldSize → 0 < c.numSignalSlots * worldSize
  chunkBound : ∃ n, c.fusedMaxChunksPerChannel = .ok n ∧ 0 < n
  stepPad : ∀ worldSize : ℤ, 0 < worldSize → ∃ n, c.stepPadCells worldSize = .ok n ∧ 0 < n
  pipelineBound : 0 < c.maxPipelineChunks
  mask : ∀ x : ℤ, 0 ≤ x → c.alignment ∣ c.roundUp x ∧ x ≤ c.roundUp x ∧
    c.roundUp x < x + c.alignment

variable {c}

/-- On a valid configuration the mask is rounding up. -/
theorem Valid.roundUp_eq (h : c.Valid) (x : ℕ) :
    c.roundUp x = (alignUp x c.alignment.toNat : ℕ) ∧ c.alignment.toNat.isPowerOfTwo := by
  obtain ⟨k, hk⟩ := h.alignment_pow
  have hge := h.alignment_ge
  obtain ⟨a, ha⟩ : ∃ a : ℕ, c.alignment = (a : ℤ) := ⟨c.alignment.toNat, by omega⟩
  have hpow : a = 2 ^ k := by
    rw [ha] at hk
    exact_mod_cast hk
  rw [roundUp, ha]
  obtain ⟨b, rfl⟩ : ∃ b : ℕ, a = b + 1 := ⟨a - 1, by omega⟩
  refine ⟨?_, k, by simpa using hpow⟩
  have hsum : (x : ℤ) + ((b + 1 : ℕ) : ℤ) - 1 = ((x + b : ℕ) : ℤ) := by push_cast; ring
  have hmask : ((b + 1 : ℕ) : ℤ) - 1 = (b : ℕ) := by push_cast; ring
  rw [hsum, hmask]
  rfl

theorem Valid.fusedMaxChunksPerChannel (h : c.Valid) :
    ∃ n, c.fusedMaxChunksPerChannel = .ok n ∧ 0 < n := by
  have hchunk := h.fusedChunkSize_pos
  have hbytes := h.maxCollectiveBytes_pos
  refine ⟨(c.maxCollectiveBytes + c.fusedChunkSize - 1).fdiv c.fusedChunkSize + 1, ?_, ?_⟩
  · rw [SymmetricCollectiveConfig.fusedMaxChunksPerChannel, floorDiv, if_neg hchunk.ne']
    rfl
  · have hnonneg := Int.fdiv_nonneg (by omega :
      0 ≤ c.maxCollectiveBytes + c.fusedChunkSize - 1) hchunk.le
    omega

theorem Valid.derivedSizes (h : c.Valid) : c.DerivedSizes where
  commBuf := h.maxCollectiveBytes_pos
  signalBuf := fun worldSize hw => mul_pos (show (0 : ℤ) < 2 by decide) hw
  chunkBound := h.fusedMaxChunksPerChannel
  stepPad := by
    intro worldSize hw
    obtain ⟨n, hn, hpos⟩ := h.fusedMaxChunksPerChannel
    refine ⟨c.fusedNumChannels * n * worldSize, ?_,
      mul_pos (mul_pos h.fusedNumChannels_pos hpos) hw⟩
    rw [stepPadCells, hn]
    rfl
  pipelineBound := h.maxPipelineChunks_pos
  mask := by
    intro x hx
    lift x to ℕ using hx
    obtain ⟨heq, hpow⟩ := h.roundUp_eq x
    have hge := h.alignment_ge
    have hcast : ((c.alignment.toNat : ℕ) : ℤ) = c.alignment := by omega
    have hdvd : c.alignment.toNat ∣ alignUp x c.alignment.toNat := dvd_alignUp hpow
    have hle : x ≤ alignUp x c.alignment.toNat := le_alignUp hpow
    have hlt : alignUp x c.alignment.toNat < x + c.alignment.toNat := alignUp_lt hpow
    rw [heq]
    refine ⟨?_, by exact_mod_cast hle, by omega⟩
    have hcast_dvd := Int.natCast_dvd_natCast.mpr hdvd
    rwa [hcast] at hcast_dvd

/-! ## The outcome of the constructor -/

variable (c)

/-- The constructor raises `ValueError` when a stated constraint is violated, and otherwise
returns a configuration whose derived sizes are defined and positive. -/
def ChecksExactly : Prop :=
  (c.postInit = .ok () ∧ c.Valid ∧ c.DerivedSizes) ∨
    ((∃ msg, c.postInit = .error (.valueError msg)) ∧ ¬ c.Valid)

/-- With a zero alignment the division raises once the two checks before it have passed. -/
theorem postInit_of_alignment_eq_zero (hsize : 0 < c.maxGroupSize ∧ c.maxGroupSize ≤ 16)
    (hbytes : 0 < c.maxCollectiveBytes) (ha : c.alignment = 0) :
    c.postInit = .error .zeroDivisionError := by
  have hdiv : ∀ a : ℤ, divides c.alignment a = .error .zeroDivisionError := by
    intro a
    rw [divides, if_pos ha]
    rfl
  simp [postInit, require, hsize, hbytes, hdiv, bind, Except.bind, pure, Except.pure]

/-- **The constructor checks its constraints exactly, unless the division by `alignment`
comes first.** -/
theorem constructor_checks_exactly_iff :
    c.ChecksExactly ↔
      ¬ ((0 < c.maxGroupSize ∧ c.maxGroupSize ≤ 16) ∧ 0 < c.maxCollectiveBytes ∧
        c.alignment = 0) := by
  constructor
  · rintro hchecks ⟨hsize, hbytes, ha⟩
    have hrun := c.postInit_of_alignment_eq_zero hsize hbytes ha
    rcases hchecks with ⟨hok, -, -⟩ | ⟨⟨msg, herr⟩, -⟩
    · cases hrun.symm.trans hok
    · cases hrun.symm.trans herr
  · intro hnot
    have honly := c.raisesOnlyValueError_postInit fun hsize hbytes ha => hnot ⟨hsize, hbytes, ha⟩
    cases hrun : c.postInit with
    | ok u =>
      have hvalid := c.postInit_eq_ok_iff_valid.mp hrun
      exact Or.inl ⟨hrun, hvalid, hvalid.derivedSizes⟩
    | error e =>
      obtain ⟨msg, rfl⟩ := honly e hrun
      refine Or.inr ⟨⟨msg, hrun⟩, fun hvalid => ?_⟩
      cases hrun.symm.trans (c.postInit_eq_ok_iff_valid.mpr hvalid)

/-- All defaults but a zero alignment. -/
theorem zero_alignment_divides_by_zero :
    ¬ ∀ c : SymmetricCollectiveConfig, c.ChecksExactly := by
  intro h
  rcases h { alignment := 0 } with ⟨hok, -, -⟩ | ⟨⟨msg, herr⟩, -⟩
  · cases hok
  · cases herr

end SymmetricCollectiveConfig

end GroupFreeCollectives
