import GroupFreeCollectives.Runtime.State

/-!
# The pipeline chunks of a collective

`_effective_pipeline_chunks` and `_chunk_layout` of `gfc/runtime.py`.  For an accepted
configuration the layout is a partition of the axis into at most the requested number
of chunks (`layoutChunks_contiguous`): rounding the nominal size up leaves no remainder
for the last branch to absorb.
-/

namespace GroupFreeCollectives

open Tiling

namespace Runtime

variable (rt : Runtime)

/-- `_effective_pipeline_chunks`. -/
def effectivePipelineChunks (axisBytes : ℕ) (override : Option ℤ) : ℕ :=
  if rt.tmaEnabled ∨ rt.copyEngineEnabled then 1
  else
    let target := override.getD rt.config.pipelineChunks
    let target := min target rt.config.maxPipelineChunks
    if target ≤ 1 then 1
    else
      let minChunk := rt.config.pipelineMinChunkBytes
      if axisBytes < 2 * minChunk then 1
      else
        let maxBySize := max 1 (axisBytes / minChunk)
        max 1 (min target.toNat maxBySize)

/-- What the call asks for, capped by `max_pipeline_chunks`. -/
def targetChunks (override : Option ℤ) : ℤ :=
  min (override.getD rt.config.pipelineChunks) rt.config.maxPipelineChunks

/-- The path supports chunks, more than one is asked for, and the axis has room for two of
the minimum size. -/
def MaySplit (axis : ℕ) (override : Option ℤ) : Prop :=
  rt.tmaEnabled = false ∧ rt.copyEngineEnabled = false ∧ 1 < rt.targetChunks override ∧
    2 * rt.config.pipelineMinChunkBytes ≤ axis

variable {rt} {axis : ℕ} {override : Option ℤ}

theorem effectivePipelineChunks_of_maySplit (h : rt.MaySplit axis override) :
    rt.effectivePipelineChunks axis override =
      min (rt.targetChunks override).toNat (axis / rt.config.pipelineMinChunkBytes) := by
  obtain ⟨htma, hengine, htarget, haxis⟩ := h
  have hpos := rt.config.pipelineMinChunkBytes_pos
  have htwo : 2 ≤ axis / rt.config.pipelineMinChunkBytes := (Nat.le_div_iff_mul_le hpos).mpr haxis
  unfold effectivePipelineChunks
  rw [if_neg (by simp [htma, hengine])]
  show (if rt.targetChunks override ≤ 1 then 1 else _) = _
  rw [if_neg (not_le.mpr htarget)]
  show (if axis < 2 * rt.config.pipelineMinChunkBytes then 1 else
    max 1 (min (rt.targetChunks override).toNat _)) = _
  rw [if_neg (not_lt.mpr haxis)]
  omega

theorem maySplit_of_effectivePipelineChunks_ne_one
    (hne : rt.effectivePipelineChunks axis override ≠ 1) : rt.MaySplit axis override := by
  revert hne
  unfold effectivePipelineChunks
  dsimp only
  split
  case isTrue => exact fun h => absurd rfl h
  case isFalse hpath =>
    rw [not_or] at hpath
    split
    case isTrue => exact fun h => absurd rfl h
    case isFalse htarget =>
      split
      case isTrue => exact fun h => absurd rfl h
      case isFalse haxis =>
        intro _
        exact ⟨by simpa using hpath.1, by simpa using hpath.2, not_le.mp htarget,
          not_lt.mp haxis⟩

/-- What more than one chunk says about the call. -/
theorem of_one_lt_effectivePipelineChunks (h : 1 < rt.effectivePipelineChunks axis override) :
    rt.tmaEnabled = false ∧ rt.copyEngineEnabled = false ∧ 0 < axis ∧
      rt.effectivePipelineChunks axis override ≤ rt.config.maxPipelineChunks := by
  have hsplit := maySplit_of_effectivePipelineChunks_ne_one h.ne'
  rw [effectivePipelineChunks_of_maySplit hsplit, targetChunks]
  obtain ⟨htma, hengine, -, haxis⟩ := hsplit
  have hmin := rt.config.pipelineMinChunkBytes_pos
  exact ⟨htma, hengine, by omega, by omega⟩

variable (rt)

theorem one_le_effectivePipelineChunks (axis : ℕ) (override : Option ℤ) :
    1 ≤ rt.effectivePipelineChunks axis override := by
  unfold effectivePipelineChunks
  dsimp only
  split_ifs <;> omega

end Runtime

/-! ## The layout -/

/-- The loop of `_chunk_layout` for at most so many more chunks: the chunks from `off`
on, and where they end. -/
def layoutLoop (axisBytes nominal : ℕ) : ℕ → ℕ → List (ℕ × ℕ) × ℕ
  | 0, off => ([], off)
  | n + 1, off =>
    if off < axisBytes then
      let size := min nominal (axisBytes - off)
      let (layout, last) := layoutLoop axisBytes nominal n (off + size)
      ((off, size) :: layout, last)
    else ([], off)

/-- Add what is left of the axis to the last chunk. -/
def absorb (rest : ℕ) : List (ℕ × ℕ) → List (ℕ × ℕ)
  | [] => []
  | [(off, size)] => [(off, size + rest)]
  | c :: cs => c :: absorb rest cs

/-- The layout of at least one chunk. -/
def layoutChunks (axisBytes chunks align : ℕ) : List (ℕ × ℕ) :=
  if chunks = 1 ∨ axisBytes = 0 then [(0, axisBytes)]
  else
    let nominal := alignUp (cdiv axisBytes chunks) align
    let (layout, off) := layoutLoop axisBytes nominal chunks 0
    if off < axisBytes then absorb (axisBytes - off) layout else layout

/-- `_chunk_layout`. -/
def chunkLayout (axisBytes chunks align : ℕ) : Except PyError (List (ℕ × ℕ)) := do
  require (1 ≤ chunks) "chunks must be >= 1"
  pure (layoutChunks axisBytes chunks align)

variable {axis nominal n off chunks align : ℕ}

/-- The chunks of the loop follow one another. -/
theorem layoutLoop_contiguous (axis n off : ℕ) (hn : 0 < nominal) :
    Contiguous off (layoutLoop axis nominal n off).1 (layoutLoop axis nominal n off).2 := by
  induction n generalizing off with
  | zero => rfl
  | succ n ih =>
    rw [layoutLoop]
    split
    case isTrue hlt => exact ⟨rfl, lt_min hn (Nat.sub_pos_of_lt hlt), ih _⟩
    case isFalse => rfl

theorem length_layoutLoop : (layoutLoop axis nominal n off).1.length ≤ n := by
  induction n generalizing off with
  | zero => exact le_refl _
  | succ n ih =>
    rw [layoutLoop]
    split
    case isTrue => exact Nat.succ_le_succ ih
    case isFalse => exact Nat.zero_le _

/-- Enough chunks reach the end of the axis. -/
theorem layoutLoop_end (hoff : off ≤ axis) (hend : axis ≤ off + n * nominal) :
    (layoutLoop axis nominal n off).2 = axis := by
  induction n generalizing off with
  | zero =>
    rw [Nat.zero_mul] at hend
    exact le_antisymm hoff hend
  | succ n ih =>
    rw [Nat.succ_mul] at hend
    rw [layoutLoop]
    split
    case isTrue hlt => exact ih (by omega) (by omega)
    case isFalse hge => exact le_antisymm hoff (not_lt.mp hge)

/-- So many chunks of the rounded size reach over the axis. -/
theorem le_mul_alignUp (hal : align.isPowerOfTwo) (hc : 0 < chunks) :
    axis ≤ chunks * alignUp (cdiv axis chunks) align := by
  have hle : cdiv axis chunks ≤ alignUp (cdiv axis chunks) align := le_alignUp hal
  calc axis ≤ cdiv axis chunks * chunks := le_cdiv_mul hc
    _ ≤ alignUp (cdiv axis chunks) align * chunks := Nat.mul_le_mul_right _ hle
    _ = chunks * alignUp (cdiv axis chunks) align := Nat.mul_comm _ _

/-- Rounding the nominal size up leaves nothing to absorb. -/
theorem layoutChunks_eq (hal : align.isPowerOfTwo) (hc : 1 < chunks) (ha : 0 < axis) :
    layoutChunks axis chunks align =
        (layoutLoop axis (alignUp (cdiv axis chunks) align) chunks 0).1 ∧
      (layoutLoop axis (alignUp (cdiv axis chunks) align) chunks 0).2 = axis := by
  have hcover : axis ≤ 0 + chunks * alignUp (cdiv axis chunks) align := by
    rw [Nat.zero_add]
    exact le_mul_alignUp hal (by omega)
  have hend := layoutLoop_end (Nat.zero_le axis) hcover
  refine ⟨?_, hend⟩
  unfold layoutChunks
  rw [if_neg (by omega)]
  show (if (layoutLoop axis _ chunks 0).2 < axis then _ else _) = _
  rw [hend, if_neg (lt_irrefl axis)]

/-- **The layout is a partition of the axis** into at most the requested number of
chunks. -/
theorem layoutChunks_contiguous (hal : align.isPowerOfTwo) (hc : 1 ≤ chunks) (ha : 0 < axis) :
    Contiguous 0 (layoutChunks axis chunks align) axis ∧
      (layoutChunks axis chunks align).length ≤ chunks := by
  rcases Nat.eq_or_lt_of_le hc with rfl | hc
  · unfold layoutChunks
    rw [if_pos (Or.inl rfl)]
    exact ⟨⟨rfl, ha, Nat.zero_add axis⟩, le_refl 1⟩
  · obtain ⟨heq, hend⟩ := layoutChunks_eq hal hc ha
    have hpos : 0 < cdiv axis chunks := (lt_cdiv_iff (by omega)).mpr (by omega)
    have h := layoutLoop_contiguous axis chunks 0 (lt_of_lt_of_le hpos (le_alignUp hal))
    rw [hend] at h
    rw [heq]
    exact ⟨h, length_layoutLoop⟩

theorem chunkLayout_eq (hc : 1 ≤ chunks) :
    chunkLayout axis chunks align = .ok (layoutChunks axis chunks align) :=
  require_bind_ok_iff.mpr ⟨decide_eq_true hc, rfl⟩

end GroupFreeCollectives
