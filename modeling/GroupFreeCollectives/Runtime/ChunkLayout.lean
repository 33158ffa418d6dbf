import GroupFreeCollectives.Runtime.Run

/-!
# The chunks that pipelining really takes

`_effective_pipeline_chunks` chooses the number of chunks and `_chunk_layout` cuts the axis
into them.  The loop of the layout walks the axis in steps of the rounded nominal size, and
`mem_layoutLoop` says so without the loop: the chunk at step `i` starts at `i` nominal sizes
and is cut off by the end of the axis.

Two results read it.  Together the functions always give a partition at aligned offsets
that stays within `max_pipeline_chunks` (`pipelined_layout_is_partition`).  And every chunk but
the last has the rounded size, which is at least the configured minimum; the last one has
what remains, and `chunks_respect_minimum_iff` says when that is too little.
-/

namespace GroupFreeCollectives

open Tiling

variable {axis nominal n off chunks align : ℕ}

/-! ## The chunks of the loop -/

theorem layoutLoop_of_le (h : axis ≤ off) : (layoutLoop axis nominal n off).1 = [] := by
  cases n with
  | zero => rfl
  | succ n => rw [layoutLoop, if_neg (not_lt.mpr h)]

/-- The chunk of step `i` starts `i` nominal sizes further on. -/
theorem mem_layoutLoop {c : ℕ × ℕ} (hcover : axis ≤ off + n * nominal) :
    c ∈ (layoutLoop axis nominal n off).1 ↔ ∃ i, off + i * nominal < axis ∧
      c = (off + i * nominal, min nominal (axis - (off + i * nominal))) := by
  induction n generalizing off with
  | zero =>
    rw [Nat.zero_mul, Nat.add_zero] at hcover
    refine iff_of_false (List.not_mem_nil) ?_
    rintro ⟨i, hi, -⟩
    omega
  | succ n ih =>
    rw [Nat.succ_mul] at hcover
    by_cases hlt : off < axis
    · have hcons : (layoutLoop axis nominal (n + 1) off).1 =
          (off, min nominal (axis - off)) ::
            (layoutLoop axis nominal n (off + min nominal (axis - off))).1 := by
        rw [layoutLoop, if_pos hlt]
      have hfirst : c = (off, min nominal (axis - off)) ↔
          c = (off + 0 * nominal, min nominal (axis - (off + 0 * nominal))) := by
        rw [Nat.zero_mul, Nat.add_zero]
      have hnext : ∀ i, off + nominal + i * nominal = off + (i + 1) * nominal := by
        intro i
        rw [Nat.succ_mul]
        omega
      rw [hcons, List.mem_cons]
      by_cases hfull : nominal ≤ axis - off
      · rw [min_eq_left hfull] at hfirst ⊢
        rw [ih (by omega)]
        simp only [hnext]
        constructor
        · rintro (h | ⟨i, hi, h⟩)
          · exact ⟨0, by omega, hfirst.mp h⟩
          · exact ⟨i + 1, hi, h⟩
        · rintro ⟨i, hi, h⟩
          cases i with
          | zero => exact Or.inl (hfirst.mpr h)
          | succ i => exact Or.inr ⟨i, hi, h⟩
      · -- the last chunk: the loop ends behind it
        have hend : axis ≤ off + min nominal (axis - off) := by omega
        rw [layoutLoop_of_le hend, hfirst]
        constructor
        · rintro (h | h)
          · exact ⟨0, by omega, h⟩
          · exact absurd h List.not_mem_nil
        · rintro ⟨i, hi, h⟩
          cases i with
          | zero => exact Or.inl h
          | succ i =>
            rw [Nat.succ_mul] at hi
            omega
    · refine iff_of_false ?_ ?_
      · rw [layoutLoop_of_le (not_lt.mp hlt)]
        exact List.not_mem_nil
      · rintro ⟨i, hi, -⟩
        omega

/-- The chunks of a layout of more than one. -/
theorem mem_layoutChunks {c : ℕ × ℕ} (hal : align.isPowerOfTwo) (hc : 1 < chunks)
    (ha : 0 < axis) :
    c ∈ layoutChunks axis chunks align ↔ ∃ i, i * alignUp (cdiv axis chunks) align < axis ∧
      c = (i * alignUp (cdiv axis chunks) align,
        min (alignUp (cdiv axis chunks) align) (axis - i * alignUp (cdiv axis chunks) align)) := by
  have hcover : axis ≤ 0 + chunks * alignUp (cdiv axis chunks) align := by
    rw [Nat.zero_add]
    exact le_mul_alignUp hal (by omega)
  rw [(layoutChunks_eq hal hc ha).1, mem_layoutLoop hcover]
  simp only [Nat.zero_add]

/-! ## The partition -/

/-- The runs of a layout follow one another from 0 to the end of the axis, each of them
nonempty and at an aligned offset. -/
structure AlignedPartition (align axis : ℕ) (layout : List (ℕ × ℕ)) : Prop where
  ne_nil : layout ≠ []
  contiguous : Contiguous 0 layout axis
  size_pos : ∀ c ∈ layout, 0 < c.2
  dvd_offset : ∀ c ∈ layout, align ∣ c.1

theorem layoutChunks_partition (hal : align.isPowerOfTwo) (hc : 1 ≤ chunks) (ha : 0 < axis) :
    AlignedPartition align axis (layoutChunks axis chunks align) := by
  obtain ⟨hcont, -⟩ := layoutChunks_contiguous hal hc ha
  refine ⟨?_, hcont, fun c hmem => (hcont.bounds hmem).2.1, ?_⟩
  · intro hnil
    rw [hnil] at hcont
    have hzero : 0 = axis := hcont
    omega
  · intro c hmem
    rcases Nat.eq_or_lt_of_le hc with rfl | hc
    · rw [layoutChunks, if_pos (Or.inl rfl), List.mem_singleton] at hmem
      rw [hmem]
      exact dvd_zero align
    · obtain ⟨i, -, rfl⟩ := (mem_layoutChunks hal hc ha).mp hmem
      exact Dvd.dvd.mul_left (dvd_alignUp hal) i

namespace Runtime

variable (rt : Runtime)

theorem effectivePipelineChunks_le (override : Option ℤ) :
    rt.effectivePipelineChunks axis override ≤ rt.config.maxPipelineChunks := by
  rcases Nat.eq_or_lt_of_le (rt.one_le_effectivePipelineChunks axis override) with heq | hlt
  · rw [← heq]
    exact rt.config.maxPipelineChunks_pos
  · exact (rt.of_one_lt_effectivePipelineChunks hlt).2.2.2

/-- **The pipelined chunk layout is an aligned partition** of the axis into at most
`max_pipeline_chunks` chunks, so that the helpers that take it run through. -/
theorem pipelined_layout_is_partition (axis : ℕ) (override : Option ℤ) (ha : 0 < axis) :
    ∃ layout,
      chunkLayout axis (rt.effectivePipelineChunks axis override) rt.config.alignment
          = .ok layout ∧
        AlignedPartition rt.config.alignment axis layout ∧
        layout.length ≤ rt.effectivePipelineChunks axis override ∧
        layout.length ≤ rt.config.maxPipelineChunks ∧
        ∀ (a : CollectiveArgs) (s : RuntimeState rt.rank rt.worldSize), a.sliceBytes = axis →
          0 < a.group.size → 0 < a.row.length →
          ∃ s', (rt.pipelined a (rt.effectivePipelineChunks axis override)).run s = .ok () s' := by
  have hone := rt.one_le_effectivePipelineChunks axis override
  have hmax : rt.effectivePipelineChunks axis override ≤ rt.config.maxPipelineChunks :=
    rt.effectivePipelineChunks_le override
  have hlen := (layoutChunks_contiguous rt.config.alignment_pow hone ha).2
  refine ⟨_, chunkLayout_eq hone, layoutChunks_partition rt.config.alignment_pow hone ha, hlen,
    le_trans hlen hmax, ?_⟩
  rintro a s rfl hG hrow
  exact ⟨_, run_pipelined hG hrow hone hmax ha⟩

theorem pipelined_layout_is_partition_witness :
    ∃ layout,
      chunkLayout 1048577 ((pairRuntime Config.default none 0).effectivePipelineChunks 1048577
          (some 4)) 128 = .ok layout ∧
        AlignedPartition 128 1048577 layout := by
  obtain ⟨layout, hrun, hpart, -⟩ := pipelined_layout_is_partition
    (pairRuntime Config.default none 0) 1048577 (some 4) (by decide)
  exact ⟨layout, hrun, hpart⟩

/-! ## The minimum chunk size -/

variable {rt} {override : Option ℤ}

variable (rt) in
/-- When the axis is cut into more than one chunk, every chunk has the minimum size. -/
def RespectsMinimum (axis : ℕ) (override : Option ℤ) : Prop :=
  ∀ layout, chunkLayout axis (rt.effectivePipelineChunks axis override) rt.config.alignment
      = .ok layout →
    1 < layout.length → ∀ c ∈ layout, rt.config.pipelineMinChunkBytes ≤ c.2

variable (rt) in
/-- The size of a full chunk: the axis over the number of chunks, rounded up to a multiple of
the alignment. -/
def fullChunk (axis : ℕ) (override : Option ℤ) : ℕ :=
  let count := min (rt.targetChunks override).toNat (axis / rt.config.pipelineMinChunkBytes)
  cdiv (cdiv axis count) rt.config.alignment * rt.config.alignment

theorem two_le_count (h : rt.MaySplit axis override) :
    2 ≤ min (rt.targetChunks override).toNat (axis / rt.config.pipelineMinChunkBytes) := by
  obtain ⟨-, -, htarget, haxis⟩ := h
  have htwo := (Nat.le_div_iff_mul_le rt.config.pipelineMinChunkBytes_pos).mpr haxis
  omega

/-- Full chunks have the minimum size: the cap leaves that much for each on average. -/
theorem minChunk_le_fullChunk (h : rt.MaySplit axis override) :
    rt.config.pipelineMinChunkBytes ≤ rt.fullChunk axis override := by
  have hpos := rt.config.pipelineMinChunkBytes_pos
  have htwo := two_le_count h
  rw [fullChunk]
  generalize hcount : min (rt.targetChunks override).toNat
    (axis / rt.config.pipelineMinChunkBytes) = count at htwo ⊢
  have hcap : count ≤ axis / rt.config.pipelineMinChunkBytes := by omega
  have hmul : rt.config.pipelineMinChunkBytes * count ≤ axis := by
    rw [Nat.mul_comm]
    exact (Nat.le_div_iff_mul_le hpos).mp hcap
  have haverage : rt.config.pipelineMinChunkBytes - 1 < cdiv axis count := by
    rw [lt_cdiv_iff (by omega)]
    exact lt_of_lt_of_le (Nat.mul_lt_mul_of_pos_right (by omega) (by omega)) hmul
  have hround := le_cdiv_mul (a := cdiv axis count) rt.config.alignment_pos
  omega

/-- The chunks of a call that may split. -/
theorem mem_effectiveLayout (h : rt.MaySplit axis override) {c : ℕ × ℕ} :
    c ∈ layoutChunks axis (rt.effectivePipelineChunks axis override) rt.config.alignment ↔
      ∃ i, i * rt.fullChunk axis override < axis ∧
        c = (i * rt.fullChunk axis override,
          min (rt.fullChunk axis override) (axis - i * rt.fullChunk axis override)) := by
  have htwo := two_le_count h
  have haxis := h.2.2.2
  have hpos := rt.config.pipelineMinChunkBytes_pos
  rw [effectivePipelineChunks_of_maySplit h,
    mem_layoutChunks rt.config.alignment_pow (by omega) (by omega),
    alignUp_eq rt.config.alignment_pow]
  rfl

/-- **Pipelining respects the minimum chunk size, unless full chunks leave a remainder that
is below it.** -/
theorem chunks_respect_minimum_iff :
    rt.RespectsMinimum axis override ↔
      ¬ (rt.MaySplit axis override ∧ rt.fullChunk axis override < axis ∧
        0 < axis % rt.fullChunk axis override ∧
        axis % rt.fullChunk axis override < rt.config.pipelineMinChunkBytes) := by
  have hone := rt.one_le_effectivePipelineChunks axis override
  have hmin := rt.config.pipelineMinChunkBytes_pos
  constructor
  · rintro hrespects ⟨hsplit, hlt, hpos, hshort⟩
    have hfull := minChunk_le_fullChunk hsplit
    have hmem := fun c => mem_effectiveLayout hsplit (c := c)
    have hrun := hrespects _ (chunkLayout_eq hone)
    generalize layoutChunks axis (rt.effectivePipelineChunks axis override)
      rt.config.alignment = layout at hmem hrun
    have hdiv := Nat.div_add_mod' axis (rt.fullChunk axis override)
    have hquot : 0 < axis / rt.fullChunk axis override := Nat.div_pos hlt.le (by omega)
    -- the first chunk and the one with the remainder
    have hfirst := (hmem _).mpr ⟨0, by omega, rfl⟩
    have hlast := (hmem _).mpr ⟨axis / rt.fullChunk axis override, by omega, rfl⟩
    have hne : 0 * rt.fullChunk axis override ≠
        axis / rt.fullChunk axis override * rt.fullChunk axis override := by
      have := Nat.mul_pos hquot (by omega : 0 < rt.fullChunk axis override)
      omega
    have hmany : 1 < layout.length := by
      by_contra hfew
      obtain ⟨c, rfl⟩ := List.length_eq_one_iff.mp
        (le_antisymm (not_lt.mp hfew) (List.length_pos_of_mem hfirst))
      rw [List.mem_singleton] at hfirst hlast
      exact hne (congrArg Prod.fst (hfirst.trans hlast.symm))
    have hsize := hrun hmany _ hlast
    simp only at hsize
    omega
  · rintro hnot layout hlayout hmany c hc
    obtain rfl := Except.ok.inj ((chunkLayout_eq hone).symm.trans hlayout)
    have hsplit : rt.MaySplit axis override := by
      refine maySplit_of_effectivePipelineChunks_ne_one fun heq => ?_
      rw [heq] at hmany
      simp [layoutChunks] at hmany
    have hfull := minChunk_le_fullChunk hsplit
    obtain ⟨i, hi, rfl⟩ := (mem_effectiveLayout hsplit).mp hc
    refine le_min hfull ?_
    by_contra hsmall
    -- less than a full chunk is left, so this is the chunk with the remainder
    have hmod : axis % rt.fullChunk axis override = axis - i * rt.fullChunk axis override := by
      rw [Nat.mul_comm] at hi hsmall ⊢
      rw [← Nat.sub_mul_mod hi.le, Nat.mod_eq_of_lt (by omega)]
    by_cases hlt : rt.fullChunk axis override < axis
    · exact hnot ⟨hsplit, hlt, by omega, by omega⟩
    · have haxis := hsplit.2.2.2
      cases i with
      | zero => omega
      | succ i =>
        rw [Nat.succ_mul] at hi
        omega

/-- Four chunks of at least 256 KiB: the fourth one is too small. -/
theorem last_chunk_can_be_small :
    ¬ ∀ (rt : Runtime) (axis : ℕ) (override : Option ℤ), rt.RespectsMinimum axis override := by
  intro h
  have hsize := h (pairRuntime Config.default none 0) 1048577 (some 4) _ rfl
    (by decide +kernel) (786816, 261761) (by decide +kernel)
  exact absurd hsize (by decide)

end Runtime

end GroupFreeCollectives
