import GroupFreeCollectives.Runtime.Entry

/-!
# The step pad of the fused path

`step_pad` is allocated once, for the channels and the chunk bound of the configuration.
The bound on the chunks of a launch is computed three times: by the configuration, by the
guard of the autotune dispatch, and by the launcher after the pre-barrier.  A decision for
the fused path has passed the first or the second, so the third never fires, and every
cell that a sender publishes or a receiver waits for lies in the allocation
(`fused_step_grid_in_bounds`).
-/

namespace GroupFreeCollectives

open FusedKernelArgs

/-- `step_pad`'s extent, as `allocate_symm_regions` sizes it on every rank. -/
def stepPadSize (cfg : Config) (worldSize : ℕ) : ℕ :=
  cfg.fusedNumChannels * cfg.fusedMaxChunksPerChannel * worldSize

namespace FusedKernelArgs

variable {a a' : FusedKernelArgs} {stage : ℕ → ℕ → List DataAct} {pullOff : ℕ} {o : Op DataAct}

/-- A publication of a fused kernel, with its channel and chunk. -/
theorem exists_of_stepPublish (hv : a.Valid) {kind : Collective} (ho : o ∈ a.kernel kind)
    {q cell v : ℕ} (hact : o.act = .stepPublish q cell v) :
    ∃ c k y, a.IsChunk c k ∧ y ∈ a.peers ∧ y.2 = q ∧ cell = a.cellOff c k a.selfGlobalRank ∧
      v = stepValue a.stepBase k ∧ o.thread = 2 * c ∧ o.phase = 2 * k + 1 := by
  rw [kernel_eq] at ho
  obtain ⟨c, k, hch, hop⟩ := (mem_fusedKernel_iff hv).mp ho
  rcases hop with ⟨d, hd, rfl⟩ | ⟨y, hy, rfl⟩ | rfl | ⟨y, -, j, -, rfl⟩
  · rcases (mem_stage hv).mp hd with ⟨_, _, _, _, rfl⟩ | ⟨_, _, rfl⟩ <;> cases hact
  · cases hact
    exact ⟨c, k, y, hch, hy, rfl, rfl, rfl, rfl, rfl⟩
  · cases hact
  · cases hact

/-- A wait of a fused kernel, with its channel and chunk. -/
theorem exists_of_stepAwait (hv : a.Valid) {kind : Collective} (ho : o ∈ a.kernel kind)
    {cells : List ℕ} {v : ℕ} (hact : o.act = .stepAwait cells v) :
    ∃ c k, a.IsChunk c k ∧ cells = (a.peers.map fun y => a.cellOff c k y.2) ∧
      v = stepValue a.stepBase k ∧ o.thread = 2 * c + 1 ∧ o.phase = 2 * k + 2 := by
  rw [kernel_eq] at ho
  obtain ⟨c, k, hch, hop⟩ := (mem_fusedKernel_iff hv).mp ho
  rcases hop with ⟨d, hd, rfl⟩ | ⟨y, -, rfl⟩ | rfl | ⟨y, -, j, -, rfl⟩
  · rcases (mem_stage hv).mp hd with ⟨_, _, _, _, rfl⟩ | ⟨_, _, rfl⟩ <;> cases hact
  · cases hact
  · cases hact
    exact ⟨c, k, hch, rfl, rfl, rfl, rfl⟩
  · cases hact

theorem mem_kernel_await (hv : a.Valid) {kind : Collective} {c k : ℕ} (hch : a.IsChunk c k) :
    (⟨2 * c + 1, 2 * k + 2, .stepAwait (a.peers.map fun y => a.cellOff c k y.2)
      (stepValue a.stepBase k)⟩ : Op DataAct) ∈ a.kernel kind := by
  rw [kernel_eq]
  exact (mem_fusedKernel_iff hv).mpr ⟨c, k, hch, Or.inr (Or.inr (Or.inl rfl))⟩

end FusedKernelArgs

/-- A fused call of a member that gets to its launch: the decision, by the default path or
by a policy that the guard accepted, is for these channels and chunks. -/
structure FusedMember (rt : Runtime) (a : CollectiveArgs) (numChannels chunkBytes : ℤ) : Prop where
  describes : a.group.Describes rt.rank rt.worldSize
  member : 0 ≤ a.group.localIndex
  row_eq : a.row = a.group.ranks
  slice_pos : 0 < a.sliceBytes
  slice_le : a.sliceBytes ≤ rt.config.maxCollectiveBytes
  plan : ∃ policy override, rt.plan policy (rt.effectivePipelineChunks a.sliceBytes override)
    a.sliceBytes a.output.dataPtr = .ok (.fused numChannels chunkBytes)

namespace FusedMember

variable {rt rt' : Runtime} {a a' : CollectiveArgs} {numChannels chunkBytes : ℤ}

theorem ready (h : FusedMember rt a numChannels chunkBytes) :
    rt.Ready a.sliceBytes a.output.dataPtr (.fused numChannels chunkBytes) := by
  obtain ⟨policy, override, hplan⟩ := h.plan
  exact Runtime.ready_of_plan h.slice_le hplan

theorem checked (h : FusedMember rt a numChannels chunkBytes) (stepBase : ℕ) :
    (rt.fusedArgs a numChannels chunkBytes stepBase).Checked := by
  have hrow : 0 < a.row.length := by
    rw [h.row_eq, ← a.group.size_eq]
    exact Runtime.size_pos_of_member h.member
  exact (Runtime.fused_checked_iff hrow h.ready).mpr h.slice_pos

theorem valid (h : FusedMember rt a numChannels chunkBytes) (stepBase : ℕ) :
    (rt.fusedArgs a numChannels chunkBytes stepBase).kernelArgs.Valid :=
  (h.checked stepBase).valid rt.config.alignment_pow

/-- The channels of the launch are provisioned. -/
theorem numChannels_le (h : FusedMember rt a numChannels chunkBytes) (stepBase : ℕ) :
    (rt.fusedArgs a numChannels chunkBytes stepBase).kernelArgs.numChannels ≤
      rt.config.fusedNumChannels := by
  have hle : numChannels ≤ rt.config.fusedNumChannels := h.ready.2.2.1
  show numChannels.toNat ≤ rt.config.fusedNumChannels
  omega

/-- A cell of a chunk is in the allocation. -/
theorem cellOff_lt (h : FusedMember rt a numChannels chunkBytes) {stepBase c k r : ℕ}
    (hch : (rt.fusedArgs a numChannels chunkBytes stepBase).kernelArgs.IsChunk c k)
    (hr : r < rt.worldSize) :
    (rt.fusedArgs a numChannels chunkBytes stepBase).kernelArgs.cellOff c k r <
      stepPadSize rt.config rt.worldSize :=
  stepCell_lt (lt_of_lt_of_le hch.channel (h.numChannels_le stepBase))
    ((h.valid stepBase).chunk_lt_max hch) hr

theorem peer_lt (h : FusedMember rt a numChannels chunkBytes) {stepBase : ℕ} {y : ℕ × ℕ}
    (hy : y ∈ (rt.fusedArgs a numChannels chunkBytes stepBase).kernelArgs.peers) :
    y.2 < rt.worldSize := by
  have hmem : y.2 ∈ a.row := List.mem_of_getElem? (mem_peers.mp hy).1
  rw [h.row_eq] at hmem
  exact h.describes.lt _ hmem

/-- Another member is a peer. -/
theorem exists_peer (h : FusedMember rt a numChannels chunkBytes) (stepBase : ℕ) {q : ℕ}
    (hq : q ∈ a.row) (hne : q ≠ rt.rank) :
    ∃ y ∈ (rt.fusedArgs a numChannels chunkBytes stepBase).kernelArgs.peers, y.2 = q := by
  have hr : rt.rank ∈ a.group.ranks := h.describes.localIndex_nonneg_iff.mp h.member
  refine ⟨(a.row.idxOf q, q), mem_peers.mpr ⟨List.getElem?_idxOf hq, fun heq => hne ?_⟩, rfl⟩
  have hli : a.selfLocalIndex = a.group.ranks.idxOf rt.rank := h.describes.localIndex_toNat hr
  have heq' : a.row.idxOf q = a.group.ranks.idxOf rt.rank := heq.trans hli
  rw [h.row_eq] at heq' hq
  have h1 := List.getElem?_idxOf hq
  rw [heq', List.getElem?_idxOf hr] at h1
  exact (Option.some_inj.mp h1).symm

/-- The chunks of a launch do not depend on the rank. -/
theorem isChunk_of_same {stepBase c k : ℕ} (hcfg : rt'.config = rt.config)
    (hslice : a'.sliceBytes = a.sliceBytes)
    (h : (rt.fusedArgs a numChannels chunkBytes stepBase).kernelArgs.IsChunk c k) :
    (rt'.fusedArgs a' numChannels chunkBytes stepBase).kernelArgs.IsChunk c k := by
  refine ⟨h.channel, lt_of_lt_of_eq h.chunk ?_⟩
  unfold numChunks partitionSize FusedLaunchArgs.kernelArgs FusedLaunchArgs.partitionBytes
    Runtime.fusedArgs
  dsimp only
  rw [hslice, hcfg]

/-- The cells of a launch do not depend on the rank. -/
theorem cellOff_of_same {stepBase c k r : ℕ} (hcfg : rt'.config = rt.config)
    (hW : rt'.worldSize = rt.worldSize) :
    (rt'.fusedArgs a' numChannels chunkBytes stepBase).kernelArgs.cellOff c k r =
      (rt.fusedArgs a numChannels chunkBytes stepBase).kernelArgs.cellOff c k r := by
  unfold cellOff FusedLaunchArgs.kernelArgs Runtime.fusedArgs
  dsimp only
  rw [hcfg, hW]

/-- **The step pad is never indexed out of bounds, and its cells never alias.**  The
launch of a decided fused path passes its checks; every cell it publishes or waits for is
in the allocation; channel, chunk and producer determine the cell; and what a sender
publishes to another member is what the receiver of the same channel and chunk waits for
there. -/
theorem fused_step_grid_in_bounds (h : FusedMember rt a numChannels chunkBytes) (stepBase : ℕ) :
    ∃ ops, (rt.fusedArgs a numChannels chunkBytes stepBase).launch a.kind = .ok ops ∧
      (∀ o ∈ ops, ∀ q cell v, o.act = .stepPublish q cell v →
        cell < stepPadSize rt.config rt.worldSize) ∧
      (∀ o ∈ ops, ∀ cells v, o.act = .stepAwait cells v →
        ∀ cell ∈ cells, cell < stepPadSize rt.config rt.worldSize) ∧
      (∀ c k r c' k' r', k < rt.config.fusedMaxChunksPerChannel →
        k' < rt.config.fusedMaxChunksPerChannel → r < rt.worldSize → r' < rt.worldSize →
        (rt.fusedArgs a numChannels chunkBytes stepBase).kernelArgs.cellOff c k r =
          (rt.fusedArgs a numChannels chunkBytes stepBase).kernelArgs.cellOff c' k' r' →
        c = c' ∧ k = k' ∧ r = r') ∧
      ∀ rt' a' ops', FusedMember rt' a' numChannels chunkBytes → rt'.config = rt.config →
        rt'.worldSize = rt.worldSize → a'.row = a.row → a'.sliceBytes = a.sliceBytes →
        rt'.rank ≠ rt.rank →
        (rt'.fusedArgs a' numChannels chunkBytes stepBase).launch a'.kind = .ok ops' →
        ∀ o ∈ ops, ∀ cell v, o.act = .stepPublish rt'.rank cell v →
          ∃ c k cells, k < rt.config.fusedMaxChunksPerChannel ∧
            (⟨2 * c, 2 * k + 1, .stepPublish rt'.rank cell v⟩ : Op DataAct) = o ∧
            (⟨2 * c + 1, 2 * k + 2, .stepAwait cells v⟩ : Op DataAct) ∈ ops' ∧ cell ∈ cells ∧
            cell = (rt'.fusedArgs a' numChannels chunkBytes stepBase).kernelArgs.cellOff c k
              rt.rank := by
  have hv := h.valid stepBase
  refine ⟨_, FusedLaunchArgs.launch_eq_ok_iff.mpr ⟨h.checked stepBase, rfl⟩, ?_, ?_, ?_, ?_⟩
  · intro o ho q cell v hact
    obtain ⟨c, k, y, hch, -, -, rfl, -⟩ := exists_of_stepPublish hv ho hact
    exact h.cellOff_lt hch rt.rank_lt
  · intro o ho cells v hact cell hcell
    obtain ⟨c, k, hch, rfl, -⟩ := exists_of_stepAwait hv ho hact
    obtain ⟨y, hy, rfl⟩ := List.mem_map.mp hcell
    exact h.cellOff_lt hch (h.peer_lt hy)
  · intro c k r c' k' r' hk hk' hr hr' heq
    exact stepCell_inj hk hk' hr hr' heq
  · intro rt' a' ops' h' hcfg hW hrow hslice hne hops' o ho cell v hact
    obtain ⟨c, k, y, hch, hy, hyq, rfl, rfl, hthread, hphase⟩ := exists_of_stepPublish hv ho hact
    rw [(FusedLaunchArgs.launch_eq_ok_iff.mp hops').2]
    -- the chunks and the cells are the same on both ranks
    have hch' := isChunk_of_same hcfg hslice hch
    have hcell : (rt'.fusedArgs a' numChannels chunkBytes stepBase).kernelArgs.cellOff c k rt.rank =
        (rt.fusedArgs a numChannels chunkBytes stepBase).kernelArgs.cellOff c k rt.rank :=
      cellOff_of_same hcfg hW
    have hmem : rt.rank ∈ a'.row := by
      rw [hrow, h.row_eq]
      exact h.describes.localIndex_nonneg_iff.mp h.member
    obtain ⟨z, hz, hzr⟩ := h'.exists_peer stepBase hmem hne.symm
    refine ⟨c, k, _, hv.chunk_lt_max hch, ?_, mem_kernel_await (h'.valid stepBase) hch', ?_,
      hcell.symm⟩
    · obtain ⟨thread, phase, act⟩ := o
      rw [show thread = 2 * c from hthread, show phase = 2 * k + 1 from hphase,
        show act = _ from hact]
    · show (rt.fusedArgs a numChannels chunkBytes stepBase).kernelArgs.cellOff c k rt.rank ∈ _
      rw [← hcell]
      exact List.mem_map.mpr ⟨z, hz, by rw [hzr]⟩

/-- The theorem for a fused `all_gather` of 37 bytes by rank 0 of two. -/
theorem fused_step_grid_in_bounds_witness :
    ∃ ops, ((Runtime.pairRuntime { Config.default with enableFusedPath := true } none 0).fusedArgs
      ⟨0, .allGather, Runtime.pairTensor 4096 37, Runtime.pairTensor 8192 74,
        Runtime.pairGroup 0, [0, 1], 37⟩ 24 262144 5).launch .allGather = .ok ops := by
  have hplan : (Runtime.pairRuntime { Config.default with enableFusedPath := true } none 0).plan
      none 1 37 8192 = .ok (.fused 24 262144) := by
    decide +kernel
  have h : FusedMember (Runtime.pairRuntime { Config.default with enableFusedPath := true } none 0)
      ⟨0, .allGather, Runtime.pairTensor 4096 37, Runtime.pairTensor 8192 74,
        Runtime.pairGroup 0, [0, 1], 37⟩ 24 262144 :=
    ⟨GroupDescriptor.describes_make _, by decide, rfl, by decide, by decide, none, some 1, hplan⟩
  obtain ⟨ops, hops, -⟩ := fused_step_grid_in_bounds h 5
  exact ⟨ops, hops⟩

end FusedMember

end GroupFreeCollectives
