import GroupFreeCollectives.Kernels.Fused

/-!
# What the fused kernels do, chunk by chunk

`mem_fusedKernel_iff` turns the loops of both kernels into one statement about chunks:
every chunk is staged, published to every peer, waited for and pulled from every peer.
The chunks of all channels make up the slice (`exists_chunk`, `chunk_lt`), and a cell of
the step pad belongs to one channel, chunk and producer (`cellOff_inj`).
-/

namespace GroupFreeCollectives

open Tiling

namespace FusedKernelArgs

variable (a : FusedKernelArgs)

/-- What the proofs use of the arguments of a launched kernel. -/
structure Valid : Prop where
  partitionBytes_pos : 0 < a.partitionBytes
  chunkBytes_pos : 0 < a.chunkBytes
  blockElts_pos : 0 < a.blockElts
  vecBytes_pos : 0 < a.vecBytes
  /-- the partitions of all channels cover the slice -/
  sliceBytes_le : a.sliceBytes ≤ a.numChannels * a.partitionBytes
  /-- the chunks of a channel fit the chunk axis of the step pad -/
  numChunks_le : cdiv a.partitionBytes a.chunkBytes ≤ a.maxChunks

/-- Chunk `k` of channel `c` exists. -/
structure IsChunk (c k : ℕ) : Prop where
  channel : c < a.numChannels
  chunk : k < a.numChunks c

variable {a} {c k c' k' r r' x : ℕ}

theorem mem_peers {y : ℕ × ℕ} :
    y ∈ a.peers ↔ a.groupRanks[y.1]? = some y.2 ∧ y.1 ≠ a.selfLocalIndex := by
  obtain ⟨lane, peer⟩ := y
  simp only [peers, List.mem_map, List.mem_filter, decide_eq_true_eq, Prod.mk.injEq]
  constructor
  · rintro ⟨⟨p, i⟩, ⟨hmem, hne⟩, rfl, rfl⟩
    exact ⟨List.mk_mem_zipIdx_iff_getElem?.mp hmem, hne⟩
  · rintro ⟨hget, hne⟩
    exact ⟨(peer, lane), ⟨List.mk_mem_zipIdx_iff_getElem?.mpr hget, hne⟩, rfl, rfl⟩

/-- A lane other than the own one holds another member. -/
theorem mem_peers_of_nodup (hnodup : a.groupRanks.Nodup) {p : ℕ} (hp : p ∈ a.groupRanks)
    (hself : a.selfLocalIndex = a.groupRanks.idxOf p) {y : ℕ × ℕ} :
    y ∈ a.peers ↔ a.groupRanks[y.1]? = some y.2 ∧ y.2 ≠ p := by
  rw [mem_peers, hself]
  refine and_congr_right fun hget => not_congr ?_
  obtain ⟨hlt, hval⟩ := List.getElem?_eq_some_iff.mp hget
  constructor
  · intro hy
    have hidx := List.getElem?_idxOf hp
    rw [← hy] at hidx
    exact Option.some_inj.mp (hget.symm.trans hidx)
  · intro hy
    rw [← hy, ← hval]
    exact (hnodup.idxOf_getElem y.1 hlt).symm

/-! ## Chunks -/

theorem Valid.mul_lt (hv : a.Valid) (h : a.IsChunk c k) :
    k * a.chunkBytes < a.partitionSize c := (lt_cdiv_iff hv.chunkBytes_pos).mp h.chunk

/-- A chunk lies in the slice. -/
theorem Valid.chunk_lt (hv : a.Valid) (h : a.IsChunk c k) {j : ℕ} (hj : j < a.thisChunk c k) :
    a.baseByte c k + j < a.sliceBytes := by
  have hk := hv.mul_lt h
  rw [thisChunk] at hj
  rw [partitionSize] at hk hj
  rw [baseByte]
  omega

/-- **The chunks of all channels make up the slice.** -/
theorem Valid.exists_chunk (hv : a.Valid) {b : ℕ} (hb : b < a.sliceBytes) :
    ∃ c k, a.IsChunk c k ∧ ∃ j < a.thisChunk c k, b = a.baseByte c k + j := by
  have hP := hv.partitionBytes_pos
  have hC := hv.chunkBytes_pos
  have hdm := Nat.div_add_mod b a.partitionBytes
  have hmod : b % a.partitionBytes < a.partitionBytes := Nat.mod_lt _ hP
  have hcomm : a.partitionBytes * (b / a.partitionBytes) =
      b / a.partitionBytes * a.partitionBytes := Nat.mul_comm _ _
  have hdm' := Nat.div_add_mod (b % a.partitionBytes) a.chunkBytes
  have hmod' : b % a.partitionBytes % a.chunkBytes < a.chunkBytes := Nat.mod_lt _ hC
  have hcomm' : a.chunkBytes * (b % a.partitionBytes / a.chunkBytes) =
      b % a.partitionBytes / a.chunkBytes * a.chunkBytes := Nat.mul_comm _ _
  have hchannel : b / a.partitionBytes < a.numChannels := by
    rw [Nat.div_lt_iff_lt_mul hP]
    exact lt_of_lt_of_le hb hv.sliceBytes_le
  have hsize : b % a.partitionBytes < a.partitionSize (b / a.partitionBytes) := by
    rw [partitionSize]
    omega
  refine ⟨b / a.partitionBytes, b % a.partitionBytes / a.chunkBytes, ⟨hchannel, ?_⟩,
    b % a.partitionBytes % a.chunkBytes, ?_, ?_⟩
  · rw [numChunks, lt_cdiv_iff hC]
    omega
  · rw [thisChunk]
    omega
  · rw [baseByte]
    omega

theorem Valid.chunk_lt_max (hv : a.Valid) (h : a.IsChunk c k) : k < a.maxChunks := by
  have hk := hv.mul_lt h
  refine lt_of_lt_of_le ((lt_cdiv_iff hv.chunkBytes_pos).mpr ?_) hv.numChunks_le
  rw [partitionSize] at hk
  omega

/-- A flat index into the step pad determines channel, chunk and producer. -/
theorem stepCell_inj {M W : ℕ} (hk : k < M) (hk' : k' < M) (hr : r < W) (hr' : r' < W)
    (heq : c * M * W + k * W + r = c' * M * W + k' * W + r') : c = c' ∧ k = k' ∧ r = r' := by
  have hexp : ∀ c k r, c * M * W + k * W + r = (c * M + k) * W + r := by
    intro c k r
    ring
  rw [hexp, hexp] at heq
  have hW : 0 < W := by omega
  have hM : 0 < M := by omega
  have hmod := congrArg (· % W) heq
  have hdiv := congrArg (· / W) heq
  simp only [Nat.mul_add_mod_self_right, Nat.mod_eq_of_lt hr, Nat.mod_eq_of_lt hr'] at hmod
  simp only [Nat.mul_comm _ W, Nat.mul_add_div hW, Nat.div_eq_of_lt hr, Nat.div_eq_of_lt hr',
    Nat.add_zero] at hdiv
  have hmod' := congrArg (· % M) hdiv
  have hdiv' := congrArg (· / M) hdiv
  simp only [Nat.mul_add_mod_self_right, Nat.mod_eq_of_lt hk, Nat.mod_eq_of_lt hk'] at hmod'
  simp only [Nat.mul_comm _ M, Nat.mul_add_div hM, Nat.div_eq_of_lt hk, Nat.div_eq_of_lt hk',
    Nat.add_zero] at hdiv'
  exact ⟨hdiv', hmod', hmod⟩

/-- The flat indices lie in the step pad. -/
theorem stepCell_lt {C M W : ℕ} (hc : c < C) (hk : k < M) (hr : r < W) :
    c * M * W + k * W + r < C * M * W := by
  calc c * M * W + k * W + r < c * M * W + k * W + W := Nat.add_lt_add_left hr _
    _ = c * M * W + (k + 1) * W := by ring
    _ ≤ c * M * W + M * W := Nat.add_le_add_left (Nat.mul_le_mul_right W hk) _
    _ = (c + 1) * (M * W) := by ring
    _ ≤ C * (M * W) := Nat.mul_le_mul_right _ hc
    _ = C * M * W := by ring

/-- A cell of the step pad belongs to one channel, chunk and producer. -/
theorem Valid.cellOff_inj (hv : a.Valid) (h : a.IsChunk c k) (h' : a.IsChunk c' k')
    (hr : r < a.worldSize) (hr' : r' < a.worldSize)
    (heq : a.cellOff c k r = a.cellOff c' k' r') : c = c' ∧ k = k' ∧ r = r' :=
  stepCell_inj (hv.chunk_lt_max h) (hv.chunk_lt_max h') hr hr' heq

/-! ## Operations -/

/-- The four operations of a chunk: a copy of its staging, a publication, the wait and
a pulled byte. -/
def ChunkOp (a : FusedKernelArgs) (stage : ℕ → ℕ → List DataAct) (pullOff c k : ℕ)
    (o : Op DataAct) : Prop :=
  (∃ d ∈ stage (a.baseByte c k) (a.thisChunk c k), o = ⟨2 * c, 2 * k, d⟩) ∨
  (∃ y ∈ a.peers, o = ⟨2 * c, 2 * k + 1,
    .stepPublish y.2 (a.cellOff c k a.selfGlobalRank) (stepValue a.stepBase k)⟩) ∨
  o = ⟨2 * c + 1, 2 * k + 2, .stepAwait (a.peers.map fun y => a.cellOff c k y.2)
    (stepValue a.stepBase k)⟩ ∨
  ∃ y ∈ a.peers, ∃ j < a.thisChunk c k, o = ⟨2 * c + 1, 2 * k + 3,
    .copy (.comm y.2 (a.commBufOffset + pullOff + a.baseByte c k + j))
      (.output a.selfGlobalRank a.call (y.1 * a.sliceBytes + a.baseByte c k + j))⟩

theorem mem_sender {stage : ℕ → ℕ → List DataAct} {pid : ℕ} {o : Op DataAct} :
    o ∈ a.sender stage pid c ↔ ∃ k < a.numChunks c,
      (∃ d ∈ stage (a.baseByte c k) (a.thisChunk c k), o = ⟨pid, 2 * k, d⟩) ∨
      ∃ y ∈ a.peers, o = ⟨pid, 2 * k + 1,
        .stepPublish y.2 (a.cellOff c k a.selfGlobalRank) (stepValue a.stepBase k)⟩ := by
  simp only [sender, List.mem_flatMap, List.mem_range, List.mem_append, List.mem_map, eq_comm]

theorem mem_receiver (hv : a.Valid) {pullOff pid : ℕ} {o : Op DataAct} :
    o ∈ a.receiver pullOff pid c ↔ ∃ k < a.numChunks c,
      o = ⟨pid, 2 * k + 2, .stepAwait (a.peers.map fun y => a.cellOff c k y.2)
        (stepValue a.stepBase k)⟩ ∨
      ∃ y ∈ a.peers, ∃ j < a.thisChunk c k, o = ⟨pid, 2 * k + 3,
        .copy (.comm y.2 (a.commBufOffset + pullOff + a.baseByte c k + j))
          (.output a.selfGlobalRank a.call (y.1 * a.sliceBytes + a.baseByte c k + j))⟩ := by
  simp only [receiver, List.mem_flatMap, List.mem_range, List.mem_cons]
  refine exists_congr fun k => and_congr_right fun _ => or_congr_right ?_
  constructor
  · rintro ⟨pDelta, hp, ho⟩
    split at ho
    case isTrue hne =>
      obtain ⟨d, hd, rfl⟩ := List.mem_map.mp ho
      obtain ⟨j, hj, rfl | ⟨d2, hd2, -⟩⟩ :=
        (mem_fusedBlockCopy hv.blockElts_pos hv.vecBytes_pos).mp hd
      · have hlt : (pDelta + a.selfLocalIndex + 1) % a.groupRanks.length < a.groupRanks.length :=
          Nat.mod_lt _ (by omega)
        refine ⟨(_, _), mem_peers.mpr ⟨List.getElem?_eq_getElem hlt, hne⟩, j, hj, ?_⟩
        rw [List.getD_eq_getElem _ _ hlt]
      · cases hd2
    case isFalse => cases ho
  · rintro ⟨⟨lane, peer⟩, hy, j, hj, rfl⟩
    obtain ⟨hget, hne⟩ := mem_peers.mp hy
    have hlt : lane < a.groupRanks.length := (List.getElem?_eq_some_iff.mp hget).1
    obtain ⟨d, hd, hdl⟩ := exists_swizzle hlt a.selfLocalIndex
    refine ⟨d, hd, ?_⟩
    rw [hdl, if_pos hne]
    refine List.mem_map.mpr ⟨_, (mem_fusedBlockCopy hv.blockElts_pos hv.vecBytes_pos).mpr
      ⟨j, hj, Or.inl rfl⟩, ?_⟩
    rw [List.getD_eq_getElem?_getD, hget]
    rfl

/-- A channel that starts past the slice has no chunks. -/
theorem Valid.numChunks_eq_zero (hv : a.Valid) (h : a.sliceBytes ≤ c * a.partitionBytes) :
    a.numChunks c = 0 := by
  have hsize : a.partitionSize c = 0 := by
    rw [partitionSize]
    omega
  rw [numChunks, hsize, cdiv_zero hv.chunkBytes_pos]

/-- **What a fused kernel does**: the operations of its chunks. -/
theorem mem_fusedKernel_iff (hv : a.Valid) {stage : ℕ → ℕ → List DataAct} {pullOff : ℕ}
    {o : Op DataAct} :
    o ∈ a.fusedKernel stage pullOff ↔ ∃ c k, a.IsChunk c k ∧ a.ChunkOp stage pullOff c k o := by
  simp only [fusedKernel, List.mem_flatMap, List.mem_range]
  constructor
  · rintro ⟨pid, hpid, ho⟩
    split at ho
    case isTrue => cases ho
    case isFalse =>
      split at ho
      case isTrue heven =>
        have hp : pid = 2 * (pid / 2) := by omega
        obtain ⟨k, hk, hop⟩ := mem_sender.mp ho
        rw [hp, Nat.mul_div_cancel_left _ (by decide : 0 < 2)] at hop
        refine ⟨pid / 2, k, ⟨by omega, hk⟩, ?_⟩
        rcases hop with hop | hop
        · exact Or.inl hop
        · exact Or.inr (Or.inl hop)
      case isFalse hodd =>
        have hp : pid = 2 * (pid / 2) + 1 := by omega
        have hdiv : (2 * (pid / 2) + 1) / 2 = pid / 2 := by omega
        obtain ⟨k, hk, hop⟩ := (mem_receiver hv).mp ho
        rw [hp, hdiv] at hop
        refine ⟨pid / 2, k, ⟨by omega, hk⟩, ?_⟩
        rcases hop with hop | hop
        · exact Or.inr (Or.inr (Or.inl hop))
        · exact Or.inr (Or.inr (Or.inr hop))
  · rintro ⟨c, k, hch, hop⟩
    have hnot : ¬ a.sliceBytes ≤ c * a.partitionBytes := by
      intro hle
      have := hch.chunk
      rw [hv.numChunks_eq_zero hle] at this
      omega
    have hlt := hch.channel
    rcases hop with hop | hop | hop | hop
    · refine ⟨2 * c, by omega, ?_⟩
      rw [Nat.mul_div_cancel_left _ (by decide : 0 < 2), if_neg hnot,
        if_pos (Nat.mul_mod_right 2 c)]
      exact mem_sender.mpr ⟨k, hch.chunk, Or.inl hop⟩
    · refine ⟨2 * c, by omega, ?_⟩
      rw [Nat.mul_div_cancel_left _ (by decide : 0 < 2), if_neg hnot,
        if_pos (Nat.mul_mod_right 2 c)]
      exact mem_sender.mpr ⟨k, hch.chunk, Or.inr hop⟩
    · refine ⟨2 * c + 1, by omega, ?_⟩
      rw [show (2 * c + 1) / 2 = c by omega, if_neg hnot, if_neg (by omega)]
      exact (mem_receiver hv).mpr ⟨k, hch.chunk, Or.inl hop⟩
    · refine ⟨2 * c + 1, by omega, ?_⟩
      rw [show (2 * c + 1) / 2 = c by omega, if_neg hnot, if_neg (by omega)]
      exact (mem_receiver hv).mpr ⟨k, hch.chunk, Or.inr hop⟩

/-! ## Staging -/

/-- The slices a rank stages: one for `all_gather`, one for each member for
`all2all`. -/
def numSlices (a : FusedKernelArgs) : Collective → ℕ
  | .allGather => 1
  | .all2All => a.groupRanks.length

/-- The staging of a collective. -/
def stage (a : FusedKernelArgs) : Collective → ℕ → ℕ → List DataAct
  | .allGather => a.allGatherStage
  | .all2All => a.all2AllStage

/-- The fused kernel of a collective. -/
def kernel (a : FusedKernelArgs) : Collective → List (Op DataAct)
  | .allGather => a.allGatherFusedKernel
  | .all2All => a.all2AllFusedKernel

theorem kernel_eq (kind : Collective) :
    a.kernel kind = a.fusedKernel (a.stage kind)
      (kind.srcOffset a.selfLocalIndex a.sliceBytes) := by
  cases kind <;> rfl

/-- Staging a chunk copies the chunk of every slice to the same place of the own
`comm_buf`, and the chunk of the own segment to the output. -/
theorem mem_stage (hv : a.Valid) {kind : Collective} {base n : ℕ} {d : DataAct} :
    d ∈ a.stage kind base n ↔
      (∃ t < a.numSlices kind, ∃ j < n, d = .copy
        (.input a.selfGlobalRank a.call (t * a.sliceBytes + base + j))
        (.comm a.selfGlobalRank (a.commBufOffset + t * a.sliceBytes + base + j))) ∨
      ∃ j < n, d = .copy
        (.input a.selfGlobalRank a.call
          (kind.srcOffset a.selfLocalIndex a.sliceBytes + base + j))
        (.output a.selfGlobalRank a.call (a.selfLocalIndex * a.sliceBytes + base + j)) := by
  cases kind with
  | allGather =>
    show d ∈ a.allGatherStage base n ↔ _
    rw [allGatherStage, mem_fusedBlockCopy hv.blockElts_pos hv.vecBytes_pos]
    simp only [Option.some_inj, exists_eq_left', numSlices, Collective.srcOffset, Nat.zero_add,
      Nat.lt_one_iff, exists_eq_left, Nat.zero_mul, Nat.add_zero]
    constructor
    · rintro ⟨j, hj, rfl | rfl⟩
      · exact Or.inl ⟨j, hj, rfl⟩
      · exact Or.inr ⟨j, hj, rfl⟩
    · rintro (⟨j, hj, rfl⟩ | ⟨j, hj, rfl⟩)
      · exact ⟨j, hj, Or.inl rfl⟩
      · exact ⟨j, hj, Or.inr rfl⟩
  | all2All =>
    show d ∈ a.all2AllStage base n ↔ _
    simp only [all2AllStage, List.mem_append, List.mem_flatMap, List.mem_range,
      mem_fusedBlockCopy hv.blockElts_pos hv.vecBytes_pos, reduceCtorEq, false_and, exists_false,
      or_false, numSlices, Collective.srcOffset]

end FusedKernelArgs

theorem FusedLaunchArgs.launch_eq_ok_iff {a : FusedLaunchArgs} {kind : Collective}
    {ops : List (Op DataAct)} :
    a.launch kind = .ok ops ↔ a.Checked ∧ ops = a.kernelArgs.kernel kind := by
  rw [← a.check_eq_ok_iff]
  cases kind <;> cases h : a.check <;>
    simp [launch, launchAllGatherFused, launchAll2AllFused, FusedKernelArgs.kernel, h, bind,
      Except.bind, pure, Except.pure, eq_comm]

/-- A checked launch passes valid arguments. -/
theorem FusedLaunchArgs.Checked.valid {a : FusedLaunchArgs} (h : a.Checked)
    (hal : a.alignment.isPowerOfTwo) : a.kernelArgs.Valid where
  partitionBytes_pos := by
    have hs := h.sliceBytes_pos
    have hc := h.numChannels_pos
    have hpos : 0 < cdiv a.sliceBytes.toNat a.numChannels.toNat := by
      rw [lt_cdiv_iff (by omega)]
      omega
    exact lt_of_lt_of_le hpos (le_alignUp hal)
  chunkBytes_pos := by
    have := h.chunkBytes_pos
    show 0 < a.chunkBytes.toNat
    omega
  blockElts_pos := by
    show 0 < defaultBlockElts
    decide
  vecBytes_pos := (isVecWidth_vecWidthBytes _).pos
  sliceBytes_le := by
    have hc := h.numChannels_pos
    have h1 : a.sliceBytes.toNat ≤ cdiv a.sliceBytes.toNat a.numChannels.toNat *
        a.numChannels.toNat := le_cdiv_mul (by omega)
    have h2 : cdiv a.sliceBytes.toNat a.numChannels.toNat ≤ a.partitionBytes := le_alignUp hal
    show a.sliceBytes.toNat ≤ a.numChannels.toNat * a.partitionBytes
    calc a.sliceBytes.toNat
        ≤ cdiv a.sliceBytes.toNat a.numChannels.toNat * a.numChannels.toNat := h1
      _ ≤ a.partitionBytes * a.numChannels.toNat := Nat.mul_le_mul_right _ h2
      _ = a.numChannels.toNat * a.partitionBytes := Nat.mul_comm _ _
  numChunks_le := h.nChunks_le

end GroupFreeCollectives
