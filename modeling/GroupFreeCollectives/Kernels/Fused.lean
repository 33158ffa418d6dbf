import GroupFreeCollectives.Config
import GroupFreeCollectives.Kernels.Common

/-!
# The fused kernels

`gfc/kernels/fused.py`.  A launch has `2 * num_channels` programs.  Program `2c` is the
sender of channel `c`: for each chunk of the channel's partition it stages the chunk
into the rank's own `comm_buf`, copies its own segment to the output, and publishes the
chunk's step value to every peer.  Program `2c + 1` is the receiver: for each chunk it
waits for the step values of all peers and pulls the chunk from each of them.

The phases of a sender for chunk `k` are `2k` (copies) and `2k + 1` (publications);
those of a receiver are `2k + 2` (wait) and `2k + 3` (pulls).  Only the order within a
program matters to the kernel.  With this numbering phases also order a publication
before the waits for it.
-/

namespace GroupFreeCollectives

open Tiling

/-! ## Copies -/

/-- The byte offsets `_byte_tail_copy` copies: `[off, nbytes_total)`, one byte a lane. -/
def byteTailOffsets (off nbytesTotal blockElts : ℕ) : List ℕ :=
  (stepRange off nbytesTotal blockElts).flatMap fun inner =>
    (List.range blockElts).filterMap fun lane =>
      if inner + lane < nbytesTotal then some (inner + lane) else none

/-- The byte offsets of the bulk loop: `BLOCK_ELTS` lanes of `VEC_BYTES` bytes each. -/
def bulkOffsets (bulkBytes blockElts vecBytes : ℕ) : List ℕ :=
  (stepRange 0 bulkBytes (blockElts * vecBytes)).flatMap fun off =>
    (List.range blockElts).flatMap fun lane =>
      if lane * vecBytes < bulkBytes - off then
        (List.range vecBytes).map fun i => off + lane * vecBytes + i
      else []

/-- The byte offsets `_fused_block_copy` copies: whole vectors, then the tail bytes. -/
def fusedBlockOffsets (nbytes blockElts vecBytes : ℕ) : List ℕ :=
  if vecBytes = 1 then byteTailOffsets 0 nbytes blockElts
  else
    let bulkBytes := nbytes / vecBytes * vecBytes
    bulkOffsets bulkBytes blockElts vecBytes ++
      if bulkBytes < nbytes then byteTailOffsets bulkBytes nbytes blockElts else []

/-- `_fused_block_copy`, with the bases as maps from byte offsets to cells. -/
def fusedBlockCopy (src dst1 : ℕ → Cell) (dst2 : Option (ℕ → Cell))
    (nbytes blockElts vecBytes : ℕ) : List DataAct :=
  (fusedBlockOffsets nbytes blockElts vecBytes).flatMap fun j =>
    .copy (src j) (dst1 j) :: (dst2.map fun d => .copy (src j) (d j)).toList

theorem mem_byteTailOffsets {off total be j : ℕ} (hbe : 0 < be) :
    j ∈ byteTailOffsets off total be ↔ off ≤ j ∧ j < total := by
  rw [← mem_tile_iff hbe]
  simp only [byteTailOffsets, List.mem_flatMap, List.mem_filterMap, List.mem_range]
  constructor
  · rintro ⟨o, ho, k, hk, hj⟩
    split at hj
    case isTrue hlt => exact ⟨o, ho, k, hk, (Option.some_inj.mp hj).symm,
      Option.some_inj.mp hj ▸ hlt⟩
    case isFalse => cases hj
  · rintro ⟨o, ho, k, hk, rfl, hlt⟩
    exact ⟨o, ho, k, hk, if_pos hlt⟩

/-- The lanes of the bulk loop cover a multiple of the vector width. -/
theorem mem_bulkOffsets {q be v j : ℕ} (hbe : 0 < be) (hv : 0 < v) :
    j ∈ bulkOffsets (q * v) be v ↔ j < q * v := by
  have hbv : 0 < be * v := Nat.mul_pos hbe hv
  simp only [bulkOffsets, List.mem_flatMap, List.mem_range]
  constructor
  · rintro ⟨o, ho, lane, -, hj⟩
    obtain ⟨i, rfl, -⟩ := (mem_stepRange hbv).mp ho
    split at hj
    case isTrue hlt =>
      obtain ⟨k, hk, rfl⟩ := List.mem_map.mp hj
      have hk' := List.mem_range.mp hk
      -- the lane starts at a vector below the bulk, so its last byte is in the bulk
      have hvec : be * i + lane < q := by
        by_contra hge
        have hmul : q * v ≤ (be * i + lane) * v := Nat.mul_le_mul_right v (by omega)
        have hexp : (be * i + lane) * v = be * v * i + lane * v := by ring
        omega
      have hmul : (be * i + lane + 1) * v ≤ q * v := Nat.mul_le_mul_right v hvec
      have hexp : (be * i + lane + 1) * v = be * v * i + lane * v + v := by ring
      omega
    case isFalse => cases hj
  · intro hlt
    have hdm := Nat.div_add_mod j (be * v)
    have hmod : j % (be * v) < be * v := Nat.mod_lt _ hbv
    have hdm' := Nat.div_add_mod (j % (be * v)) v
    have hmod' : j % (be * v) % v < v := Nat.mod_lt _ hv
    have hcomm : v * (j % (be * v) / v) = j % (be * v) / v * v := Nat.mul_comm _ _
    refine ⟨0 + be * v * (j / (be * v)), (mem_stepRange hbv).mpr ⟨_, rfl, by omega⟩,
      j % (be * v) / v, ?_, ?_⟩
    · rw [Nat.div_lt_iff_lt_mul hv]
      exact hmod
    · rw [if_pos (by omega)]
      exact List.mem_map.mpr ⟨j % (be * v) % v, List.mem_range.mpr hmod', by omega⟩

/-- **`_fused_block_copy` copies each of its bytes, for every width.** -/
theorem mem_fusedBlockOffsets {n be v j : ℕ} (hbe : 0 < be) (hv : 0 < v) :
    j ∈ fusedBlockOffsets n be v ↔ j < n := by
  unfold fusedBlockOffsets
  split
  case isTrue => simp [mem_byteTailOffsets hbe]
  case isFalse =>
    have hle : n / v * v ≤ n := Nat.div_mul_le_self n v
    rw [List.mem_append, mem_bulkOffsets hbe hv]
    split
    case isTrue =>
      rw [mem_byteTailOffsets hbe]
      omega
    case isFalse =>
      simp only [List.not_mem_nil, or_false]
      omega

theorem mem_fusedBlockCopy {src dst1 : ℕ → Cell} {dst2 : Option (ℕ → Cell)} {n be v : ℕ}
    (hbe : 0 < be) (hv : 0 < v) {d : DataAct} :
    d ∈ fusedBlockCopy src dst1 dst2 n be v ↔
      ∃ j < n, d = .copy (src j) (dst1 j) ∨ ∃ d2, dst2 = some d2 ∧ d = .copy (src j) (d2 j) := by
  simp only [fusedBlockCopy, List.mem_flatMap, mem_fusedBlockOffsets hbe hv, List.mem_cons]
  cases dst2 <;> simp

/-! ## The kernels -/

/-- The arguments of a fused kernel, as the device sees them, with the call it belongs
to and the rank list its row pointer points to. -/
structure FusedKernelArgs where
  call : ℕ
  groupRanks : List ℕ
  commBufOffset : ℕ
  selfGlobalRank : ℕ
  selfLocalIndex : ℕ
  sliceBytes : ℕ
  partitionBytes : ℕ
  chunkBytes : ℕ
  stepBase : ℕ
  worldSize : ℕ
  maxChunks : ℕ
  numChannels : ℕ
  blockElts : ℕ
  vecBytes : ℕ

/-- The value a sender publishes for chunk `k`, and a receiver waits for. -/
def stepValue (stepBase k : ℕ) : ℕ := (stepBase + (k + 1)) % 2 ^ 64

namespace FusedKernelArgs

variable (a : FusedKernelArgs)

/-- `partition_size` of a channel. -/
def partitionSize (channel : ℕ) : ℕ :=
  min a.partitionBytes (a.sliceBytes - channel * a.partitionBytes)

/-- `n_chunks` of a channel. -/
def numChunks (channel : ℕ) : ℕ := cdiv (a.partitionSize channel) a.chunkBytes

/-- `base_byte` of a chunk. -/
def baseByte (channel k : ℕ) : ℕ := channel * a.partitionBytes + k * a.chunkBytes

/-- `this_chunk`: the size of a chunk. -/
def thisChunk (channel k : ℕ) : ℕ := min a.chunkBytes (a.partitionSize channel - k * a.chunkBytes)

/-- The index of the step-pad cell of a channel, a chunk and a producer. -/
def cellOff (channel k src : ℕ) : ℕ :=
  channel * a.maxChunks * a.worldSize + k * a.worldSize + src

/-- The lanes of the group other than this rank's own, with their ranks. -/
def peers : List (ℕ × ℕ) :=
  (a.groupRanks.zipIdx.filter fun x => x.2 ≠ a.selfLocalIndex).map fun x => (x.2, x.1)

/-- The sender CTA of a channel: `stage base n` copies the `n` bytes at `base`. -/
def sender (stage : ℕ → ℕ → List DataAct) (pid channel : ℕ) : List (Op DataAct) :=
  (List.range (a.numChunks channel)).flatMap fun k =>
    ((stage (a.baseByte channel k) (a.thisChunk channel k)).map fun d => ⟨pid, 2 * k, d⟩) ++
    a.peers.map fun x =>
      ⟨pid, 2 * k + 1, .stepPublish x.2 (a.cellOff channel k a.selfGlobalRank)
        (stepValue a.stepBase k)⟩

/-- The receiver CTA of a channel: it pulls from offset `pullOff` of every peer's
buffer, in an order rotated by its local index. -/
def receiver (pullOff : ℕ) (pid channel : ℕ) : List (Op DataAct) :=
  (List.range (a.numChunks channel)).flatMap fun k =>
    ⟨pid, 2 * k + 2, .stepAwait (a.peers.map fun x => a.cellOff channel k x.2)
      (stepValue a.stepBase k)⟩ ::
    (List.range a.groupRanks.length).flatMap fun pDelta =>
      let peerIdx := (pDelta + a.selfLocalIndex + 1) % a.groupRanks.length
      if peerIdx ≠ a.selfLocalIndex then
        (fusedBlockCopy
          (fun j => .comm (a.groupRanks.getD peerIdx 0)
            (a.commBufOffset + pullOff + a.baseByte channel k + j))
          (fun j => .output a.selfGlobalRank a.call
            (peerIdx * a.sliceBytes + a.baseByte channel k + j))
          none (a.thisChunk channel k) a.blockElts a.vecBytes).map fun d => ⟨pid, 2 * k + 3, d⟩
      else []

/-- What the two fused kernels share: their programs, a sender and a receiver for each
channel, and none for a channel that starts past the slice. -/
def fusedKernel (stage : ℕ → ℕ → List DataAct) (pullOff : ℕ) : List (Op DataAct) :=
  (List.range (2 * a.numChannels)).flatMap fun pid =>
    let channel := pid / 2
    if a.sliceBytes ≤ channel * a.partitionBytes then []
    else if pid % 2 = 0 then a.sender stage pid channel
    else a.receiver pullOff pid channel

/-- The staging of `all_gather_fused_kernel`: the chunk goes to the own `comm_buf` and
to the own segment of the output. -/
def allGatherStage (base n : ℕ) : List DataAct :=
  fusedBlockCopy (fun j => .input a.selfGlobalRank a.call (base + j))
    (fun j => .comm a.selfGlobalRank (a.commBufOffset + base + j))
    (some fun j => .output a.selfGlobalRank a.call (a.selfLocalIndex * a.sliceBytes + base + j))
    n a.blockElts a.vecBytes

/-- The staging of `all2all_fused_kernel`: the chunk of every slice goes to the own
`comm_buf`, and that of the own slice to the output. -/
def all2AllStage (base n : ℕ) : List DataAct :=
  ((List.range a.groupRanks.length).flatMap fun t =>
    fusedBlockCopy (fun j => .input a.selfGlobalRank a.call (t * a.sliceBytes + base + j))
      (fun j => .comm a.selfGlobalRank (a.commBufOffset + t * a.sliceBytes + base + j)) none
      n a.blockElts a.vecBytes) ++
  fusedBlockCopy
    (fun j => .input a.selfGlobalRank a.call (a.selfLocalIndex * a.sliceBytes + base + j))
    (fun j => .output a.selfGlobalRank a.call (a.selfLocalIndex * a.sliceBytes + base + j)) none
    n a.blockElts a.vecBytes

/-- `all_gather_fused_kernel`. -/
def allGatherFusedKernel : List (Op DataAct) := a.fusedKernel a.allGatherStage 0

/-- `all2all_fused_kernel`. -/
def all2AllFusedKernel : List (Op DataAct) :=
  a.fusedKernel a.all2AllStage (a.selfLocalIndex * a.sliceBytes)

end FusedKernelArgs

/-! ## The launchers -/

/-- The arguments of a fused launch, with the call it belongs to and the rank list its
row pointer points to. -/
structure FusedLaunchArgs where
  call : ℕ
  groupRanks : List ℕ
  inputPtr : ℕ
  outputPtr : ℕ
  commBufOffset : ℕ
  selfGlobalRank : ℕ
  selfLocalIndex : ℕ
  sliceBytes : ℤ
  worldSize : ℕ
  maxChunksPerChannel : ℕ
  numChannels : ℤ
  chunkBytes : ℤ
  stepBase : ℕ
  alignment : ℕ

/-- `_DEFAULT_BLOCK_ELTS`. -/
def defaultBlockElts : ℕ := 4096

/-- `_pick_vec_bytes`. -/
def pickVecBytes (inputPtr outputPtr : ℕ) (sliceBytes : ℤ) : ℕ :=
  vecWidthBytes [baseAlignment inputPtr, baseAlignment outputPtr, baseAlignment sliceBytes]

namespace FusedLaunchArgs

variable (a : FusedLaunchArgs)

/-- `partition_bytes`: the slice over the channels, rounded up to the alignment. -/
def partitionBytes : ℕ := alignUp (cdiv a.sliceBytes.toNat a.numChannels.toNat) a.alignment

/-- `n_chunks`, the bound on the chunks of a channel that the launcher checks. -/
def nChunks : ℕ := cdiv a.partitionBytes a.chunkBytes.toNat

/-- What the launcher passes to the kernel. -/
def kernelArgs : FusedKernelArgs where
  call := a.call
  groupRanks := a.groupRanks
  commBufOffset := a.commBufOffset
  selfGlobalRank := a.selfGlobalRank
  selfLocalIndex := a.selfLocalIndex
  sliceBytes := a.sliceBytes.toNat
  partitionBytes := a.partitionBytes
  chunkBytes := a.chunkBytes.toNat
  stepBase := a.stepBase
  worldSize := a.worldSize
  maxChunks := a.maxChunksPerChannel
  numChannels := a.numChannels.toNat
  blockElts := defaultBlockElts
  vecBytes := pickVecBytes a.inputPtr a.outputPtr a.sliceBytes

/-- The checks of both fused launchers. -/
def check : Except PyError Unit := do
  pyAssert (0 < a.sliceBytes)
  pyAssert (0 < a.groupRanks.length)
  pyAssert (0 < a.numChannels)
  pyAssert (0 < a.chunkBytes)
  let nChunks := a.nChunks
  let bound := a.maxChunksPerChannel
  require (nChunks ≤ bound)
    s!"per-channel chunk count {nChunks} exceeds static bound {bound}; raise fused_max_chunks_per_channel or fused_chunk_size"

/-- `launch_all_gather_fused`. -/
def launchAllGatherFused : Except PyError (List (Op DataAct)) := do
  a.check
  pure a.kernelArgs.allGatherFusedKernel

/-- `launch_all2all_fused`. -/
def launchAll2AllFused : Except PyError (List (Op DataAct)) := do
  a.check
  pure a.kernelArgs.all2AllFusedKernel

/-- The fused launcher of a collective. -/
def launch (kind : Collective) : Except PyError (List (Op DataAct)) :=
  match kind with
  | .allGather => a.launchAllGatherFused
  | .all2All => a.launchAll2AllFused

/-- What the checks establish. -/
structure Checked : Prop where
  sliceBytes_pos : 0 < a.sliceBytes
  groupRanks_pos : 0 < a.groupRanks.length
  numChannels_pos : 0 < a.numChannels
  chunkBytes_pos : 0 < a.chunkBytes
  nChunks_le : a.nChunks ≤ a.maxChunksPerChannel

theorem check_eq_ok_iff : a.check = .ok () ↔ a.Checked := by
  simp only [check, pyAssert_bind_ok_iff, require_eq_ok_iff, decide_eq_true_eq]
  constructor
  · rintro ⟨h1, h2, h3, h4, h5⟩
    exact ⟨h1, h2, h3, h4, h5⟩
  · rintro ⟨h1, h2, h3, h4, h5⟩
    exact ⟨h1, h2, h3, h4, h5⟩

end FusedLaunchArgs

end GroupFreeCollectives
