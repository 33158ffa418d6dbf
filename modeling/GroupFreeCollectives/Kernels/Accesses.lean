import GroupFreeCollectives.Kernels.FusedSpec
import GroupFreeCollectives.Kernels.Pull

/-!
# Loads and stores of the kernels

The kernels as sequences of loads and stores.  An `Access` loads some bytes at one address
and stores them at another; a vector kernel makes accesses of its element width, and bytes
past the last full element one at a time.  The accesses of a kernel are its copies, taken
together (`map_act_pullKernel_eq`, `map_act_pullCopyKernel`, `copy_mem_kernel_iff`).

An access is aligned if its width divides both addresses.  Every access of a kernel is, if
the width divides where the segments start (`aligned_pull`, `aligned_pullCopy`,
`Divides.aligned_accesses`).
-/

namespace GroupFreeCollectives

open Tiling

/-! ## Accesses -/

/-- The cell so many bytes further on. -/
def Cell.shift (i : ℕ) : Cell → Cell
  | .comm r b => .comm r (b + i)
  | .input r c b => .input r c (b + i)
  | .output r c b => .output r c (b + i)

/-- A load of some bytes and their store. -/
structure Access where
  width : ℕ
  src : Cell
  dst : Cell
  deriving DecidableEq, Repr

namespace Access

/-- The bytes that an access copies. -/
def bytes (x : Access) : List DataAct :=
  (List.range x.width).map fun i => .copy (x.src.shift i) (x.dst.shift i)

/-- The width divides both addresses. -/
structure Aligned (addr : Cell → ℕ) (x : Access) : Prop where
  src : x.width ∣ addr x.src
  dst : x.width ∣ addr x.dst

theorem aligned_of_width_eq_one {addr : Cell → ℕ} {x : Access} (h : x.width = 1) :
    x.Aligned addr := by
  constructor <;> rw [h] <;> exact one_dvd _

end Access

/-- The device addresses of the cells of a call, given where the communication buffers and
the tensors of the call start. -/
def Cell.addr (base : ℕ → ℕ) (inputPtr outputPtr : ℕ) : Cell → ℕ
  | .comm r b => base r + b
  | .input _ _ b => inputPtr + b
  | .output _ _ b => outputPtr + b

/-! ## Tiles of elements -/

/-- Where the elements of a tile start: one for each lane, masked to the full elements. -/
def tileVectors (nFull eltBytes blockElts tile : ℕ) : List ℕ :=
  (List.range blockElts).flatMap fun lane =>
    if tile * blockElts + lane < nFull then [(tile * blockElts + lane) * eltBytes] else []

section Tiles

variable {nFull e be tile b : ℕ}

/-- A tile is its elements. -/
theorem tileOffsets_eq : tileOffsets nFull e be tile =
    (tileVectors nFull e be tile).flatMap fun b => (List.range e).map fun i => b + i := by
  unfold tileOffsets tileVectors
  rw [List.flatMap_assoc]
  refine List.flatMap_congr fun lane _ => ?_
  split
  · rw [List.flatMap_singleton]
  · rfl

theorem dvd_of_mem_tileVectors (h : b ∈ tileVectors nFull e be tile) : e ∣ b := by
  obtain ⟨lane, -, h⟩ := List.mem_flatMap.mp h
  split at h
  · rw [List.mem_singleton.mp h]
    exact Nat.dvd_mul_left _ _
  · cases h

end Tiles

/-! ## The group kernels -/

namespace PullKernelArgs

variable (a : PullKernelArgs)

/-- The access of some bytes from byte `b` on of the peer in lane `peerIdx`. -/
def pullAccess (srcOff peerIdx width b : ℕ) : Access where
  width := width
  src := .comm (a.groupRanks.getD peerIdx 0) (a.commBufOffset + srcOff + b)
  dst := .output a.selfGlobalRank a.call (a.dstOffset + peerIdx * a.dstStrideBytes + b)

/-- The accesses of a group kernel. -/
def accesses (srcOff : ℕ) : List Access :=
  (List.range a.numPrograms).flatMap fun pid =>
    ((groupTasks a.groupRanks.length a.nTiles a.selfLocalIndex a.numPrograms pid).flatMap
      fun (_, tilePid, peerIdx) =>
        (tileVectors (a.copyBytes / a.eltBytes) a.eltBytes a.blockElts tilePid).map
          (a.pullAccess srcOff peerIdx a.eltBytes)) ++
    if a.hasTail ∧ pid < a.groupRanks.length then
      let peerIdx := (pid + a.selfLocalIndex + 1) % a.groupRanks.length
      (tailOffsets a.copyBytes a.eltBytes).map (a.pullAccess srcOff peerIdx 1)
    else []

variable {a} {srcOff : ℕ} {x : Access}

theorem bytes_pullAccess (i w b : ℕ) :
    (a.pullAccess srcOff i w b).bytes = (List.range w).map fun t => a.pullByte srcOff i (b + t) := by
  unfold Access.bytes pullAccess pullByte
  simp only [Cell.shift, Nat.add_assoc]

/-- **A group kernel is its accesses.** -/
theorem map_act_pullKernel_eq :
    (a.pullKernel srcOff).map Op.act = (a.accesses srcOff).flatMap Access.bytes := by
  unfold pullKernel accesses
  rw [List.map_flatMap, List.flatMap_assoc]
  refine List.flatMap_congr fun pid _ => ?_
  rw [List.map_append, List.flatMap_append, List.map_flatMap, List.flatMap_assoc]
  congr 1
  · refine List.flatMap_congr fun ⟨task, tilePid, peerIdx⟩ _ => ?_
    dsimp only
    rw [tileOffsets_eq, List.map_map, List.map_flatMap, List.flatMap_map]
    refine List.flatMap_congr fun b _ => ?_
    rw [bytes_pullAccess, List.map_map]
    rfl
  · split
    · rw [List.map_map, List.flatMap_map]
      simp only [bytes_pullAccess, List.range_one, List.map_singleton, Nat.add_zero]
      exact List.map_eq_flatMap
    · rfl

/-- The widths of a group kernel. -/
theorem width_of_mem_accesses (hx : x ∈ a.accesses srcOff) :
    x.width = a.eltBytes ∨ a.hasTail = true ∧ x.width = 1 := by
  obtain ⟨pid, -, hx⟩ := List.mem_flatMap.mp hx
  rcases List.mem_append.mp hx with hx | hx
  · obtain ⟨t, -, hx⟩ := List.mem_flatMap.mp hx
    obtain ⟨b, -, rfl⟩ := List.mem_map.mp hx
    exact Or.inl rfl
  · split at hx
    case isTrue h =>
      obtain ⟨b, -, rfl⟩ := List.mem_map.mp hx
      exact Or.inr ⟨h.1, rfl⟩
    case isFalse => cases hx

/-- **The accesses of a group kernel are aligned** if the segments of all peers start
aligned. -/
theorem aligned_pull {addr : Cell → ℕ} (hx : x ∈ a.accesses srcOff)
    (haddr : ∀ i b, a.eltBytes ∣ b → (a.pullAccess srcOff i a.eltBytes b).Aligned addr) :
    x.Aligned addr := by
  obtain ⟨pid, -, hx⟩ := List.mem_flatMap.mp hx
  rcases List.mem_append.mp hx with hx | hx
  · obtain ⟨t, -, hx⟩ := List.mem_flatMap.mp hx
    obtain ⟨b, hb, rfl⟩ := List.mem_map.mp hx
    exact haddr _ b (dvd_of_mem_tileVectors hb)
  · split at hx
    · obtain ⟨b, -, rfl⟩ := List.mem_map.mp hx
      exact Access.aligned_of_width_eq_one rfl
    · cases hx

end PullKernelArgs

/-! ## The single-peer kernel -/

/-- A map from byte offsets to cells that runs through a buffer. -/
def Runs (f : ℕ → Cell) : Prop := ∀ b i, (f b).shift i = f (b + i)

/-- The accesses of `pull_copy_kernel`. -/
def pullCopyAccesses (src dst : ℕ → Cell) (nbytes eltBytes blockElts : ℕ) (hasTail : Bool)
    (numPrograms : ℕ) : List Access :=
  (List.range numPrograms).flatMap fun pid =>
    ((stepRange pid (cdiv (nbytes / eltBytes) blockElts) numPrograms).flatMap fun tilePid =>
      (tileVectors (nbytes / eltBytes) eltBytes blockElts tilePid).map fun b =>
        ⟨eltBytes, src b, dst b⟩) ++
    if hasTail ∧ pid = 0 then (tailOffsets nbytes eltBytes).map fun b => ⟨1, src b, dst b⟩
    else []

section PullCopy

variable {src dst : ℕ → Cell} {n e be np : ℕ} {tail : Bool} {x : Access}

theorem bytes_of_runs (hsrc : Runs src) (hdst : Runs dst) (w b : ℕ) :
    (⟨w, src b, dst b⟩ : Access).bytes =
      (List.range w).map fun i => .copy (src (b + i)) (dst (b + i)) := by
  unfold Access.bytes
  exact List.map_congr_left fun i _ => congrArg₂ _ (hsrc b i) (hdst b i)

/-- **The single-peer kernel is its accesses.** -/
theorem map_act_pullCopyKernel (hsrc : Runs src) (hdst : Runs dst) :
    (pullCopyKernel src dst n e be tail np).map Op.act =
      (pullCopyAccesses src dst n e be tail np).flatMap Access.bytes := by
  unfold pullCopyKernel pullCopyAccesses
  rw [List.map_flatMap, List.flatMap_assoc]
  refine List.flatMap_congr fun pid _ => ?_
  rw [List.map_append, List.flatMap_append, List.map_flatMap, List.flatMap_assoc]
  congr 1
  · refine List.flatMap_congr fun tilePid _ => ?_
    rw [tileOffsets_eq, List.map_map, List.map_flatMap, List.flatMap_map]
    refine List.flatMap_congr fun b _ => ?_
    rw [bytes_of_runs hsrc hdst, List.map_map]
    rfl
  · split
    · rw [List.map_map, List.flatMap_map]
      simp only [bytes_of_runs hsrc hdst, List.range_one, List.map_singleton, Nat.add_zero]
      exact List.map_eq_flatMap
    · rfl

/-- The widths of the single-peer kernel, and its alignment. -/
theorem aligned_pullCopy {addr : Cell → ℕ} (hsrc : ∀ b, e ∣ b → e ∣ addr (src b))
    (hdst : ∀ b, e ∣ b → e ∣ addr (dst b)) (hx : x ∈ pullCopyAccesses src dst n e be tail np) :
    (x.width = e ∨ tail = true ∧ x.width = 1) ∧ x.Aligned addr := by
  obtain ⟨pid, -, hx⟩ := List.mem_flatMap.mp hx
  rcases List.mem_append.mp hx with hx | hx
  · obtain ⟨t, -, hx⟩ := List.mem_flatMap.mp hx
    obtain ⟨b, hb, rfl⟩ := List.mem_map.mp hx
    have hb := dvd_of_mem_tileVectors hb
    exact ⟨Or.inl rfl, hsrc b hb, hdst b hb⟩
  · split at hx
    case isTrue h =>
      obtain ⟨b, -, rfl⟩ := List.mem_map.mp hx
      exact ⟨Or.inr ⟨h.1, rfl⟩, Access.aligned_of_width_eq_one rfl⟩
    case isFalse => cases hx

end PullCopy

/-! ## The fused kernels -/

/-- Where the vectors of the bulk loop start. -/
def bulkVectors (bulkBytes blockElts vecBytes : ℕ) : List ℕ :=
  (stepRange 0 bulkBytes (blockElts * vecBytes)).flatMap fun off =>
    (List.range blockElts).flatMap fun lane =>
      if lane * vecBytes < bulkBytes - off then [off + lane * vecBytes] else []

/-- The widths and offsets of the accesses of `_fused_block_copy`. -/
def fusedBlockVectors (nbytes blockElts vecBytes : ℕ) : List (ℕ × ℕ) :=
  if vecBytes = 1 then (byteTailOffsets 0 nbytes blockElts).map fun b => (1, b)
  else
    let bulkBytes := nbytes / vecBytes * vecBytes
    ((bulkVectors bulkBytes blockElts vecBytes).map fun b => (vecBytes, b)) ++
      if bulkBytes < nbytes then (byteTailOffsets bulkBytes nbytes blockElts).map fun b => (1, b)
      else []

/-- The accesses of `_fused_block_copy`: each load is stored at both destinations. -/
def fusedBlockAccesses (src dst1 : ℕ → Cell) (dst2 : Option (ℕ → Cell))
    (nbytes blockElts vecBytes : ℕ) : List Access :=
  (fusedBlockVectors nbytes blockElts vecBytes).flatMap fun (w, b) =>
    ⟨w, src b, dst1 b⟩ :: (dst2.map fun d => ⟨w, src b, d b⟩).toList

section Block

variable {src dst1 : ℕ → Cell} {dst2 : Option (ℕ → Cell)} {n be v q : ℕ} {x : Access}

theorem bulkOffsets_eq : bulkOffsets q be v =
    (bulkVectors q be v).flatMap fun b => (List.range v).map fun i => b + i := by
  unfold bulkOffsets bulkVectors
  rw [List.flatMap_assoc]
  refine List.flatMap_congr fun off _ => ?_
  rw [List.flatMap_assoc]
  refine List.flatMap_congr fun lane _ => ?_
  split
  · rw [List.flatMap_singleton]
  · rfl

theorem flatMap_singles (l : List ℕ) :
    ((l.map fun b => (1, b)).flatMap fun y : ℕ × ℕ => (List.range y.1).map fun i => y.2 + i) =
      l := by
  rw [List.flatMap_map]
  simp only [List.range_one, List.map_singleton, Nat.add_zero]
  exact List.flatMap_singleton' l

/-- The bytes of a block are those of its vectors and its tail. -/
theorem fusedBlockOffsets_eq : fusedBlockOffsets n be v =
    (fusedBlockVectors n be v).flatMap fun y => (List.range y.1).map fun i => y.2 + i := by
  unfold fusedBlockOffsets fusedBlockVectors
  split
  · rw [flatMap_singles]
  · dsimp only
    rw [List.flatMap_append, bulkOffsets_eq, List.flatMap_map]
    split
    · rw [flatMap_singles]
    · rfl

theorem dvd_of_mem_bulkVectors {b : ℕ} (hb : b ∈ bulkVectors q be v) : v ∣ b := by
  obtain ⟨off, hoff, hb⟩ := List.mem_flatMap.mp hb
  obtain ⟨lane, -, hb⟩ := List.mem_flatMap.mp hb
  split at hb
  case isTrue =>
    obtain ⟨i, -, rfl⟩ := List.mem_range'.mp hoff
    rw [List.mem_singleton.mp hb, Nat.zero_add]
    exact dvd_add ((Nat.dvd_mul_left v be).mul_right i) (Nat.dvd_mul_left v lane)
  case isFalse => cases hb

/-- A vector of a block starts at a multiple of the width. -/
theorem of_mem_fusedBlockVectors {y : ℕ × ℕ} (hy : y ∈ fusedBlockVectors n be v) :
    y.1 = v ∧ v ∣ y.2 ∨ y.1 = 1 := by
  unfold fusedBlockVectors at hy
  split at hy
  · obtain ⟨b, -, rfl⟩ := List.mem_map.mp hy
    exact Or.inr rfl
  · rcases List.mem_append.mp hy with hy | hy
    · obtain ⟨b, hb, rfl⟩ := List.mem_map.mp hy
      exact Or.inl ⟨rfl, dvd_of_mem_bulkVectors hb⟩
    · split at hy
      · obtain ⟨b, -, rfl⟩ := List.mem_map.mp hy
        exact Or.inr rfl
      · cases hy

theorem mem_fusedBlockAccesses : x ∈ fusedBlockAccesses src dst1 dst2 n be v ↔
    ∃ y ∈ fusedBlockVectors n be v, x = ⟨y.1, src y.2, dst1 y.2⟩ ∨
      ∃ d, dst2 = some d ∧ x = ⟨y.1, src y.2, d y.2⟩ := by
  simp only [fusedBlockAccesses, List.mem_flatMap, List.mem_cons]
  cases dst2 <;> simp

/-- **A block copy is its accesses.** -/
theorem mem_fusedBlockCopy_iff (hsrc : Runs src) (hdst1 : Runs dst1)
    (hdst2 : ∀ d, dst2 = some d → Runs d) {d : DataAct} :
    d ∈ fusedBlockCopy src dst1 dst2 n be v ↔
      ∃ x ∈ fusedBlockAccesses src dst1 dst2 n be v, d ∈ x.bytes := by
  have hcopy : d ∈ fusedBlockCopy src dst1 dst2 n be v ↔ ∃ j ∈ fusedBlockOffsets n be v,
      d = .copy (src j) (dst1 j) ∨ ∃ d2, dst2 = some d2 ∧ d = .copy (src j) (d2 j) := by
    simp only [fusedBlockCopy, List.mem_flatMap, List.mem_cons]
    cases dst2 <;> simp
  rw [hcopy, fusedBlockOffsets_eq]
  constructor
  · rintro ⟨j, hj, hd⟩
    obtain ⟨y, hy, hj⟩ := List.mem_flatMap.mp hj
    obtain ⟨i, hi, rfl⟩ := List.mem_map.mp hj
    rcases hd with rfl | ⟨d2, hd2, rfl⟩
    · refine ⟨_, mem_fusedBlockAccesses.mpr ⟨y, hy, Or.inl rfl⟩, ?_⟩
      rw [bytes_of_runs hsrc hdst1]
      exact List.mem_map.mpr ⟨i, hi, rfl⟩
    · refine ⟨_, mem_fusedBlockAccesses.mpr ⟨y, hy, Or.inr ⟨d2, hd2, rfl⟩⟩, ?_⟩
      rw [bytes_of_runs hsrc (hdst2 d2 hd2)]
      exact List.mem_map.mpr ⟨i, hi, rfl⟩
  · rintro ⟨x, hx, hd⟩
    obtain ⟨y, hy, rfl | ⟨d2, hd2, rfl⟩⟩ := mem_fusedBlockAccesses.mp hx
    · rw [bytes_of_runs hsrc hdst1] at hd
      obtain ⟨i, hi, rfl⟩ := List.mem_map.mp hd
      exact ⟨y.2 + i, List.mem_flatMap.mpr ⟨y, hy, List.mem_map.mpr ⟨i, hi, rfl⟩⟩, Or.inl rfl⟩
    · rw [bytes_of_runs hsrc (hdst2 d2 hd2)] at hd
      obtain ⟨i, hi, rfl⟩ := List.mem_map.mp hd
      exact ⟨y.2 + i, List.mem_flatMap.mpr ⟨y, hy, List.mem_map.mpr ⟨i, hi, rfl⟩⟩,
        Or.inr ⟨d2, hd2, rfl⟩⟩

/-- The accesses of a block whose bases are aligned. -/
theorem aligned_fusedBlock {addr : Cell → ℕ} (hsrc : ∀ b, v ∣ b → v ∣ addr (src b))
    (hdst1 : ∀ b, v ∣ b → v ∣ addr (dst1 b))
    (hdst2 : ∀ d, dst2 = some d → ∀ b, v ∣ b → v ∣ addr (d b))
    (hx : x ∈ fusedBlockAccesses src dst1 dst2 n be v) :
    (x.width = v ∨ x.width = 1) ∧ x.Aligned addr := by
  obtain ⟨⟨w, b⟩, hy, heq⟩ := mem_fusedBlockAccesses.mp hx
  have hwidth : x.width = w := by
    rcases heq with rfl | ⟨d2, hd2, rfl⟩ <;> rfl
  rcases of_mem_fusedBlockVectors hy with ⟨hw, hb⟩ | hw
  · obtain rfl : w = v := hw
    refine ⟨Or.inl hwidth, ?_⟩
    rcases heq with rfl | ⟨d2, hd2, rfl⟩
    · exact ⟨hsrc b hb, hdst1 b hb⟩
    · exact ⟨hsrc b hb, hdst2 d2 hd2 b hb⟩
  · have hone : x.width = 1 := hwidth.trans hw
    exact ⟨Or.inr hone, Access.aligned_of_width_eq_one hone⟩

end Block

namespace FusedKernelArgs

variable (a : FusedKernelArgs)

/-- The accesses of `allGatherStage`. -/
def allGatherStageAccesses (base n : ℕ) : List Access :=
  fusedBlockAccesses (fun j => .input a.selfGlobalRank a.call (base + j))
    (fun j => .comm a.selfGlobalRank (a.commBufOffset + base + j))
    (some fun j => .output a.selfGlobalRank a.call (a.selfLocalIndex * a.sliceBytes + base + j))
    n a.blockElts a.vecBytes

/-- The accesses of `all2AllStage`. -/
def all2AllStageAccesses (base n : ℕ) : List Access :=
  ((List.range a.groupRanks.length).flatMap fun t =>
    fusedBlockAccesses (fun j => .input a.selfGlobalRank a.call (t * a.sliceBytes + base + j))
      (fun j => .comm a.selfGlobalRank (a.commBufOffset + t * a.sliceBytes + base + j)) none
      n a.blockElts a.vecBytes) ++
  fusedBlockAccesses
    (fun j => .input a.selfGlobalRank a.call (a.selfLocalIndex * a.sliceBytes + base + j))
    (fun j => .output a.selfGlobalRank a.call (a.selfLocalIndex * a.sliceBytes + base + j)) none
    n a.blockElts a.vecBytes

/-- The accesses with which a receiver pulls a chunk. -/
def receiverAccesses (pullOff base n : ℕ) : List Access :=
  (List.range a.groupRanks.length).flatMap fun pDelta =>
    let peerIdx := (pDelta + a.selfLocalIndex + 1) % a.groupRanks.length
    if peerIdx ≠ a.selfLocalIndex then
      fusedBlockAccesses
        (fun j => .comm (a.groupRanks.getD peerIdx 0) (a.commBufOffset + pullOff + base + j))
        (fun j => .output a.selfGlobalRank a.call (peerIdx * a.sliceBytes + base + j))
        none n a.blockElts a.vecBytes
    else []

/-- The accesses of a fused kernel. -/
def fusedAccesses (stage : ℕ → ℕ → List Access) (pullOff : ℕ) : List Access :=
  (List.range (2 * a.numChannels)).flatMap fun pid =>
    let channel := pid / 2
    if a.sliceBytes ≤ channel * a.partitionBytes then []
    else
      (List.range (a.numChunks channel)).flatMap fun k =>
        if pid % 2 = 0 then stage (a.baseByte channel k) (a.thisChunk channel k)
        else a.receiverAccesses pullOff (a.baseByte channel k) (a.thisChunk channel k)

/-- The accesses of a staging. -/
def stageAccesses : Collective → ℕ → ℕ → List Access
  | .allGather => a.allGatherStageAccesses
  | .all2All => a.all2AllStageAccesses

/-- The accesses of the fused kernel of a collective. -/
def accesses (kind : Collective) : List Access :=
  a.fusedAccesses (a.stageAccesses kind) (kind.srcOffset a.selfLocalIndex a.sliceBytes)

variable {a} {kind : Collective} {base n : ℕ} {d : DataAct} {x : Access}

theorem runs_comm (r off : ℕ) : Runs fun j => .comm r (off + j) := fun b i =>
  congrArg (Cell.comm r) (Nat.add_assoc off b i)

theorem runs_input (r c off : ℕ) : Runs fun j => .input r c (off + j) := fun b i =>
  congrArg (Cell.input r c) (Nat.add_assoc off b i)

theorem runs_output (r c off : ℕ) : Runs fun j => .output r c (off + j) := fun b i =>
  congrArg (Cell.output r c) (Nat.add_assoc off b i)

/-- A block with one destination. -/
theorem mem_fusedBlockCopy_none_iff {src dst : ℕ → Cell} (hsrc : Runs src) (hdst : Runs dst)
    {be v : ℕ} : d ∈ fusedBlockCopy src dst none n be v ↔
      ∃ x ∈ fusedBlockAccesses src dst none n be v, d ∈ x.bytes :=
  mem_fusedBlockCopy_iff hsrc hdst (by simp)

theorem mem_stage_iff_accesses :
    d ∈ a.stage kind base n ↔ ∃ x ∈ a.stageAccesses kind base n, d ∈ x.bytes := by
  cases kind with
  | allGather =>
    refine mem_fusedBlockCopy_iff (runs_input _ _ _) (runs_comm _ _) fun d hd => ?_
    rw [← Option.some_inj.mp hd]
    exact runs_output _ _ _
  | all2All =>
    constructor
    · intro h
      rcases List.mem_append.mp h with h | h
      · obtain ⟨t, ht, h⟩ := List.mem_flatMap.mp h
        obtain ⟨x, hx, hd⟩ :=
          (mem_fusedBlockCopy_none_iff (runs_input _ _ _) (runs_comm _ _)).mp h
        exact ⟨x, List.mem_append_left _ (List.mem_flatMap.mpr ⟨t, ht, hx⟩), hd⟩
      · obtain ⟨x, hx, hd⟩ :=
          (mem_fusedBlockCopy_none_iff (runs_input _ _ _) (runs_output _ _ _)).mp h
        exact ⟨x, List.mem_append_right _ hx, hd⟩
    · rintro ⟨x, hx, hd⟩
      rcases List.mem_append.mp hx with hx | hx
      · obtain ⟨t, ht, hx⟩ := List.mem_flatMap.mp hx
        exact List.mem_append_left _ (List.mem_flatMap.mpr ⟨t, ht,
          (mem_fusedBlockCopy_none_iff (runs_input _ _ _) (runs_comm _ _)).mpr ⟨x, hx, hd⟩⟩)
      · exact List.mem_append_right _
          ((mem_fusedBlockCopy_none_iff (runs_input _ _ _) (runs_output _ _ _)).mpr ⟨x, hx, hd⟩)

/-- What a sender copies. -/
theorem copy_mem_sender_iff {stage : ℕ → ℕ → List DataAct} {pid c : ℕ} {src dst : Cell} :
    .copy src dst ∈ acts (a.sender stage pid c) ↔
      ∃ k < a.numChunks c, .copy src dst ∈ stage (a.baseByte c k) (a.thisChunk c k) := by
  constructor
  · rintro ⟨o, ho, heq⟩
    obtain ⟨k, hk, ⟨d, hd, rfl⟩ | ⟨y, -, rfl⟩⟩ := mem_sender.mp ho
    · exact ⟨k, hk, heq ▸ hd⟩
    · cases heq
  · rintro ⟨k, hk, hd⟩
    exact ⟨_, mem_sender.mpr ⟨k, hk, Or.inl ⟨_, hd, rfl⟩⟩, rfl⟩

/-- What a receiver copies. -/
theorem copy_mem_receiver_iff {pullOff pid c : ℕ} {src dst : Cell} :
    .copy src dst ∈ acts (a.receiver pullOff pid c) ↔ ∃ k < a.numChunks c,
      ∃ x ∈ a.receiverAccesses pullOff (a.baseByte c k) (a.thisChunk c k),
        .copy src dst ∈ x.bytes := by
  constructor
  · rintro ⟨o, ho, heq⟩
    obtain ⟨k, hk, ho⟩ := List.mem_flatMap.mp ho
    refine ⟨k, List.mem_range.mp hk, ?_⟩
    rcases List.mem_cons.mp ho with rfl | ho
    · cases heq
    · obtain ⟨pDelta, hp, ho⟩ := List.mem_flatMap.mp ho
      dsimp only at ho
      split at ho
      case isTrue hne =>
        obtain ⟨d, hd, rfl⟩ := List.mem_map.mp ho
        obtain rfl : d = .copy src dst := heq
        obtain ⟨x, hx, hd⟩ :=
          (mem_fusedBlockCopy_none_iff (runs_comm _ _) (runs_output _ _ _)).mp hd
        refine ⟨x, List.mem_flatMap.mpr ⟨pDelta, hp, ?_⟩, hd⟩
        dsimp only
        rwa [if_pos hne]
      case isFalse => cases ho
  · rintro ⟨k, hk, x, hx, hd⟩
    obtain ⟨pDelta, hp, hx⟩ := List.mem_flatMap.mp hx
    dsimp only at hx
    split at hx
    case isTrue hne =>
      refine ⟨⟨pid, 2 * k + 3, .copy src dst⟩, List.mem_flatMap.mpr ⟨k, List.mem_range.mpr hk,
        List.mem_cons_of_mem _ (List.mem_flatMap.mpr ⟨pDelta, hp, ?_⟩)⟩, rfl⟩
      dsimp only
      rw [if_pos hne]
      exact List.mem_map.mpr ⟨_,
        (mem_fusedBlockCopy_none_iff (runs_comm _ _) (runs_output _ _ _)).mpr ⟨x, hx, hd⟩, rfl⟩
    case isFalse => cases hx

/-- **The copies of a fused kernel are its accesses.** -/
theorem copy_mem_kernel_iff {src dst : Cell} : .copy src dst ∈ acts (a.kernel kind) ↔
    ∃ x ∈ a.accesses kind, .copy src dst ∈ x.bytes := by
  rw [kernel_eq]
  unfold accesses fusedAccesses fusedKernel
  constructor
  · rintro ⟨o, ho, heq⟩
    obtain ⟨pid, hpid, ho⟩ := List.mem_flatMap.mp ho
    dsimp only at ho
    split at ho
    case isTrue => cases ho
    case isFalse hnot =>
      have hacc : ∃ k < a.numChunks (pid / 2), ∃ x ∈ if pid % 2 = 0 then
          a.stageAccesses kind (a.baseByte (pid / 2) k) (a.thisChunk (pid / 2) k)
          else a.receiverAccesses (kind.srcOffset a.selfLocalIndex a.sliceBytes)
            (a.baseByte (pid / 2) k) (a.thisChunk (pid / 2) k), .copy src dst ∈ x.bytes := by
        split at ho
        case isTrue heven =>
          obtain ⟨k, hk, hd⟩ := copy_mem_sender_iff.mp ⟨o, ho, heq⟩
          simp only [if_pos heven]
          exact ⟨k, hk, mem_stage_iff_accesses.mp hd⟩
        case isFalse hodd =>
          simp only [if_neg hodd]
          exact copy_mem_receiver_iff.mp ⟨o, ho, heq⟩
      obtain ⟨k, hk, x, hx, hd⟩ := hacc
      refine ⟨x, List.mem_flatMap.mpr ⟨pid, hpid, ?_⟩, hd⟩
      dsimp only
      rw [if_neg hnot]
      exact List.mem_flatMap.mpr ⟨k, List.mem_range.mpr hk, hx⟩
  · rintro ⟨x, hx, hd⟩
    obtain ⟨pid, hpid, hx⟩ := List.mem_flatMap.mp hx
    dsimp only at hx
    split at hx
    case isTrue => cases hx
    case isFalse hnot =>
      obtain ⟨k, hk, hx⟩ := List.mem_flatMap.mp hx
      have hk := List.mem_range.mp hk
      have hop : .copy src dst ∈ acts (if pid % 2 = 0 then
          a.sender (a.stage kind) pid (pid / 2)
          else a.receiver (kind.srcOffset a.selfLocalIndex a.sliceBytes) pid (pid / 2)) := by
        split at hx
        case isTrue heven =>
          rw [if_pos heven]
          exact copy_mem_sender_iff.mpr ⟨k, hk, mem_stage_iff_accesses.mpr ⟨x, hx, hd⟩⟩
        case isFalse hodd =>
          rw [if_neg hodd]
          exact copy_mem_receiver_iff.mpr ⟨k, hk, x, hx, hd⟩
      obtain ⟨o, ho, heq⟩ := hop
      refine ⟨o, List.mem_flatMap.mpr ⟨pid, hpid, ?_⟩, heq⟩
      dsimp only
      rwa [if_neg hnot]

/-! ### Alignment -/

section Aligned

variable {addr : Cell → ℕ} {src dst : ℕ → Cell} {p q : ℕ}

theorem dvd_addr {v : ℕ} {f : ℕ → Cell} (hf : ∀ b, addr (f b) = p + b) (hp : v ∣ p) (b : ℕ)
    (hb : v ∣ b) : v ∣ addr (f b) := by
  rw [hf]
  exact dvd_add hp hb

/-- A block with one destination is aligned where its bases are. -/
theorem aligned_block {be v : ℕ} (hsrc : ∀ b, addr (src b) = p + b)
    (hdst : ∀ b, addr (dst b) = q + b) (hp : v ∣ p) (hq : v ∣ q)
    (hx : x ∈ fusedBlockAccesses src dst none n be v) :
    (x.width = v ∨ x.width = 1) ∧ x.Aligned addr :=
  aligned_fusedBlock (dvd_addr hsrc hp) (dvd_addr hdst hq) (by simp) hx

variable {commBase : ℕ → ℕ} {inputPtr outputPtr : ℕ}

/-- What the width of a fused kernel divides. -/
structure Divides (a : FusedKernelArgs) (commBase : ℕ → ℕ) (inputPtr outputPtr : ℕ) : Prop where
  commBase : ∀ r, a.vecBytes ∣ commBase r
  input : a.vecBytes ∣ inputPtr
  output : a.vecBytes ∣ outputPtr
  commBufOffset : a.vecBytes ∣ a.commBufOffset
  slice : a.vecBytes ∣ a.sliceBytes
  partition : a.vecBytes ∣ a.partitionBytes
  chunk : a.vecBytes ∣ a.chunkBytes

theorem Divides.baseByte (h : a.Divides commBase inputPtr outputPtr) (c k : ℕ) :
    a.vecBytes ∣ a.baseByte c k :=
  dvd_add (h.partition.mul_left c) (h.chunk.mul_left k)

theorem Divides.srcOffset (h : a.Divides commBase inputPtr outputPtr) :
    a.vecBytes ∣ kind.srcOffset a.selfLocalIndex a.sliceBytes := by
  cases kind with
  | allGather => exact dvd_zero _
  | all2All => exact h.slice.mul_left _

theorem Divides.aligned_stage (h : a.Divides commBase inputPtr outputPtr)
    (hbase : a.vecBytes ∣ base) (hx : x ∈ a.stageAccesses kind base n) :
    (x.width = a.vecBytes ∨ x.width = 1) ∧
      x.Aligned (Cell.addr commBase inputPtr outputPtr) := by
  have hseg : ∀ t, a.vecBytes ∣ t * a.sliceBytes + base := fun t =>
    dvd_add (h.slice.mul_left t) hbase
  cases kind with
  | allGather =>
    replace hx : x ∈ a.allGatherStageAccesses base n := hx
    unfold allGatherStageAccesses at hx
    refine aligned_fusedBlock ?_ ?_ ?_ hx
    · exact dvd_addr (p := inputPtr + base) (fun b => (Nat.add_assoc ..).symm)
        (dvd_add h.input hbase)
    · exact dvd_addr (p := commBase a.selfGlobalRank + (a.commBufOffset + base))
        (fun b => (Nat.add_assoc ..).symm)
        (dvd_add (h.commBase _) (dvd_add h.commBufOffset hbase))
    · intro d hd
      rw [← Option.some_inj.mp hd]
      exact dvd_addr (p := outputPtr + (a.selfLocalIndex * a.sliceBytes + base))
        (fun b => (Nat.add_assoc ..).symm) (dvd_add h.output (hseg _))
  | all2All =>
    rcases List.mem_append.mp hx with hx | hx
    · obtain ⟨t, -, hx⟩ := List.mem_flatMap.mp hx
      refine aligned_block (p := inputPtr + (t * a.sliceBytes + base))
        (q := commBase a.selfGlobalRank + (a.commBufOffset + t * a.sliceBytes + base))
        (fun b => (Nat.add_assoc ..).symm) (fun b => (Nat.add_assoc ..).symm)
        (dvd_add h.input (hseg t)) (dvd_add (h.commBase _) ?_) hx
      rw [Nat.add_assoc]
      exact dvd_add h.commBufOffset (hseg t)
    · exact aligned_block (p := inputPtr + (a.selfLocalIndex * a.sliceBytes + base))
        (q := outputPtr + (a.selfLocalIndex * a.sliceBytes + base))
        (fun b => (Nat.add_assoc ..).symm) (fun b => (Nat.add_assoc ..).symm)
        (dvd_add h.input (hseg _)) (dvd_add h.output (hseg _)) hx

theorem Divides.aligned_receiver (h : a.Divides commBase inputPtr outputPtr) {pullOff : ℕ}
    (hoff : a.vecBytes ∣ pullOff) (hbase : a.vecBytes ∣ base)
    (hx : x ∈ a.receiverAccesses pullOff base n) :
    (x.width = a.vecBytes ∨ x.width = 1) ∧
      x.Aligned (Cell.addr commBase inputPtr outputPtr) := by
  obtain ⟨pDelta, -, hx⟩ := List.mem_flatMap.mp hx
  dsimp only at hx
  split at hx
  case isTrue =>
    refine aligned_block (fun b => (Nat.add_assoc ..).symm) (fun b => (Nat.add_assoc ..).symm)
      (dvd_add (h.commBase _) ?_) (dvd_add h.output ?_) hx
    · exact dvd_add (dvd_add h.commBufOffset hoff) hbase
    · exact dvd_add (h.slice.mul_left _) hbase
  case isFalse => cases hx

/-- **Every access of a fused kernel is aligned**: of every peer, channel and chunk, on the
source, the destination and the self-copy side. -/
theorem Divides.aligned_accesses (h : a.Divides commBase inputPtr outputPtr)
    (hx : x ∈ a.accesses kind) :
    (x.width = a.vecBytes ∨ x.width = 1) ∧
      x.Aligned (Cell.addr commBase inputPtr outputPtr) := by
  obtain ⟨pid, -, hx⟩ := List.mem_flatMap.mp hx
  dsimp only at hx
  split at hx
  case isTrue => cases hx
  case isFalse =>
    obtain ⟨k, -, hx⟩ := List.mem_flatMap.mp hx
    split at hx
    · exact h.aligned_stage (h.baseByte _ k) hx
    · exact h.aligned_receiver h.srcOffset (h.baseByte _ k) hx

end Aligned

end FusedKernelArgs

end GroupFreeCollectives
