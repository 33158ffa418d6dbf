import GroupFreeCollectives.Config
import GroupFreeCollectives.Kernels.Common
import Mathlib.Data.Nat.Factorization.Basic
import Mathlib.Tactic.IntervalCases

/-!
# The vector kernels

`gfc/kernels/all_gather.py`, `all2all.py`, `copy_pull.py` and `p2p_put.py`.  The
programs of a launch share the (tile, peer) pairs of all members: program `p` takes the
pairs `p, p + stride, …`, a pair names a tile of full elements and, in an order rotated
by the local index, a peer.  Bytes past the last full element are copied by one program
for each peer.

The counts are exact here.  The device computes them in integers of 32 or 64 bits, and its
kernels are these where its counts are exact (`Kernels/DeviceKernels`).

`mem_acts_pullKernel` says which bytes the programs of a group kernel copy: the widths that the
runtime picks divide the byte count (`vecFor_dvd`), so that there is no tail.  The single-peer
kernel copies all bytes at every width (`acts_pullCopyKernel_tail`).

The phase of an operation is its task number, which grows along the loop of a program;
the tail comes last.
-/

namespace GroupFreeCollectives

open Tiling

/-! ## Tiles of elements -/

/-- `_dtype_for_vec`: the bytes of an element. -/
def dtypeForVec (vecBytes : ℕ) : ℕ :=
  if 16 ≤ vecBytes then 16 else if 8 ≤ vecBytes then 8 else if vecBytes = 4 then 4 else 1

theorem dtypeForVec_pos (v : ℕ) : 0 < dtypeForVec v := by
  unfold dtypeForVec
  split_ifs <;> decide

theorem dtypeForVec_le (v : ℕ) : dtypeForVec v ≤ 16 := by
  unfold dtypeForVec
  split_ifs <;> decide

theorem dtypeForVec_lt (v : ℕ) : dtypeForVec v < 2 ^ 31 :=
  lt_of_le_of_lt (dtypeForVec_le v) (by norm_num)

theorem IsVecWidth.dtypeForVec {w : ℕ} (h : IsVecWidth w) : dtypeForVec w = w := by
  rcases h with rfl | rfl | rfl | rfl <;> rfl

/-- The byte offsets of a tile: `BLOCK_ELTS` lanes of `ELT_BYTES` bytes, masked to the
full elements. -/
def tileOffsets (nFull eltBytes blockElts tile : ℕ) : List ℕ :=
  (List.range blockElts).flatMap fun lane =>
    if tile * blockElts + lane < nFull then
      (List.range eltBytes).map fun i => (tile * blockElts + lane) * eltBytes + i
    else []

/-- The byte offsets of the tail: `ELT_BYTES` lanes past the full elements, masked to
the byte count. -/
def tailOffsets (nbytes eltBytes : ℕ) : List ℕ :=
  (List.range eltBytes).filterMap fun i =>
    if nbytes / eltBytes * eltBytes + i < nbytes then some (nbytes / eltBytes * eltBytes + i)
    else none

theorem mem_tileOffsets_lt {n e be tile b : ℕ} (h : b ∈ tileOffsets (n / e) e be tile) :
    b < n := by
  obtain ⟨lane, -, hb⟩ := List.mem_flatMap.mp h
  split at hb
  case isTrue hlt =>
    obtain ⟨i, hi, rfl⟩ := List.mem_map.mp hb
    have hi' := List.mem_range.mp hi
    calc (tile * be + lane) * e + i < (tile * be + lane + 1) * e := by
          rw [Nat.succ_mul]
          omega
      _ ≤ n / e * e := Nat.mul_le_mul_right e hlt
      _ ≤ n := Nat.div_mul_le_self n e
  case isFalse => cases hb

theorem mem_tailOffsets_lt {n e b : ℕ} (h : b ∈ tailOffsets n e) : b < n := by
  obtain ⟨i, -, hb⟩ := List.mem_filterMap.mp h
  split at hb
  case isTrue hlt => exact Option.some_inj.mp hb ▸ hlt
  case isFalse => cases hb

theorem mem_tailOffsets {n e b : ℕ} (he : 0 < e) :
    b ∈ tailOffsets n e ↔ n / e * e ≤ b ∧ b < n := by
  have hdm := Nat.div_add_mod' n e
  have hmod := Nat.mod_lt n he
  rw [tailOffsets, List.mem_filterMap]
  constructor
  · rintro ⟨i, -, hb⟩
    split at hb
    case isTrue hlt =>
      obtain rfl := Option.some_inj.mp hb
      exact ⟨Nat.le_add_right _ _, hlt⟩
    case isFalse => cases hb
  · rintro ⟨hge, hlt⟩
    refine ⟨b - n / e * e, List.mem_range.mpr (by omega), ?_⟩
    rw [Nat.add_sub_cancel' hge, if_pos hlt]

/-- The tiles cover the full elements. -/
theorem exists_tile {n e be b : ℕ} (he : 0 < e) (hbe : 0 < be) (hb : b < n / e * e) :
    ∃ tile < cdiv (n / e) be, b ∈ tileOffsets (n / e) e be tile := by
  have hdm := Nat.div_add_mod (b / e) be
  have hmod : b / e % be < be := Nat.mod_lt _ hbe
  have hcomm : be * (b / e / be) = b / e / be * be := Nat.mul_comm _ _
  have helt : b / e < n / e := (Nat.div_lt_iff_lt_mul he).mpr hb
  have hsum : b / e / be * be + b / e % be = b / e := by omega
  refine ⟨b / e / be, (lt_cdiv_iff hbe).mpr (by omega), List.mem_flatMap.mpr
    ⟨b / e % be, List.mem_range.mpr hmod, ?_⟩⟩
  rw [hsum, if_pos helt]
  refine List.mem_map.mpr ⟨b % e, List.mem_range.mpr (Nat.mod_lt _ he), ?_⟩
  rw [Nat.mul_comm]
  exact Nat.div_add_mod b e

/-! ## Tasks of a group kernel -/

/-- The tasks of program `pid`: each with its tile and, in an order rotated by the local
index, the lane of its peer. -/
def groupTasks (groupSize nTiles selfLocalIndex stride pid : ℕ) : List (ℕ × ℕ × ℕ) :=
  (stepRange pid (groupSize * nTiles) stride).map fun task =>
    let tilePid := task / groupSize
    let peerDelta := task - tilePid * groupSize
    (task, tilePid, (peerDelta + selfLocalIndex + 1) % groupSize)

section GroupTasks

variable {groupSize nTiles li stride pid : ℕ}

theorem lane_lt_of_mem_groupTasks (hs : 0 < stride) {x : ℕ × ℕ × ℕ}
    (hx : x ∈ groupTasks groupSize nTiles li stride pid) : x.2.2 < groupSize := by
  obtain ⟨task, htask, rfl⟩ := List.mem_map.mp hx
  obtain ⟨-, -, hlt⟩ := (mem_stepRange hs).mp htask
  exact Nat.mod_lt _ (Nat.pos_of_mul_pos_right (by omega : 0 < groupSize * nTiles))

/-- Every tile of every peer is the task of some program. -/
theorem exists_groupTask (li : ℕ) (hs : 0 < stride) {lane tile : ℕ} (hl : lane < groupSize)
    (ht : tile < nTiles) : ∃ pid, pid < stride ∧ pid < groupSize * nTiles ∧
      ∃ task, (task, tile, lane) ∈ groupTasks groupSize nTiles li stride pid := by
  obtain ⟨d, hd, hdl⟩ := exists_swizzle hl li
  have hG : 0 < groupSize := by omega
  have hlt : tile * groupSize + d < groupSize * nTiles := by
    calc tile * groupSize + d < (tile + 1) * groupSize := by
          rw [Nat.succ_mul]
          omega
      _ ≤ nTiles * groupSize := Nat.mul_le_mul_right _ ht
      _ = groupSize * nTiles := Nat.mul_comm _ _
  have hdiv : (tile * groupSize + d) / groupSize = tile := by
    rw [Nat.mul_comm, Nat.mul_add_div hG, Nat.div_eq_of_lt hd, Nat.add_zero]
  obtain ⟨pid, hpid, hmem⟩ := (exists_mem_stepRange_iff hs).mpr hlt
  obtain ⟨i, hi, -⟩ := (mem_stepRange hs).mp hmem
  refine ⟨pid, hpid, by omega, tile * groupSize + d, List.mem_map.mpr ⟨_, hmem, ?_⟩⟩
  simp only [hdiv, Nat.add_sub_cancel_left, hdl]

end GroupTasks

/-! ## The group kernels -/

/-- The arguments of a group pull kernel, with the call and the rank it runs for, the
ranks its row pointer points to and the number of programs.  `dstOffset` is where the
destination starts in the output of the call. -/
structure PullKernelArgs where
  call : ℕ
  selfGlobalRank : ℕ
  groupRanks : List ℕ
  commBufOffset : ℕ
  dstOffset : ℕ
  selfLocalIndex : ℕ
  copyBytes : ℕ
  srcSliceStride : ℕ
  dstStrideBytes : ℕ
  eltBytes : ℕ
  blockElts : ℕ
  hasTail : Bool
  numPrograms : ℕ

namespace PullKernelArgs

variable (a : PullKernelArgs)

/-- `n_tiles` of a peer. -/
def nTiles : ℕ := cdiv (a.copyBytes / a.eltBytes) a.blockElts

/-- The copy of byte `b` from the peer in lane `peerIdx`. -/
def pullByte (srcOff peerIdx b : ℕ) : DataAct :=
  .copy (.comm (a.groupRanks.getD peerIdx 0) (a.commBufOffset + srcOff + b))
    (.output a.selfGlobalRank a.call (a.dstOffset + peerIdx * a.dstStrideBytes + b))

/-- What the two group kernels share, with the offset of the slice to pull; the tiles are counted
exactly. -/
def pullKernel (srcOff : ℕ) : List (Op DataAct) :=
  (List.range a.numPrograms).flatMap fun pid =>
    ((groupTasks a.groupRanks.length a.nTiles a.selfLocalIndex a.numPrograms pid).flatMap
      fun (task, tilePid, peerIdx) =>
        (tileOffsets (a.copyBytes / a.eltBytes) a.eltBytes a.blockElts tilePid).map fun b =>
          ⟨pid, task, a.pullByte srcOff peerIdx b⟩) ++
    if a.hasTail ∧ pid < a.groupRanks.length then
      let peerIdx := (pid + a.selfLocalIndex + 1) % a.groupRanks.length
      (tailOffsets a.copyBytes a.eltBytes).map fun b =>
        ⟨pid, a.groupRanks.length * a.nTiles, a.pullByte srcOff peerIdx b⟩
    else []

/-- `all_gather_pull_kernel`. -/
def allGatherPullKernel : List (Op DataAct) := a.pullKernel 0

/-- `all2all_pull_kernel`. -/
def all2AllPullKernel : List (Op DataAct) := a.pullKernel (a.selfLocalIndex * a.srcSliceStride)

/-- What a group kernel is for. -/
def pulls (srcOff : ℕ) : Set DataAct :=
  groupCopies a.groupRanks (fun _ peer b => .comm peer (a.commBufOffset + srcOff + b))
    (fun i _ b => .output a.selfGlobalRank a.call (a.dstOffset + i * a.dstStrideBytes + b))
    a.copyBytes

variable {a} {srcOff : ℕ}

theorem pullByte_mem_pulls {i b : ℕ} (hi : i < a.groupRanks.length) (hb : b < a.copyBytes) :
    a.pullByte srcOff i b ∈ a.pulls srcOff := by
  refine ⟨i, a.groupRanks[i], List.getElem?_eq_getElem hi, b, hb, ?_⟩
  rw [pullByte, List.getD_eq_getElem _ _ hi]

/-- A group kernel copies nothing but bytes of the members' slices. -/
theorem pullKernel_subset : acts (a.pullKernel srcOff) ⊆ a.pulls srcOff := by
  rintro d ⟨o, ho, rfl⟩
  obtain ⟨pid, hpid, ho⟩ := List.mem_flatMap.mp ho
  have hp : 0 < a.numPrograms := by
    have := List.mem_range.mp hpid
    omega
  rcases List.mem_append.mp ho with ho | ho
  · obtain ⟨x, hx, ho⟩ := List.mem_flatMap.mp ho
    obtain ⟨b, hb, rfl⟩ := List.mem_map.mp ho
    exact pullByte_mem_pulls (lane_lt_of_mem_groupTasks hp hx) (mem_tileOffsets_lt hb)
  · split at ho
    case isTrue h =>
      obtain ⟨b, hb, rfl⟩ := List.mem_map.mp ho
      exact pullByte_mem_pulls (Nat.mod_lt _ (by omega)) (mem_tailOffsets_lt hb)
    case isFalse => cases ho

/-- **The bytes that the programs copy**: the full elements of every peer, and the tails of
the peers whose place in the rotated order is the number of a program. -/
theorem mem_acts_pullKernel (he : 0 < a.eltBytes) (hbe : 0 < a.blockElts)
    (hp : 0 < a.numPrograms) (d : DataAct) :
    d ∈ acts (a.pullKernel srcOff) ↔ ∃ i b, d = a.pullByte srcOff i b ∧
      i < a.groupRanks.length ∧ b < a.copyBytes ∧
      (a.copyBytes / a.eltBytes * a.eltBytes ≤ b → a.hasTail = true ∧
        ∃ pid < a.numPrograms, pid < a.groupRanks.length ∧
          (pid + a.selfLocalIndex + 1) % a.groupRanks.length = i) := by
  constructor
  · rintro ⟨o, ho, rfl⟩
    obtain ⟨pid, hpid, ho⟩ := List.mem_flatMap.mp ho
    rcases List.mem_append.mp ho with ho | ho
    · obtain ⟨x, hx, ho⟩ := List.mem_flatMap.mp ho
      obtain ⟨b, hb, rfl⟩ := List.mem_map.mp ho
      have hfull : b < a.copyBytes / a.eltBytes * a.eltBytes := by
        refine @mem_tileOffsets_lt _ a.eltBytes a.blockElts x.2.1 b ?_
        rw [Nat.mul_div_cancel _ he]
        exact hb
      exact ⟨x.2.2, b, rfl, lane_lt_of_mem_groupTasks hp hx, mem_tileOffsets_lt hb,
        fun htail => absurd hfull (not_lt.mpr htail)⟩
    · split at ho
      case isTrue h =>
        obtain ⟨b, hb, rfl⟩ := List.mem_map.mp ho
        exact ⟨_, b, rfl, Nat.mod_lt _ (by omega), mem_tailOffsets_lt hb,
          fun _ => ⟨h.1, pid, List.mem_range.mp hpid, h.2, rfl⟩⟩
      case isFalse => cases ho
  · rintro ⟨i, b, rfl, hi, hb, htail⟩
    by_cases hfull : b < a.copyBytes / a.eltBytes * a.eltBytes
    · obtain ⟨tile, htile, hmem⟩ := exists_tile he hbe hfull
      obtain ⟨pid, hpid, -, task, htask⟩ := exists_groupTask a.selfLocalIndex hp hi htile
      exact ⟨⟨pid, task, a.pullByte srcOff i b⟩, List.mem_flatMap.mpr
        ⟨pid, List.mem_range.mpr hpid, List.mem_append_left _
          (List.mem_flatMap.mpr ⟨_, htask, List.mem_map.mpr ⟨b, hmem, rfl⟩⟩)⟩, rfl⟩
    · obtain ⟨hhas, pid, hpid, hpeer, rfl⟩ := htail (not_lt.mp hfull)
      refine ⟨⟨pid, a.groupRanks.length * a.nTiles, _⟩, List.mem_flatMap.mpr
        ⟨pid, List.mem_range.mpr hpid, List.mem_append_right _ ?_⟩, rfl⟩
      rw [if_pos ⟨hhas, hpeer⟩]
      exact List.mem_map.mpr ⟨b, (mem_tailOffsets he).mpr ⟨not_lt.mp hfull, hb⟩, rfl⟩

end PullKernelArgs

/-! ## The group launchers -/

/-- `_DEFAULT_BLOCK_BYTES`. -/
def defaultBlockBytes : ℕ := 64 * 1024

/-- The arguments of a group pull launch, with the call and the rank it runs for and
the ranks its row pointer points to. -/
structure PullLaunchArgs where
  call : ℕ
  selfGlobalRank : ℕ
  groupRanks : List ℕ
  dstOffset : ℕ
  commBufOffset : ℕ
  selfLocalIndex : ℕ
  sliceBytes : ℕ
  vecBytes : ℕ
  numSms : ℤ
  blockBytes : ℕ := defaultBlockBytes
  copyBytes : Option ℕ := none
  srcSliceStride : Option ℕ := none
  dstStrideBytes : Option ℕ := none

namespace PullLaunchArgs

variable (a : PullLaunchArgs)

/-- `n_block`, the tiles of a peer as the host counts them. -/
def nBlock (copyBytes : ℕ) : ℕ :=
  cdiv (copyBytes / dtypeForVec a.vecBytes) (max (a.blockBytes / dtypeForVec a.vecBytes) 1)

/-- The grid: the tasks of all peers, at least one for each tail, at most the SMs. -/
def grid (copyBytes : ℕ) : ℕ :=
  let totalTasks := a.groupRanks.length * a.nBlock copyBytes
  let totalTasks :=
    if copyBytes % dtypeForVec a.vecBytes ≠ 0 then max totalTasks a.groupRanks.length
    else max totalTasks 1
  min a.numSms.toNat totalTasks

/-- What the launchers pass to the kernel. -/
def kernelArgs (copyBytes : ℕ) : PullKernelArgs where
  call := a.call
  selfGlobalRank := a.selfGlobalRank
  groupRanks := a.groupRanks
  commBufOffset := a.commBufOffset
  dstOffset := a.dstOffset
  selfLocalIndex := a.selfLocalIndex
  copyBytes := copyBytes
  srcSliceStride := a.srcSliceStride.getD a.sliceBytes
  dstStrideBytes := a.dstStrideBytes.getD a.sliceBytes
  eltBytes := dtypeForVec a.vecBytes
  blockElts := max (a.blockBytes / dtypeForVec a.vecBytes) 1
  hasTail := copyBytes % dtypeForVec a.vecBytes ≠ 0
  numPrograms := a.grid copyBytes

/-- `launch_all_gather_pull`. -/
def launchAllGatherPull : Except PyError (List (Op DataAct)) := do
  pyAssert (0 < a.sliceBytes)
  pyAssert (0 < a.groupRanks.length)
  pyAssert (0 < a.numSms)
  pyAssert (a.sliceBytes ≤ a.dstStrideBytes.getD a.sliceBytes)
  pure (a.kernelArgs a.sliceBytes).allGatherPullKernel

/-- `launch_all2all_pull`. -/
def launchAll2AllPull : Except PyError (List (Op DataAct)) := do
  let copyBytes := a.copyBytes.getD a.sliceBytes
  pyAssert (0 < copyBytes)
  pyAssert (copyBytes ≤ a.srcSliceStride.getD a.sliceBytes)
  pyAssert (copyBytes ≤ a.dstStrideBytes.getD a.sliceBytes)
  pyAssert (0 < a.groupRanks.length)
  pyAssert (0 < a.numSms)
  pure (a.kernelArgs copyBytes).all2AllPullKernel

variable {a}

theorem grid_pos {n : ℕ} (hG : 0 < a.groupRanks.length) (hs : 0 < a.numSms) : 0 < a.grid n := by
  have hs' : 0 < a.numSms.toNat := by omega
  unfold grid
  dsimp only
  split
  · exact lt_min hs' (lt_max_of_lt_right hG)
  · exact lt_min hs' (lt_max_of_lt_right Nat.one_pos)

end PullLaunchArgs

/-! ## The single-peer kernel -/

/-- `pull_copy_kernel`, with an exact tile count: the programs share the tiles, and program 0
copies the tail. -/
def pullCopyKernel (src dst : ℕ → Cell) (nbytes eltBytes blockElts : ℕ) (hasTail : Bool)
    (numPrograms : ℕ) : List (Op DataAct) :=
  let nTiles := cdiv (nbytes / eltBytes) blockElts
  (List.range numPrograms).flatMap fun pid =>
    ((stepRange pid nTiles numPrograms).flatMap fun tilePid =>
      (tileOffsets (nbytes / eltBytes) eltBytes blockElts tilePid).map fun b =>
        ⟨pid, tilePid, .copy (src b) (dst b)⟩) ++
    if hasTail ∧ pid = 0 then
      (tailOffsets nbytes eltBytes).map fun b => ⟨pid, nTiles, .copy (src b) (dst b)⟩
    else []

/-- `launch_pull_copy`, which `p2p_put.py` also exports as `launch_p2p_put_copy`. -/
def launchPullCopy (src dst : ℕ → Cell) (nbytes vecBytes : ℕ) (numSms : ℤ) :
    Except PyError (List (Op DataAct)) := do
  pyAssert (0 < nbytes)
  pyAssert (vecBytes = 1 ∨ vecBytes = 4 ∨ vecBytes = 8 ∨ vecBytes = 16)
  pyAssert (0 < numSms)
  let eltBytes := dtypeForVec vecBytes
  let blockElts := max (defaultBlockBytes / eltBytes) 1
  let gridElems := if 0 < nbytes / eltBytes then cdiv (nbytes / eltBytes) blockElts else 1
  pure (pullCopyKernel src dst nbytes eltBytes blockElts (nbytes % eltBytes ≠ 0)
    (min numSms.toNat gridElems))

/-- What its assertions establish, and its kernel. -/
theorem launchPullCopy_ok {src dst : ℕ → Cell} {n vec : ℕ} {sms : ℤ} {ops : List (Op DataAct)}
    (h : launchPullCopy src dst n vec sms = .ok ops) : 0 < n ∧ IsVecWidth vec ∧ 0 < sms ∧
      ops = pullCopyKernel src dst n (dtypeForVec vec) (max (defaultBlockBytes / dtypeForVec vec) 1)
        (n % dtypeForVec vec ≠ 0) (min sms.toNat (if 0 < n / dtypeForVec vec then
          cdiv (n / dtypeForVec vec) (max (defaultBlockBytes / dtypeForVec vec) 1) else 1)) := by
  unfold launchPullCopy at h
  obtain ⟨hn, h⟩ := pyAssert_bind_ok_iff.mp h
  obtain ⟨hvec, h⟩ := pyAssert_bind_ok_iff.mp h
  obtain ⟨hsms, h⟩ := pyAssert_bind_ok_iff.mp h
  have hvec := of_decide_eq_true hvec
  refine ⟨of_decide_eq_true hn, ?_, of_decide_eq_true hsms, (Except.ok.inj h).symm⟩
  rcases hvec with hvec | hvec | hvec | hvec <;> simp [IsVecWidth, hvec]

theorem pullCopyKernel_subset {src dst : ℕ → Cell} {n e be np : ℕ} {tail : Bool} :
    acts (pullCopyKernel src dst n e be tail np) ⊆ copies src dst n := by
  rintro d ⟨o, ho, rfl⟩
  obtain ⟨pid, -, ho⟩ := List.mem_flatMap.mp ho
  rcases List.mem_append.mp ho with ho | ho
  · obtain ⟨tile, -, ho⟩ := List.mem_flatMap.mp ho
    obtain ⟨b, hb, rfl⟩ := List.mem_map.mp ho
    exact ⟨b, mem_tileOffsets_lt hb, rfl⟩
  · split at ho
    case isTrue =>
      obtain ⟨b, hb, rfl⟩ := List.mem_map.mp ho
      exact ⟨b, mem_tailOffsets_lt hb, rfl⟩
    case isFalse => cases ho

/-- **What the single-peer kernel does**: program 0 always runs, so the tail is copied
whatever the grid. -/
theorem acts_pullCopyKernel_tail {src dst : ℕ → Cell} {n e be np : ℕ} {tail : Bool} (he : 0 < e)
    (hbe : 0 < be) (hp : 0 < np) (htail : ¬ e ∣ n → tail = true) :
    acts (pullCopyKernel src dst n e be tail np) = copies src dst n := by
  refine Set.Subset.antisymm pullCopyKernel_subset ?_
  rintro d ⟨b, hb, rfl⟩
  by_cases hfull : b < n / e * e
  · obtain ⟨tile, htile, hmem⟩ := exists_tile he hbe hfull
    obtain ⟨pid, hpid, htask⟩ := (exists_mem_stepRange_iff hp).mpr htile
    exact ⟨⟨pid, tile, .copy (src b) (dst b)⟩, List.mem_flatMap.mpr ⟨pid, List.mem_range.mpr hpid,
      List.mem_append_left _
        (List.mem_flatMap.mpr ⟨tile, htask, List.mem_map.mpr ⟨b, hmem, rfl⟩⟩)⟩, rfl⟩
  · have hdvd : ¬ e ∣ n := fun h => hfull (by rwa [Nat.div_mul_cancel h])
    refine ⟨⟨0, cdiv (n / e) be, .copy (src b) (dst b)⟩, List.mem_flatMap.mpr
      ⟨0, List.mem_range.mpr hp, List.mem_append_right _ ?_⟩, rfl⟩
    rw [if_pos ⟨htail hdvd, rfl⟩]
    exact List.mem_map.mpr ⟨b, (mem_tailOffsets he).mpr ⟨not_lt.mp hfull, hb⟩, rfl⟩

/-! ## The widths the runtime picks -/

/-- `n & -n` on a positive integer is a power of two that divides it. -/
theorem exists_ldiff_pred {n : ℕ} (hn : 0 < n) :
    ∃ k, Nat.ldiff n (n - 1) = 2 ^ k ∧ 2 ^ k ∣ n := by
  obtain ⟨k, m, ⟨q, rfl⟩, rfl⟩ := Nat.exists_eq_two_pow_mul_odd hn.ne'
  have hpow : 0 < 2 ^ k := Nat.two_pow_pos k
  have hpred : 2 ^ k * (2 * q + 1) - 1 = 2 ^ k * (2 * q) + (2 ^ k - 1) := by
    rw [Nat.mul_add]
    omega
  refine ⟨k, Nat.eq_of_testBit_eq fun i => ?_, Nat.dvd_mul_right _ _⟩
  rw [Nat.testBit_ldiff, Nat.testBit_two_pow, hpred, ← Nat.add_zero (2 ^ k * (2 * q + 1)),
    Nat.testBit_two_pow_mul_add _ hpow, Nat.testBit_two_pow_mul_add _ (by omega)]
  rcases Nat.lt_trichotomy i k with hik | rfl | hik
  · simp [hik, hik.ne']
  · simp
  · -- above the lowest set bit both numbers agree
    have hlt : ¬ i < k := by omega
    have hhalf : (2 * q + 1) / 2 = q := by omega
    obtain ⟨j, hj⟩ := Nat.exists_eq_add_of_lt hik
    rw [show i - k = j + 1 by omega, if_neg hlt, if_neg hlt, Nat.testBit_succ, Nat.testBit_succ,
      hhalf, Nat.mul_div_cancel_left q two_pos]
    simp [hik.ne]

/-- `base_alignment` is a power of two that divides the address. -/
theorem exists_baseAlignment (addr : ℤ) : ∃ k : ℕ, baseAlignment addr = 2 ^ k ∧ 2 ^ k ∣ addr := by
  unfold baseAlignment
  split
  case isTrue h =>
    rw [h]
    exact ⟨62, rfl, dvd_zero _⟩
  case isFalse h =>
    obtain ⟨n, hn | hn⟩ := Int.eq_nat_or_neg addr
    · obtain ⟨m, rfl⟩ := Nat.exists_eq_succ_of_ne_zero (show n ≠ 0 by omega)
      obtain ⟨k, hk, hdvd⟩ := exists_ldiff_pred (Nat.succ_pos m)
      refine ⟨k, ?_, ?_⟩
      · rw [hn]
        show ((Nat.ldiff m.succ m : ℕ) : ℤ) = 2 ^ k
        exact_mod_cast hk
      · rw [hn]
        exact_mod_cast hdvd
    · obtain ⟨m, rfl⟩ := Nat.exists_eq_succ_of_ne_zero (show n ≠ 0 by omega)
      obtain ⟨k, hk, hdvd⟩ := exists_ldiff_pred (Nat.succ_pos m)
      refine ⟨k, ?_, ?_⟩
      · rw [hn, neg_neg]
        show ((Nat.ldiff m.succ m : ℕ) : ℤ) = 2 ^ k
        exact_mod_cast hk
      · rw [hn, dvd_neg]
        exact_mod_cast hdvd

/-- A width of at most a power of two divides it. -/
theorem vecWidthLoop_nil_dvd (k : ℕ) : ((vecWidthLoop (2 ^ k) [] : ℕ) : ℤ) ∣ 2 ^ k := by
  rcases Nat.lt_or_ge k 4 with hk | hk
  · interval_cases k <;> decide
  · obtain ⟨j, rfl⟩ := Nat.exists_eq_add_of_le hk
    have hge : (16 : ℤ) ≤ 2 ^ (4 + j) := by
      rw [pow_add]
      have : (1 : ℤ) ≤ 2 ^ j := one_le_pow₀ (by norm_num)
      omega
    rw [vecWidthLoop, if_pos hge, pow_add]
    exact Dvd.intro _ rfl

/-- From a power of two on, the width divides every number it is chosen for. -/
theorem vecWidthLoop_dvd (k : ℕ) (as : List ℤ) :
    ((vecWidthLoop (2 ^ k) as : ℕ) : ℤ) ∣ 2 ^ k ∧
      ∀ x ∈ as, ((vecWidthLoop (2 ^ k) as : ℕ) : ℤ) ∣ x := by
  induction as generalizing k with
  | nil => exact ⟨vecWidthLoop_nil_dvd k, by simp⟩
  | cons a as ih =>
    rw [vecWidthLoop]
    split
    case isTrue => simp
    case isFalse ha =>
      have hne : (2 : ℤ) ^ k ≠ 0 := by positivity
      rw [if_neg hne]
      -- the gcd with a power of two is a power of two
      obtain ⟨j, -, hj⟩ : ∃ j ≤ k, Int.gcd (2 ^ k) a = 2 ^ j := by
        refine (Nat.dvd_prime_pow Nat.prime_two).mp ?_
        have h := Int.gcd_dvd_left (2 ^ k) a
        exact_mod_cast h
      have hj' : ((Int.gcd (2 ^ k) a : ℕ) : ℤ) = 2 ^ j := by exact_mod_cast hj
      obtain ⟨h1, h2⟩ := ih j
      rw [hj']
      rw [← hj'] at h1
      refine ⟨?_, fun x hx => ?_⟩
      · rw [hj'] at h1
        exact h1.trans (hj' ▸ Int.gcd_dvd_left _ _)
      · rcases List.mem_cons.mp hx with rfl | hx
        · rw [hj'] at h1
          exact h1.trans (hj' ▸ Int.gcd_dvd_right _ _)
        · exact h2 x hx

/-- **A width divides everything it is chosen for**, if the first is a power of two. -/
theorem vecWidthBytes_dvd (k : ℕ) (as : List ℤ) {x : ℤ} (hx : x ∈ 2 ^ k :: as) :
    ((vecWidthBytes (2 ^ k :: as) : ℕ) : ℤ) ∣ x := by
  have hpos : ¬ (2 : ℤ) ^ k ≤ 0 := not_le.mpr (by positivity)
  rw [vecWidthBytes, vecWidthLoop, if_neg hpos, if_pos rfl]
  obtain ⟨hk, has⟩ := vecWidthLoop_dvd k as
  rcases List.mem_cons.mp hx with rfl | hx
  · exact hk
  · exact has x hx

/-- The width the runtime picks divides every address and the byte count. -/
theorem vecFor_dvd_all (ptr : ℤ) (ptrs : List ℤ) (n : ℤ) {x : ℤ}
    (hx : x ∈ ptr :: ptrs ++ [n]) : ((vecFor (ptr :: ptrs) n : ℕ) : ℤ) ∣ x := by
  obtain ⟨k, hk, hdvd⟩ := exists_baseAlignment ptr
  have hvec : vecFor (ptr :: ptrs) n =
      vecWidthBytes (2 ^ k :: (ptrs.map baseAlignment ++ [n])) := by
    rw [vecFor, List.map_cons, List.cons_append, hk]
  rw [hvec]
  have hall := fun y => vecWidthBytes_dvd k (ptrs.map baseAlignment ++ [n]) (x := y)
  rcases List.mem_append.mp hx with hx | hx
  · rcases List.mem_cons.mp hx with rfl | hx
    · exact (hall _ List.mem_cons_self).trans hdvd
    · obtain ⟨j, hj, hdvd'⟩ := exists_baseAlignment x
      refine (hall (baseAlignment x) ?_).trans (hj ▸ hdvd')
      exact List.mem_cons_of_mem _ (List.mem_append_left _ (List.mem_map.mpr ⟨x, hx, rfl⟩))
  · rw [List.mem_singleton.mp hx]
    exact hall n (List.mem_cons_of_mem _ (List.mem_append_right _ (List.mem_singleton_self n)))

/-- **The width the runtime picks divides the byte count**, so its launches have no
tail. -/
theorem vecFor_dvd (ptr : ℤ) (ptrs : List ℤ) (n : ℕ) :
    dtypeForVec (vecFor (ptr :: ptrs) n) ∣ n := by
  rw [(isVecWidth_vecFor _ _).dtypeForVec]
  have h := vecFor_dvd_all ptr ptrs n (List.mem_append_right _ (List.mem_singleton_self (n : ℤ)))
  exact_mod_cast h

end GroupFreeCollectives
