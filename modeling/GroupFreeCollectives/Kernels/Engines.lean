import GroupFreeCollectives.Kernels.Pull

/-!
# The TMA kernels and the copy engine

`gfc/kernels/tma_paths.py` and `gfc/kernels/copy_engine.py`.  A TMA program moves whole
tiles through descriptors, which clip loads and stores at the declared size.  The copy
engine is a host loop that enqueues one `cudaMemcpyAsync` for each peer.  Both pull what
the vector kernels pull (`acts_tmaKernel`, `acts_copyEngine`).
-/

namespace GroupFreeCollectives

open Tiling

/-! ## TMA -/

/-- `_TMA_ALIGN`. -/
def tmaAlign : ℕ := 16

/-- `_DEFAULT_TILE_BYTES`. -/
def defaultTileBytes : ℕ := 64 * 1024

/-- Raise `TMARequirementError` unless the condition holds. -/
def tmaRequire {m : Type → Type} [Monad m] [MonadExceptOf PyError m] (cond : Bool)
    (msg : String) : m Unit :=
  if cond then pure () else throw (.tmaRequirementError msg)

theorem tmaRequire_bind_ok_iff {β : Type} {cond : Bool} {msg : String}
    {f : Unit → Except PyError β} {b : β} :
    ((tmaRequire cond msg : Except PyError Unit) >>= f) = .ok b ↔ cond = true ∧ f () = .ok b := by
  cases cond <;> simp [tmaRequire, bind, Except.bind, throw, throwThe, MonadExceptOf.throw, pure,
    Except.pure]

/-- `check_collective_tma_gates`. -/
def checkCollectiveTmaGates (sliceBytes commBufOffset dstPtr tileBytes : ℕ) :
    Except PyError Unit := do
  tmaRequire (0 < sliceBytes) "slice_bytes must be positive"
  tmaRequire (sliceBytes % tmaAlign = 0) s!"slice_bytes={sliceBytes} not a multiple of {tmaAlign}"
  tmaRequire (commBufOffset % tmaAlign = 0 ∧ dstPtr % tmaAlign = 0)
    s!"TMA needs 16B-aligned bases (comm_buf_off={commBufOffset}, dst={pyHex dstPtr})"
  tmaRequire (tileBytes % tmaAlign = 0)
    s!"tile_bytes={tileBytes} must be a multiple of {tmaAlign}"

/-- The byte offsets of a tile of a descriptor of `n` bytes. -/
def tmaTile (n blockN tileCol : ℕ) : List ℕ :=
  (List.range blockN).filterMap fun i =>
    if tileCol * blockN + i < n then some (tileCol * blockN + i) else none

theorem mem_tmaTile {n blockN col b : ℕ} :
    b ∈ tmaTile n blockN col ↔ ∃ i < blockN, b = col * blockN + i ∧ b < n := by
  simp only [tmaTile, List.mem_filterMap, List.mem_range]
  constructor
  · rintro ⟨i, hi, hb⟩
    split at hb
    case isTrue hlt =>
      obtain rfl := Option.some_inj.mp hb
      exact ⟨i, hi, rfl, hlt⟩
    case isFalse => cases hb
  · rintro ⟨i, hi, rfl, hlt⟩
    exact ⟨i, hi, if_pos hlt⟩

theorem exists_tmaTile {n blockN b : ℕ} (hN : 0 < blockN) (hb : b < n) :
    ∃ col < cdiv n blockN, b ∈ tmaTile n blockN col := by
  have hdm := Nat.div_add_mod b blockN
  have hmod : b % blockN < blockN := Nat.mod_lt _ hN
  have hcomm : blockN * (b / blockN) = b / blockN * blockN := Nat.mul_comm _ _
  refine ⟨b / blockN, (lt_cdiv_iff hN).mpr (by omega), mem_tmaTile.mpr ⟨_, hmod, by omega, hb⟩⟩

/-- The arguments of a group TMA launch, with the call and the rank it runs for and the
ranks its row pointer points to. -/
structure TmaLaunchArgs where
  call : ℕ
  selfGlobalRank : ℕ
  groupRanks : List ℕ
  dstPtr : ℕ
  commBufOffset : ℕ
  selfLocalIndex : ℕ
  sliceBytes : ℕ
  numSms : ℕ
  tileBytes : ℕ := defaultTileBytes

namespace TmaLaunchArgs

variable (a : TmaLaunchArgs)

/-- `inner_tiles` of a peer. -/
def innerTiles : ℕ := cdiv a.sliceBytes a.tileBytes

/-- What the two persistent group kernels share, with the offset of the slice to pull. -/
def tmaKernel (srcOff : ℕ) : List (Op DataAct) :=
  (List.range (min a.numSms (a.groupRanks.length * a.innerTiles))).flatMap fun pid =>
    (groupTasks a.groupRanks.length a.innerTiles a.selfLocalIndex a.numSms pid).flatMap
      fun (task, tileCol, peerIdx) =>
        (tmaTile a.sliceBytes a.tileBytes tileCol).map fun b => ⟨pid, task,
          .copy (.comm (a.groupRanks.getD peerIdx 0) (a.commBufOffset + srcOff + b))
            (.output a.selfGlobalRank a.call (peerIdx * a.sliceBytes + b))⟩

/-- The checks of both group launchers. -/
def check : Except PyError Unit :=
  checkCollectiveTmaGates a.sliceBytes a.commBufOffset a.dstPtr a.tileBytes

/-- `launch_all_gather_tma`. -/
def launchAllGatherTma : Except PyError (List (Op DataAct)) := do
  a.check
  pure (a.tmaKernel 0)

/-- `launch_all2all_tma`. -/
def launchAll2AllTma : Except PyError (List (Op DataAct)) := do
  a.check
  pure (a.tmaKernel (a.selfLocalIndex * a.sliceBytes))

/-- What a group TMA kernel is for. -/
def pulls (srcOff : ℕ) : Set DataAct :=
  groupCopies a.groupRanks (fun _ peer b => .comm peer (a.commBufOffset + srcOff + b))
    (fun i _ b => .output a.selfGlobalRank a.call (i * a.sliceBytes + b)) a.sliceBytes

variable {a} {srcOff : ℕ}

/-- **What a group TMA kernel does.** -/
theorem acts_tmaKernel (hs : 0 < a.numSms) (ht : 0 < a.tileBytes) :
    acts (a.tmaKernel srcOff) = a.pulls srcOff := by
  ext d
  constructor
  · rintro ⟨o, ho, rfl⟩
    obtain ⟨pid, -, ho⟩ := List.mem_flatMap.mp ho
    obtain ⟨x, hx, ho⟩ := List.mem_flatMap.mp ho
    obtain ⟨b, hb, rfl⟩ := List.mem_map.mp ho
    obtain ⟨-, -, -, hlt⟩ := mem_tmaTile.mp hb
    have hl := lane_lt_of_mem_groupTasks hs hx
    refine ⟨x.2.2, _, List.getElem?_eq_getElem hl, b, hlt, ?_⟩
    rw [← List.getD_eq_getElem a.groupRanks 0 hl]
  · rintro ⟨i, peer, hget, b, hb, rfl⟩
    obtain ⟨hi, rfl⟩ := List.getElem?_eq_some_iff.mp hget
    obtain ⟨col, hcol, hmem⟩ := exists_tmaTile ht hb
    obtain ⟨pid, hpid, hpid', task, htask⟩ :=
      exists_groupTask a.selfLocalIndex hs hi hcol
    refine ⟨_, List.mem_flatMap.mpr ⟨pid, List.mem_range.mpr (lt_min hpid hpid'),
      List.mem_flatMap.mpr ⟨_, htask, List.mem_map.mpr ⟨b, hmem, rfl⟩⟩⟩, ?_⟩
    rw [List.getD_eq_getElem _ _ hi]

end TmaLaunchArgs

/-- `_p2p_tma_persistent_kernel` over a grid. -/
def p2pTmaKernel (src dst : ℕ → Cell) (nbytes tileBytes numSms : ℕ) : List (Op DataAct) :=
  (List.range (min numSms (cdiv nbytes tileBytes))).flatMap fun pid =>
    (stepRange pid (cdiv nbytes tileBytes) numSms).flatMap fun tile =>
      (tmaTile nbytes tileBytes tile).map fun b => ⟨pid, tile, .copy (src b) (dst b)⟩

/-- `launch_p2p_copy_tma`; the addresses are only checked. -/
def launchP2pCopyTma (src dst : ℕ → Cell) (srcPtr dstPtr nbytes numSms tileBytes : ℕ) :
    Except PyError (List (Op DataAct)) := do
  tmaRequire (0 < nbytes) "nbytes must be positive"
  tmaRequire (nbytes % tmaAlign = 0) s!"nbytes={nbytes} not a multiple of {tmaAlign}"
  tmaRequire (srcPtr % tmaAlign = 0 ∧ dstPtr % tmaAlign = 0)
    s!"TMA needs 16B-aligned src/dst ({pyHex srcPtr}, {pyHex dstPtr})"
  tmaRequire (tileBytes % tmaAlign = 0)
    s!"tile_bytes={tileBytes} must be a multiple of {tmaAlign}"
  pure (p2pTmaKernel src dst nbytes tileBytes numSms)

theorem launchP2pCopyTma_ok {src dst : ℕ → Cell} {srcPtr dstPtr n numSms tileBytes : ℕ}
    {ops : List (Op DataAct)}
    (h : launchP2pCopyTma src dst srcPtr dstPtr n numSms tileBytes = .ok ops) :
    0 < n ∧ ops = p2pTmaKernel src dst n tileBytes numSms := by
  obtain ⟨hn, h⟩ := tmaRequire_bind_ok_iff.mp h
  obtain ⟨-, h⟩ := tmaRequire_bind_ok_iff.mp h
  obtain ⟨-, h⟩ := tmaRequire_bind_ok_iff.mp h
  obtain ⟨-, h⟩ := tmaRequire_bind_ok_iff.mp h
  exact ⟨of_decide_eq_true hn, (Except.ok.inj h).symm⟩

theorem acts_p2pTmaKernel {src dst : ℕ → Cell} {n tb ns : ℕ} (hs : 0 < ns) (ht : 0 < tb) :
    acts (p2pTmaKernel src dst n tb ns) = copies src dst n := by
  ext d
  constructor
  · rintro ⟨o, ho, rfl⟩
    obtain ⟨pid, -, ho⟩ := List.mem_flatMap.mp ho
    obtain ⟨tile, -, ho⟩ := List.mem_flatMap.mp ho
    obtain ⟨b, hb, rfl⟩ := List.mem_map.mp ho
    obtain ⟨-, -, -, hlt⟩ := mem_tmaTile.mp hb
    exact ⟨b, hlt, rfl⟩
  · rintro ⟨b, hb, rfl⟩
    obtain ⟨tile, htile, hmem⟩ := exists_tmaTile ht hb
    obtain ⟨pid, hpid, htask⟩ := (exists_mem_stepRange_iff hs).mpr htile
    obtain ⟨i, hi, -⟩ := (mem_stepRange hs).mp htask
    exact ⟨_, List.mem_flatMap.mpr ⟨pid, List.mem_range.mpr (lt_min hpid (by omega)),
      List.mem_flatMap.mpr ⟨tile, htask, List.mem_map.mpr ⟨b, hmem, rfl⟩⟩⟩, rfl⟩

/-! ## The copy engine -/

/-- `cuda_memcpy_async`: what it enqueues. -/
def cudaMemcpyAsync (src dst : ℕ → Cell) (nbytes : ℕ) : List (List (Op DataAct)) :=
  if nbytes = 0 then [] else [copyOps src dst nbytes]

/-- `_swizzled_indices`. -/
def swizzledIndices (groupSize selfLocalIndex : ℕ) : List ℕ :=
  (List.range groupSize).map fun delta => (delta + selfLocalIndex + 1) % groupSize

theorem mem_swizzledIndices {n li i : ℕ} : i ∈ swizzledIndices n li ↔ i < n := by
  simp only [swizzledIndices, List.mem_map, List.mem_range]
  constructor
  · rintro ⟨d, hd, rfl⟩
    exact Nat.mod_lt _ (by omega)
  · intro hi
    exact exists_swizzle hi li

/-- What the two copy-engine loops share, with the offset of the slice to pull: the
copies, each enqueued by itself. -/
def copyEngine (call selfGlobalRank : ℕ) (groupRanks : List ℕ)
    (commBufOffset srcOff selfLocalIndex sliceBytes : ℕ) : List (List (Op DataAct)) :=
  (swizzledIndices groupRanks.length selfLocalIndex).flatMap fun peerIdx =>
    cudaMemcpyAsync
      (fun b => .comm (groupRanks.getD peerIdx 0) (commBufOffset + srcOff + b))
      (fun b => .output selfGlobalRank call (peerIdx * sliceBytes + b)) sliceBytes

/-- `launch_all_gather_copy_engine`. -/
def launchAllGatherCopyEngine (call selfGlobalRank : ℕ) (groupRanks : List ℕ)
    (commBufOffset selfLocalIndex sliceBytes : ℕ) : List (List (Op DataAct)) :=
  copyEngine call selfGlobalRank groupRanks commBufOffset 0 selfLocalIndex sliceBytes

/-- `launch_all2all_copy_engine`. -/
def launchAll2AllCopyEngine (call selfGlobalRank : ℕ) (groupRanks : List ℕ)
    (commBufOffset selfLocalIndex sliceBytes : ℕ) : List (List (Op DataAct)) :=
  copyEngine call selfGlobalRank groupRanks commBufOffset (selfLocalIndex * sliceBytes)
    selfLocalIndex sliceBytes

/-- `launch_p2p_copy_engine`. -/
def launchP2pCopyEngine (src dst : ℕ → Cell) (nbytes : ℕ) : List (List (Op DataAct)) :=
  cudaMemcpyAsync src dst nbytes

theorem acts_cudaMemcpyAsync (src dst : ℕ → Cell) (n : ℕ) :
    acts (cudaMemcpyAsync src dst n).flatten = copies src dst n := by
  unfold cudaMemcpyAsync
  split
  case isTrue h0 =>
    subst h0
    ext d
    simp [copies]
  case isFalse =>
    rw [List.flatten_singleton, acts_copyOps]

/-- **What the copy engine does.** -/
theorem acts_copyEngine {call r : ℕ} {ranks : List ℕ} {off srcOff li n : ℕ} :
    acts (copyEngine call r ranks off srcOff li n).flatten =
      groupCopies ranks (fun _ peer b => .comm peer (off + srcOff + b))
        (fun i _ b => .output r call (i * n + b)) n := by
  have hone : ∀ i d, d ∈ acts (cudaMemcpyAsync
      (fun b => .comm (ranks.getD i 0) (off + srcOff + b))
      (fun b => .output r call (i * n + b)) n).flatten ↔
      ∃ b < n, d = .copy (.comm (ranks.getD i 0) (off + srcOff + b))
        (.output r call (i * n + b)) := by
    intro i d
    rw [acts_cudaMemcpyAsync]
    rfl
  ext d
  rw [mem_acts_flatten]
  constructor
  · rintro ⟨ops, hops, hd⟩
    obtain ⟨i, hi, hops⟩ := List.mem_flatMap.mp hops
    obtain ⟨b, hb, rfl⟩ := (hone i d).mp (mem_acts_flatten.mpr ⟨ops, hops, hd⟩)
    have hi' := mem_swizzledIndices.mp hi
    exact ⟨i, _, List.getElem?_eq_getElem hi', b, hb, by rw [List.getD_eq_getElem _ _ hi']⟩
  · rintro ⟨i, peer, hget, b, hb, rfl⟩
    obtain ⟨hi, rfl⟩ := List.getElem?_eq_some_iff.mp hget
    obtain ⟨ops, hops, hd⟩ := mem_acts_flatten.mp ((hone i _).mpr ⟨b, hb, rfl⟩)
    rw [List.getD_eq_getElem _ _ hi] at hd
    exact ⟨ops, List.mem_flatMap.mpr ⟨i, mem_swizzledIndices.mpr hi, hops⟩, hd⟩

end GroupFreeCollectives
