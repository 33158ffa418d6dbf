import GroupFreeCollectives.Kernels.Accesses
import GroupFreeCollectives.Runtime.Paths

/-!
# Alignment

A launch of a vector kernel has a width, chosen once from a few numbers, and makes its
accesses at addresses that depend on peers, chunks, channels and tiles.  `vecLaunches` are
the launches that a call makes; they are what it enqueues to copy out of communication buffers,
apart from copies of the copy engine, of TMA and of `copy_` (`Carries`), and every one of
their accesses is aligned (`vector_accesses_are_aligned`).
-/

namespace GroupFreeCollectives

open Tiling

/-- A launch of a vector kernel. -/
structure VecLaunch where
  /-- the chosen vector width -/
  vec : ℕ
  /-- it is a launch of a fused kernel, which copies byte tails -/
  fused : Bool
  /-- the bytes that it copies for each peer -/
  copyBytes : ℕ
  accesses : List Access
  ops : List (Op DataAct)

namespace VecLaunch

/-- The launch makes aligned accesses of its width, and of single bytes if it is fused. -/
structure IsAligned (l : VecLaunch) (addr : Cell → ℕ) : Prop where
  width : l.vec = 1 ∨ l.vec = 4 ∨ l.vec = 8 ∨ l.vec = 16
  aligned : ∀ x ∈ l.accesses, (x.width = l.vec ∨ x.width = 1) ∧ x.Aligned addr
  no_tail : l.fused = false → l.vec ∣ l.copyBytes ∧ ∀ x ∈ l.accesses, x.width = l.vec
  /-- the accesses are what the kernel copies -/
  copies : ∀ src dst, .copy src dst ∈ acts l.ops ↔ ∃ x ∈ l.accesses, .copy src dst ∈ x.bytes

/-- The launch of a group pull of some bytes from each peer. -/
def pull (p : PullLaunchArgs) (copyBytes srcOff : ℕ) : VecLaunch where
  vec := p.vecBytes
  fused := false
  copyBytes := copyBytes
  accesses := (p.kernelArgs copyBytes).accesses srcOff
  ops := (p.kernelArgs copyBytes).pullKernel srcOff

/-- A launch of a fused kernel. -/
def fusedKernel (f : FusedLaunchArgs) (kind : Collective) : VecLaunch where
  vec := f.kernelArgs.vecBytes
  fused := true
  copyBytes := f.kernelArgs.sliceBytes
  accesses := f.kernelArgs.accesses kind
  ops := f.kernelArgs.kernel kind

/-- What `launchPullCopy` launches. -/
def pullCopy (src dst : ℕ → Cell) (n vec : ℕ) (numSms : ℤ) : VecLaunch :=
  let eltBytes := dtypeForVec vec
  let blockElts := max (defaultBlockBytes / eltBytes) 1
  let gridElems := if 0 < n / eltBytes then cdiv (n / eltBytes) blockElts else 1
  { vec := vec
    fused := false
    copyBytes := n
    accesses := pullCopyAccesses src dst n eltBytes blockElts (n % eltBytes ≠ 0)
      (min numSms.toNat gridElems)
    ops := pullCopyKernel src dst n eltBytes blockElts (n % eltBytes ≠ 0)
      (min numSms.toNat gridElems) }

end VecLaunch

theorem IsVecWidth.cases {w : ℕ} (h : IsVecWidth w) : w = 1 ∨ w = 4 ∨ w = 8 ∨ w = 16 := by
  rcases h with rfl | rfl | rfl | rfl <;> simp

theorem IsVecWidth.dvd {w n : ℕ} (h : IsVecWidth w) (hn : 16 ∣ n) : w ∣ n := by
  refine dvd_trans ?_ hn
  rcases h with rfl | rfl | rfl | rfl <;> decide

/-! ## The launches of a call -/

namespace Runtime

variable (rt : Runtime)

/-- The vector launches of a data path, from an epoch on. -/
def pathLaunches (a : CollectiveArgs) (epoch : ℕ) : DataPath → List VecLaunch
  | .oneShot (.vec copySms) =>
    [.pull (rt.oneShotPullArgs a copySms) a.sliceBytes
      (a.kind.srcOffset a.selfLocalIndex a.sliceBytes)]
  | .oneShot _ => []
  | .fused numChannels chunkBytes =>
    [.fusedKernel (rt.fusedArgs a numChannels chunkBytes (rt.token a.group.groupId (epoch + 1)))
      a.kind]
  | .pipelined chunks =>
    (layoutChunks a.sliceBytes chunks rt.config.alignment).map fun chunk =>
      .pull (rt.chunkPullArgs a chunk.1 chunk.2) chunk.2
        (a.kind.srcOffset a.selfLocalIndex a.sliceBytes)

/-- The vector launches of a p2p call. -/
def p2pLaunches (call : ℕ) (a : P2pArgs) (n : ℕ) : List VecLaunch :=
  match a.protocol, a.role with
  | .put, .sender =>
    let dst := a.dstRank.toNat
    if rt.copyEngineEnabled ∨ (rt.tmaEnabled ∧ n % 16 = 0) then []
    else [.pullCopy (fun b => .comm rt.rank b) (fun b => .comm dst b) n
      (vecFor [(rt.localPtr : ℤ), (rt.bufferPtrs dst : ℤ)] n) rt.copySms]
  | .get, .receiver =>
    let src := a.srcRank.toNat
    let dstPtr := a.localTensor.dataPtr
    if rt.copyEngineEnabled ∨ (rt.tmaEnabled ∧ n % 16 = 0 ∧ dstPtr % 16 = 0) then []
    else [.pullCopy (fun b => .comm src b) (fun b => .output rt.rank call b) n
      (vecFor [(rt.bufferPtrs src : ℤ), (dstPtr : ℤ)] n) rt.copySms]
  | _, _ => []

/-- The kernels of a data path that copy out of communication buffers and are no vector
launches: those of the copy engine and of TMA. -/
def pathCopies (a : CollectiveArgs) : DataPath → List (List (Op DataAct))
  | .oneShot .copyEngine => rt.oneShotKernels a .copyEngine
  | .oneShot .tma => rt.oneShotKernels a .tma
  | .oneShot (.vec _) => []
  | .fused _ _ => []
  | .pipelined _ => []

/-- The copies of a p2p call that are no vector launches: those of the copy engine and of
TMA, and the `copy_` of the receiver of a `put`. -/
def p2pOtherCopies (call : ℕ) (a : P2pArgs) (n : ℕ) : List (List (Op DataAct)) :=
  match a.protocol, a.role with
  | .put, .sender =>
    let srcCell := fun b => Cell.comm rt.rank b
    let dstCell := fun b => Cell.comm a.dstRank.toNat b
    if rt.copyEngineEnabled then launchP2pCopyEngine srcCell dstCell n
    else if rt.tmaEnabled ∧ n % 16 = 0 then
      [p2pTmaKernel srcCell dstCell n defaultTileBytes rt.numSms]
    else []
  | .get, .receiver =>
    let dstPtr := a.localTensor.dataPtr
    let srcCell := fun b => Cell.comm a.srcRank.toNat b
    let dstCell := fun b => Cell.output rt.rank call b
    if rt.copyEngineEnabled then launchP2pCopyEngine srcCell dstCell n
    else if rt.tmaEnabled ∧ n % 16 = 0 ∧ dstPtr % 16 = 0 then
      [p2pTmaKernel srcCell dstCell n defaultTileBytes rt.numSms]
    else []
  | .put, .receiver => [rt.p2pCopyOut call n]
  | .get, .sender => []

variable {rt}

/-- The vector launches of a call. -/
def Session.vecLaunches (x : Session rt) : Call → List VecLaunch
  | .collective call _ group (.data c) =>
    match c.entry rt group, x.state.registry.ranksDev group.handle with
    | .ok n, some row =>
      match rt.plan (rt.policyFor c.kind group n) (rt.effectivePipelineChunks n c.pipelineChunks) n
          c.output.dataPtr with
      | .ok path => rt.pathLaunches ⟨call, c.kind, c.input, c.output, group, row, n⟩
          (x.state.epochs.peek group.groupId) path
      | .error _ => []
    | _, _ => []
  | .p2p call _ c _ =>
    match rt.p2pEntry (c.args rt.rank) with
    | .ok n => rt.p2pLaunches call (c.args rt.rank) n
    | .error _ => []
  | _ => []

/-- The kernels of a call that copy out of communication buffers and are no vector
launches. -/
def Session.otherCopies (x : Session rt) : Call → List (List (Op DataAct))
  | .collective call _ group (.data c) =>
    match c.entry rt group, x.state.registry.ranksDev group.handle with
    | .ok n, some row =>
      match rt.plan (rt.policyFor c.kind group n) (rt.effectivePipelineChunks n c.pipelineChunks) n
          c.output.dataPtr with
      | .ok path => rt.pathCopies ⟨call, c.kind, c.input, c.output, group, row, n⟩ path
      | .error _ => []
    | _, _ => []
  | .p2p call _ c _ =>
    match rt.p2pEntry (c.args rt.rank) with
    | .ok n => rt.p2pOtherCopies call (c.args rt.rank) n
    | .error _ => []
  | _ => []

variable (rt) in
/-- The device addresses of the cells of a call. -/
def Call.addr : Call → Cell → ℕ
  | .collective _ _ _ (.data c) => Cell.addr rt.bufferPtrs c.input.dataPtr c.output.dataPtr
  | .p2p _ _ c _ =>
    let ptr := (c.args rt.rank).localTensor.dataPtr
    Cell.addr rt.bufferPtrs ptr ptr
  | _ => Cell.addr rt.bufferPtrs 0 0

/-! ## Their accesses -/

theorem mem_acts_iff_of_map_act_eq {ops : List (Op DataAct)} {l : List Access} {d : DataAct}
    (h : ops.map Op.act = l.flatMap Access.bytes) : d ∈ acts ops ↔ ∃ x ∈ l, d ∈ x.bytes := by
  rw [← mem_map_act_iff, h, List.mem_flatMap]

/-- A group pull is aligned if its width divides where the segments of the peers start, on
both sides, and what is copied. -/
theorem isAligned_pull {p : PullLaunchArgs} {copyBytes srcOff inputPtr outputPtr : ℕ}
    (hw : IsVecWidth p.vecBytes) (hcopy : p.vecBytes ∣ copyBytes)
    (hsrc : ∀ r, p.vecBytes ∣ rt.bufferPtrs r + (p.commBufOffset + srcOff))
    (hdst : p.vecBytes ∣ outputPtr + p.dstOffset)
    (hstride : p.vecBytes ∣ p.dstStrideBytes.getD p.sliceBytes) :
    (VecLaunch.pull p copyBytes srcOff).IsAligned (Cell.addr rt.bufferPtrs inputPtr outputPtr) := by
  have helt : (p.kernelArgs copyBytes).eltBytes = p.vecBytes := hw.dtypeForVec
  have htail : (p.kernelArgs copyBytes).hasTail = false := by
    refine decide_eq_false (not_not.mpr (Nat.mod_eq_zero_of_dvd ?_))
    rwa [hw.dtypeForVec]
  have hwidth : ∀ x ∈ (p.kernelArgs copyBytes).accesses srcOff, x.width = p.vecBytes := by
    intro x hx
    rcases PullKernelArgs.width_of_mem_accesses hx with h | ⟨h, -⟩
    · rw [h, helt]
    · rw [htail] at h
      cases h
  refine ⟨hw.cases, fun x hx => ⟨Or.inl (hwidth x hx), ?_⟩, fun _ => ⟨hcopy, hwidth⟩,
    fun src dst => mem_acts_iff_of_map_act_eq PullKernelArgs.map_act_pullKernel_eq⟩
  refine PullKernelArgs.aligned_pull hx fun i b hb => ?_
  rw [helt] at hb ⊢
  constructor
  · show p.vecBytes ∣ rt.bufferPtrs _ + (p.commBufOffset + srcOff + b)
    rw [← Nat.add_assoc]
    exact dvd_add (hsrc _) hb
  · show p.vecBytes ∣ outputPtr + (p.dstOffset + i * p.dstStrideBytes.getD p.sliceBytes + b)
    rw [← Nat.add_assoc, ← Nat.add_assoc]
    exact dvd_add (dvd_add hdst (hstride.mul_left i)) hb

section Collective

variable {a : CollectiveArgs} {copySms : ℤ}

theorem dvd_srcOffset {w : ℕ} (kind : Collective) (li : ℕ) {n : ℕ} (h : w ∣ n) :
    w ∣ kind.srcOffset li n := by
  cases kind with
  | allGather => exact dvd_zero w
  | all2All => exact h.mul_left li

/-- What the width of a one-shot pull divides. -/
theorem oneShotVec_dvd_all :
    rt.oneShotVec a ∣ a.output.dataPtr ∧ rt.oneShotVec a ∣ a.sliceBytes := by
  have h := fun x => vecFor_dvd_all rt.localPtr [(a.output.dataPtr : ℤ)] a.sliceBytes (x := x)
  constructor
  · exact_mod_cast h a.output.dataPtr (by simp)
  · exact_mod_cast h a.sliceBytes (by simp)

theorem isAligned_oneShot (hbase : rt.AlignedBases) :
    (VecLaunch.pull (rt.oneShotPullArgs a copySms) a.sliceBytes
      (a.kind.srcOffset a.selfLocalIndex a.sliceBytes)).IsAligned
        (Cell.addr rt.bufferPtrs a.input.dataPtr a.output.dataPtr) := by
  have hw : IsVecWidth (rt.oneShotVec a) := isVecWidth_vecFor ..
  obtain ⟨hout, hslice⟩ : rt.oneShotVec a ∣ _ ∧ rt.oneShotVec a ∣ _ := oneShotVec_dvd_all
  refine isAligned_pull hw hslice (fun r => dvd_add (hw.dvd (hbase r)) ?_) hout hslice
  rw [show (rt.oneShotPullArgs a copySms).commBufOffset = 0 from rfl, Nat.zero_add]
  exact dvd_srcOffset _ _ hslice

/-- What the width of the pull of a chunk divides: the segment that it is chosen for starts
at an aligned address, so it divides also the offset of the chunk. -/
theorem vecFor_chunk_dvd {p o off n size : ℕ} (hp : ∀ w, IsVecWidth w → w ∣ n → w ∣ p) {w : ℕ}
    (hw : vecFor [((p + off : ℕ) : ℤ), ((o + off : ℕ) : ℤ), (n : ℤ)] size = w) :
    w ∣ off ∧ w ∣ o + off ∧ w ∣ n ∧ w ∣ size := by
  have h := fun x => vecFor_dvd_all ((p + off : ℕ) : ℤ) [((o + off : ℕ) : ℤ), (n : ℤ)] size (x := x)
  rw [hw] at h
  have hwidth : IsVecWidth w := hw ▸ isVecWidth_vecFor ..
  have hn : w ∣ n := by exact_mod_cast h n (by simp)
  have hoff : w ∣ p + off := by exact_mod_cast h (p + off : ℕ) (by simp)
  refine ⟨(Nat.dvd_add_right (hp w hwidth hn)).mp hoff, ?_, hn, ?_⟩
  · exact_mod_cast h (o + off : ℕ) (by simp)
  · exact_mod_cast h size (by simp)

theorem chunkVec_dvd_all (hbase : rt.AlignedBases) (off size : ℕ) :
    rt.chunkVec a off size ∣ off ∧ rt.chunkVec a off size ∣ a.output.dataPtr + off ∧
      rt.chunkVec a off size ∣ a.sliceBytes ∧ rt.chunkVec a off size ∣ size := by
  rcases a with ⟨call, kind, input, output, group, row, n⟩
  unfold chunkVec
  cases kind with
  | allGather => exact vecFor_chunk_dvd (fun w hw _ => hw.dvd (hbase _)) rfl
  | all2All =>
    exact vecFor_chunk_dvd (fun w hw hn => dvd_add (hw.dvd (hbase _)) (hn.mul_left _)) rfl

theorem isAligned_chunk (hbase : rt.AlignedBases) (off size : ℕ) :
    (VecLaunch.pull (rt.chunkPullArgs a off size) size
      (a.kind.srcOffset a.selfLocalIndex a.sliceBytes)).IsAligned
        (Cell.addr rt.bufferPtrs a.input.dataPtr a.output.dataPtr) := by
  have hw : IsVecWidth (rt.chunkVec a off size) := by
    unfold chunkVec
    split <;> exact isVecWidth_vecFor ..
  obtain ⟨hoff, hout, hslice, hsize⟩ := chunkVec_dvd_all (a := a) hbase off size
  exact isAligned_pull hw hsize
    (fun r => dvd_add (hw.dvd (hbase r)) (dvd_add hoff (dvd_srcOffset _ _ hslice))) hout hslice

/-! ### The fused path -/

/-- **The chunk size of the fused path keeps the alignment.** -/
theorem alignment_dvd_of_plan {policy : Option Policy} {chunks n dstPtr : ℕ}
    {numChannels chunkBytes : ℤ}
    (h : rt.plan policy chunks n dstPtr = .ok (.fused numChannels chunkBytes)) :
    (rt.config.alignment : ℤ) ∣ chunkBytes := by
  cases policy with
  | some policy =>
    obtain ⟨_, hguard, hpath⟩ := bind_ok_iff.mp h
    cases hr : rt.resolvedPath policy n with
    | fused =>
      have hp := (path_of_resolvedPath (by rw [hr]; decide)).1
      rw [hr] at hp hpath
      unfold autotunePathGuard at hguard
      rw [← hp] at hguard
      obtain ⟨-, hguard⟩ := require_bind_ok_iff.mp hguard
      obtain ⟨_, -, hguard⟩ := bind_ok_iff.mp hguard
      obtain ⟨-, hguard⟩ := require_bind_ok_iff.mp hguard
      obtain ⟨-, hguard⟩ := require_bind_ok_iff.mp hguard
      obtain ⟨hmod, -⟩ := require_bind_ok_iff.mp hguard
      have hsize := Except.ok.inj hpath
      injection hsize with _ hsize
      rw [← hsize]
      exact Int.dvd_of_emod_eq_zero (of_decide_eq_true hmod)
    | tma | copyEngine | pipelined | vecPull =>
      rw [hr] at hpath
      cases hpath
  | none =>
    obtain ⟨-, -, hpath⟩ | ⟨-, -, e, hpath, -, -⟩ | ⟨-, -, hpath⟩ := plan_none_cases h
    · injection hpath with _ hsize
      rw [hsize]
      exact Int.natCast_dvd_natCast.mpr rt.config.alignment_dvd_chunk
    · cases hpath
    · cases hpath

/-- What the width of a fused kernel divides. -/
theorem pickVecBytes_dvd (inputPtr outputPtr : ℕ) (n : ℕ) :
    pickVecBytes inputPtr outputPtr n ∣ inputPtr ∧ pickVecBytes inputPtr outputPtr n ∣ outputPtr ∧
      pickVecBytes inputPtr outputPtr n ∣ n := by
  obtain ⟨i, hi, hidvd⟩ := exists_baseAlignment inputPtr
  obtain ⟨j, hj, hjdvd⟩ := exists_baseAlignment outputPtr
  obtain ⟨k, hk, hkdvd⟩ := exists_baseAlignment n
  have h := fun x => vecWidthBytes_dvd i [2 ^ j, 2 ^ k] (x := x)
  unfold pickVecBytes
  rw [hi, hj, hk]
  refine ⟨?_, ?_, ?_⟩
  · exact_mod_cast (h (2 ^ i) (by simp)).trans hidvd
  · exact_mod_cast (h (2 ^ j) (by simp)).trans hjdvd
  · exact_mod_cast (h (2 ^ k) (by simp)).trans hkdvd

theorem isAligned_fused (hbase : rt.AlignedBases) {numChannels chunkBytes : ℤ} {stepBase : ℕ}
    (hpos : 0 < chunkBytes) (hchunk : (rt.config.alignment : ℤ) ∣ chunkBytes) :
    (VecLaunch.fusedKernel (rt.fusedArgs a numChannels chunkBytes stepBase) a.kind).IsAligned
      (Cell.addr rt.bufferPtrs a.input.dataPtr a.output.dataPtr) := by
  have hw : IsVecWidth (pickVecBytes a.input.dataPtr a.output.dataPtr a.sliceBytes) :=
    isVecWidth_vecWidthBytes _
  obtain ⟨hin, hout, hslice⟩ := pickVecBytes_dvd a.input.dataPtr a.output.dataPtr a.sliceBytes
  -- the alignment of the configuration is a power of two from 16 on
  have halign : 16 ∣ rt.config.alignment := by
    obtain ⟨k, hk⟩ := rt.config.alignment_pow
    have hge := rt.config.alignment_ge
    rw [hk] at hge ⊢
    have hpow : 2 ^ 4 ≤ 2 ^ k := hge
    exact Nat.pow_dvd_pow 2 ((Nat.pow_le_pow_iff_right (by decide)).mp hpow)
  obtain ⟨n, rfl⟩ := Int.eq_ofNat_of_zero_le hpos.le
  have hn : 16 ∣ n := halign.trans (by exact_mod_cast hchunk)
  have hdiv : (rt.fusedArgs a numChannels n stepBase).kernelArgs.Divides rt.bufferPtrs
      a.input.dataPtr a.output.dataPtr :=
    { commBase := fun r => hw.dvd (hbase r)
      input := hin
      output := hout
      commBufOffset := dvd_zero _
      slice := hslice
      partition := by
        show _ ∣ alignUp _ rt.config.alignment
        rw [alignUp_eq rt.config.alignment_pow]
        exact (hw.dvd halign).mul_left _
      chunk := hw.dvd hn }
  exact ⟨hw.cases, fun x hx => hdiv.aligned_accesses hx, fun h => Bool.noConfusion h,
    fun src dst => FusedKernelArgs.copy_mem_kernel_iff⟩

end Collective

/-! ### The p2p calls -/

theorem isAligned_pullCopy {src dst : ℕ → Cell} {n w : ℕ} {numSms : ℤ} {addr : Cell → ℕ}
    {p q : ℕ} (hw : IsVecWidth w) (hn : w ∣ n) (hsrc : ∀ b, addr (src b) = p + b)
    (hdst : ∀ b, addr (dst b) = q + b) (hp : w ∣ p) (hq : w ∣ q) (hrsrc : Runs src)
    (hrdst : Runs dst) : (VecLaunch.pullCopy src dst n w numSms).IsAligned addr := by
  have htail : decide (n % dtypeForVec w ≠ 0) = false := by
    refine decide_eq_false (not_not.mpr (Nat.mod_eq_zero_of_dvd ?_))
    rwa [hw.dtypeForVec]
  have hall : ∀ x ∈ (VecLaunch.pullCopy src dst n w numSms).accesses,
      x.width = w ∧ x.Aligned addr := by
    intro x hx
    replace hx : x ∈ pullCopyAccesses src dst n (dtypeForVec w) _ (n % dtypeForVec w ≠ 0) _ := hx
    rw [htail, hw.dtypeForVec] at hx
    obtain ⟨hwidth | ⟨h, -⟩, haligned⟩ := aligned_pullCopy
      (FusedKernelArgs.dvd_addr hsrc hp) (FusedKernelArgs.dvd_addr hdst hq) hx
    · exact ⟨hwidth, haligned⟩
    · cases h
  exact ⟨hw.cases, fun x hx => ⟨Or.inl (hall x hx).1, (hall x hx).2⟩,
    fun _ => ⟨hn, fun x hx => (hall x hx).1⟩,
    fun src dst => mem_acts_iff_of_map_act_eq (map_act_pullCopyKernel hrsrc hrdst)⟩

theorem isAligned_p2p {call n : ℕ} {a : P2pArgs} {l : VecLaunch}
    (hl : l ∈ rt.p2pLaunches call a n) :
    l.IsAligned (Cell.addr rt.bufferPtrs a.localTensor.dataPtr a.localTensor.dataPtr) := by
  have hdvd : ∀ p q : ℕ, vecFor [(p : ℤ), (q : ℤ)] n ∣ p ∧ vecFor [(p : ℤ), (q : ℤ)] n ∣ q ∧
      vecFor [(p : ℤ), (q : ℤ)] n ∣ n := by
    intro p q
    have h := fun x => vecFor_dvd_all (p : ℤ) [(q : ℤ)] n (x := x)
    refine ⟨?_, ?_, ?_⟩
    · exact_mod_cast h p (by simp)
    · exact_mod_cast h q (by simp)
    · exact_mod_cast h n (by simp)
  rcases a with ⟨srcRank, dstRank, tensor, role, protocol, nbytes⟩
  unfold p2pLaunches at hl
  dsimp only at hl ⊢
  cases protocol with
  | put =>
    cases role with
    | receiver => cases hl
    | sender =>
      dsimp only at hl
      split at hl
      case isTrue => cases hl
      case isFalse =>
        rw [List.mem_singleton.mp hl]
        obtain ⟨hp, hq, hn⟩ := hdvd rt.localPtr (rt.bufferPtrs dstRank.toNat)
        exact isAligned_pullCopy (isVecWidth_vecFor ..) hn (fun b => rfl) (fun b => rfl) hp hq
          (fun b i => rfl) (fun b i => rfl)
  | get =>
    cases role with
    | sender => cases hl
    | receiver =>
      dsimp only at hl
      split at hl
      case isTrue => cases hl
      case isFalse =>
        rw [List.mem_singleton.mp hl]
        obtain ⟨hp, hq, hn⟩ := hdvd (rt.bufferPtrs srcRank.toNat) tensor.dataPtr
        exact isAligned_pullCopy (isVecWidth_vecFor ..) hn (fun b => rfl) (fun b => rfl) hp hq
          (fun b i => rfl) (fun b i => rfl)

/-! ## The launches are what is enqueued -/

/-- The launches are kernels among the items, and every other kernel among them is one of the
given ones or reads no communication buffer. -/
structure Carries (its : List Item) (L : List VecLaunch) (others : List (List (Op DataAct))) :
    Prop where
  enqueued : ∀ l ∈ L, ∃ it ∈ its, it.cmd = .kernel l.ops
  launched : ∀ it ∈ its, ∀ ops, it.cmd = .kernel ops →
    (∃ l ∈ L, l.ops = ops) ∨ ops ∈ others ∨ ∀ d ∈ acts ops, d.isPull = false

section Carries

variable {its its' : List Item} {L : List VecLaunch} {others : List (List (Op DataAct))}

/-- Items without kernels. -/
theorem carries_nil (h : ∀ it ∈ its, ∀ ops, it.cmd ≠ .kernel ops) : Carries its [] others :=
  ⟨by simp, fun it hit ops hcmd => absurd hcmd (h it hit ops)⟩

/-- Items without such kernels do not matter. -/
theorem Carries.append (h : Carries its L others)
    (h' : ∀ it ∈ its', ∀ ops, it.cmd = .kernel ops → ∀ d ∈ acts ops, d.isPull = false) :
    Carries (its' ++ its) L others where
  enqueued l hl := by
    obtain ⟨it, hit, hcmd⟩ := h.enqueued l hl
    exact ⟨it, List.mem_append_right _ hit, hcmd⟩
  launched it hit ops hcmd := by
    rcases List.mem_append.mp hit with hit | hit
    · exact Or.inr (Or.inr (h' it hit ops hcmd))
    · exact h.launched it hit ops hcmd

theorem isPull_of_mem_copyOps {src dst : ℕ → Cell} {n : ℕ}
    (hsrc : ∀ b, ∀ q c, src b ≠ .comm q c) {d : DataAct} (hd : d ∈ acts (copyOps src dst n)) :
    d.isPull = false := by
  rw [acts_copyOps] at hd
  obtain ⟨b, -, rfl⟩ := hd
  cases hs : src b with
  | comm q c => exact absurd hs (hsrc b q c)
  | input r c b => rfl
  | output r c b => rfl

variable {a : CollectiveArgs} {e : ℕ}

theorem isPull_of_mem_stageChunk {off size : ℕ} {ops : List (Op DataAct)}
    (hops : ops ∈ rt.stageChunk a off size) {d : DataAct} (hd : d ∈ acts ops) :
    d.isPull = false := by
  unfold stageChunk at hops
  split at hops
  · rw [List.mem_singleton.mp hops] at hd
    exact isPull_of_mem_copyOps (by simp) hd
  · obtain ⟨p, -, rfl⟩ := List.mem_map.mp hops
    exact isPull_of_mem_copyOps (by simp) hd

/-- What a one-shot path enqueues are its staging, its barriers and its kernels. -/
theorem oneShotItems_cases {eng : Engine} {it : Item} {ops : List (Op DataAct)}
    (hit : it ∈ rt.pathItems a e (.oneShot eng)) (hcmd : it.cmd = .kernel ops) :
    ops = rt.stage a ∨ ops ∈ rt.oneShotKernels a eng := by
  simp only [pathItems, oneShotPrefix, List.mem_append, List.mem_cons, List.not_mem_nil,
    or_false] at hit
  rcases hit with ((rfl | rfl) | hit) | rfl
  · cases hcmd
    exact Or.inl rfl
  · cases hcmd
  · obtain ⟨ops', hops', rfl⟩ := List.mem_map.mp hit
    cases hcmd
    exact Or.inr hops'
  · cases hcmd

theorem carries_pathItems (path : DataPath) :
    Carries (rt.pathItems a e path) (rt.pathLaunches a e path) (rt.pathCopies a path) := by
  cases path with
  | oneShot eng =>
    have hstage : ∀ d ∈ acts (rt.stage a), d.isPull = false :=
      fun d hd => isPull_of_mem_copyOps (by simp) hd
    cases eng with
    | copyEngine =>
      refine ⟨by simp [pathLaunches], fun it hit ops hcmd => ?_⟩
      rcases oneShotItems_cases hit hcmd with rfl | hops
      · exact Or.inr (Or.inr hstage)
      · exact Or.inr (Or.inl hops)
    | tma =>
      refine ⟨by simp [pathLaunches], fun it hit ops hcmd => ?_⟩
      rcases oneShotItems_cases hit hcmd with rfl | hops
      · exact Or.inr (Or.inr hstage)
      · exact Or.inr (Or.inl hops)
    | vec copySms =>
      refine ⟨fun l hl => ?_, fun it hit ops hcmd => ?_⟩
      · rw [List.mem_singleton.mp hl]
        exact ⟨⟨a.call, .main, .kernel (rt.oneShotPull a copySms)⟩,
          by simp [pathItems, kernelItems, oneShotKernels], rfl⟩
      · rcases oneShotItems_cases hit hcmd with rfl | hops
        · exact Or.inr (Or.inr hstage)
        · exact Or.inl ⟨_, List.mem_singleton_self _, (List.mem_singleton.mp hops).symm⟩
  | fused numChannels chunkBytes =>
    refine ⟨fun l hl => ?_, fun it hit ops hcmd => ?_⟩
    · rw [List.mem_singleton.mp hl]
      exact ⟨_, List.mem_cons_of_mem _ List.mem_cons_self, rfl⟩
    · rcases List.mem_cons.mp hit with rfl | hit
      · cases hcmd
      · rcases List.mem_cons.mp hit with rfl | hit
        · cases hcmd
          exact Or.inl ⟨_, List.mem_singleton_self _, rfl⟩
        · rw [List.mem_singleton.mp hit] at hcmd
          cases hcmd
  | pipelined chunks =>
    show Carries (rt.pipelinedItems a (layoutChunks a.sliceBytes chunks rt.config.alignment) e) _ _
    unfold pathLaunches
    refine ⟨fun l hl => ?_, fun it hit ops hcmd => ?_⟩
    · obtain ⟨chunk, hchunk, rfl⟩ := List.mem_map.mp hl
      obtain ⟨k, hk⟩ := List.mem_iff_getElem?.mp hchunk
      have hpull : (rt.pipelinedChunk a e (chunk, k))[
          (rt.stageChunk a chunk.1 chunk.2).length + 3]? =
          some ⟨a.call, .main, .kernel (rt.chunkPull a chunk.1 chunk.2)⟩ :=
        pipelinedChunk_getElem? rfl
      exact ⟨_, List.mem_of_getElem? (getElem?_pipelinedItems hk hpull), rfl⟩
    · obtain ⟨r, hr⟩ := List.mem_iff_getElem?.mp hit
      obtain ⟨-, rfl⟩ | ⟨-, rfl⟩ | ⟨k, chunk, q, hk, hq, -⟩ | ⟨-, rfl⟩ := pipelinedItems_cases hr
      · cases hcmd
      · cases hcmd
      · obtain ⟨-, ops', hops', rfl⟩ | ⟨q', -, hq'⟩ := pipelinedChunk_cases hq
        · cases hcmd
          exact Or.inr (Or.inr fun d hd => isPull_of_mem_stageChunk hops' hd)
        · match q' with
          | 0 | 1 | 2 =>
            cases hq'
            cases hcmd
          | 3 =>
            cases hq'
            cases hcmd
            exact Or.inl ⟨_, List.mem_map.mpr ⟨chunk, List.mem_of_getElem? hk, rfl⟩, rfl⟩
      · cases hcmd

section P2p

variable {call n : ℕ} {current : StreamId} {p : P2pArgs} {row : List ℕ} {tok tok' : ℕ}
  {ks : List (List (Op DataAct))}

/-- A p2p call whose copies are the launches, or given. -/
theorem carries_p2p (hL : ∀ l ∈ L, l.ops ∈ ks)
    (hks : ∀ ops ∈ ks, (∃ l ∈ L, l.ops = ops) ∨ ops ∈ others)
    (hout : p.protocol = .put → p.role = .receiver → rt.p2pCopyOut call n ∈ others) :
    Carries (rt.p2pPrefix call current p n row tok ++ rt.p2pSuffix call p n row tok' ks) L
      others := by
  refine Carries.append ⟨fun l hl => ?_, fun it hit ops hcmd => ?_⟩ fun it hit ops hcmd => ?_
  · refine ⟨⟨call, .main, .kernel l.ops⟩, ?_, rfl⟩
    unfold p2pSuffix
    exact List.mem_append_left _ (List.mem_append_left _ (List.mem_map_of_mem (hL l hl)))
  · unfold p2pSuffix at hit
    rcases List.mem_append.mp hit with hit | hit
    · rcases List.mem_append.mp hit with hit | hit
      · obtain ⟨ops', hops', rfl⟩ := List.mem_map.mp hit
        cases hcmd
        exact (hks ops hops').imp_right Or.inl
      · rw [List.mem_singleton.mp hit] at hcmd
        cases hcmd
    · split at hit
      case isTrue hput =>
        rw [List.mem_singleton.mp hit] at hcmd
        cases hcmd
        exact Or.inr (Or.inl (hout hput.1 hput.2))
      case isFalse => cases hit
  · unfold p2pPrefix at hit
    rcases List.mem_append.mp hit with hit | hit
    · rcases List.mem_append.mp hit with hit | hit
      · rw [ingestItems_cmd hit] at hcmd
        cases hcmd
      · split at hit
        · rw [List.mem_singleton.mp hit] at hcmd
          cases hcmd
          exact fun d hd => isPull_of_mem_copyOps (by simp) hd
        · cases hit
    · rw [List.mem_singleton.mp hit] at hcmd
      cases hcmd

/-- The copy is one launch. -/
theorem carries_of_launch {l : VecLaunch} (hno : ¬ (p.protocol = .put ∧ p.role = .receiver)) :
    Carries (rt.p2pPrefix call current p n row tok ++ rt.p2pSuffix call p n row tok' [l.ops])
      [l] others :=
  carries_p2p (fun _ hl => List.mem_singleton.mpr (congrArg _ (List.mem_singleton.mp hl)))
    (fun _ hops => Or.inl ⟨l, List.mem_singleton_self l, (List.mem_singleton.mp hops).symm⟩)
    fun hput hrole => absurd ⟨hput, hrole⟩ hno

/-- No copy is a launch. -/
theorem carries_of_others (hks : ∀ ops ∈ ks, ops ∈ others)
    (hout : p.protocol = .put → p.role = .receiver → rt.p2pCopyOut call n ∈ others) :
    Carries (rt.p2pPrefix call current p n row tok ++ rt.p2pSuffix call p n row tok' ks) []
      others :=
  carries_p2p (by simp) (fun ops hops => Or.inr (hks ops hops)) hout

theorem eq_ops_pullCopy {src dst : ℕ → Cell} {w : ℕ} {numSms : ℤ} {ops : List (Op DataAct)}
    (h : launchPullCopy src dst n w numSms = .ok ops) :
    ops = (VecLaunch.pullCopy src dst n w numSms).ops := (launchPullCopy_ok h).2.2.2

/-- The engine decides which of them the copy is. -/
theorem carries_launchCopy {src dst : ℕ → Cell} {q q' : ℕ} {ptr ptr' : ℤ} {c : Prop} [Decidable c]
    (hno : ¬ (p.protocol = .put ∧ p.role = .receiver))
    (h : rt.launchCopy src dst n q q' ptr ptr' rt.copyEngineEnabled c = .ok ks) :
    Carries (rt.p2pPrefix call current p n row tok ++ rt.p2pSuffix call p n row tok' ks)
      (if rt.copyEngineEnabled ∨ c then []
        else [.pullCopy src dst n (vecFor [ptr, ptr'] n) rt.copySms])
      (if rt.copyEngineEnabled then launchP2pCopyEngine src dst n
        else if c then [p2pTmaKernel src dst n defaultTileBytes rt.numSms] else []) := by
  rcases launchCopy_cases h with ⟨hengine, rfl⟩ | ⟨hengine, hc, ops, hops, rfl⟩ |
    ⟨hengine, hc, ops, hops, rfl⟩
  · rw [if_pos (Or.inl hengine), if_pos hengine]
    exact carries_of_others (fun _ h => h) fun hput hrole => absurd ⟨hput, hrole⟩ hno
  · rw [if_pos (Or.inr hc), if_neg hengine, if_pos hc, (launchP2pCopyTma_ok hops).2]
    exact carries_of_others (fun _ h => h) fun hput hrole => absurd ⟨hput, hrole⟩ hno
  · rw [if_neg (not_or.mpr ⟨hengine, hc⟩), eq_ops_pullCopy hops]
    exact carries_of_launch hno

/-- **The copy of a p2p call** is its vector launch, or one of the others. -/
theorem carries_p2pItems (h : rt.launchP2p call p n = .ok ks) :
    Carries (rt.p2pPrefix call current p n row tok ++ rt.p2pSuffix call p n row tok' ks)
      (rt.p2pLaunches call p n) (rt.p2pOtherCopies call p n) := by
  rcases p with ⟨srcRank, dstRank, tensor, role, protocol, nbytes⟩
  cases protocol with
  | put =>
    cases role with
    | receiver =>
      rw [← Except.ok.inj h]
      exact carries_of_others (by simp) fun _ _ => List.mem_singleton_self _
    | sender => exact carries_launchCopy (by rintro ⟨-, ⟨⟩⟩) h
  | get =>
    cases role with
    | sender =>
      rw [← Except.ok.inj h]
      exact carries_of_others (by simp) (by rintro ⟨⟩)
    | receiver => exact carries_launchCopy (by rintro ⟨⟨⟩, -⟩) h

end P2p

end Carries

/-! ## Every call -/

/-- A call that enqueues nothing. -/
theorem newItems_eq_nil {x : Session rt} {c : Call}
    (h : (x.run c).2.state.items = x.state.items) : x.newItems c = [] :=
  newItems_eq (by rw [h, List.append_nil])

/-- **Every vectorised access is aligned**: a call that returns has enqueued its vector
launches, which are all kernels that copy out of communication buffers but for those of the
copy engine, of TMA and of `copy_`, and all of them make aligned accesses. -/
theorem vector_accesses_are_aligned (hbase : rt.AlignedBases) {x : Session rt} {c : Call}
    {r : Option GroupDescriptor} (h : (x.run c).1 = .ok r) :
    Carries (x.newItems c) (x.vecLaunches c) (x.otherCopies c) ∧
      ∀ l ∈ x.vecLaunches c, l.IsAligned (Call.addr rt c) := by
  cases c with
  | register ranks groupId gathered =>
    have hnew : x.newItems (.register ranks groupId gathered) = [] := by
      refine newItems_eq_nil ?_
      rw [run_register_eq]
      exact registerGroup_frame.2
    rw [hnew]
    exact ⟨carries_nil (by simp), by simp [Session.vecLaunches]⟩
  | unregister group =>
    have hnew : x.newItems (.unregister group) = [] := by
      refine newItems_eq_nil ?_
      rw [Session.run_eq rfl]
      rfl
    rw [hnew]
    exact ⟨carries_nil (by simp), by simp [Session.vecLaunches]⟩
  | shutdown =>
    have hnew : x.newItems .shutdown = [] := by
      refine newItems_eq_nil ?_
      unfold Session.run
      split <;> rfl
    rw [hnew]
    exact ⟨carries_nil (by simp), by simp [Session.vecLaunches]⟩
  | collective call current group c =>
    cases c with
    | barrier =>
      obtain ⟨row, -, hstate⟩ := exists_of_returns_barrier h
      rw [newItems_eq (by rw [hstate]; rfl)]
      exact ⟨carries_nil (by simp), by simp [Session.vecLaunches]⟩
    | data c =>
      obtain ⟨n, row, path, hentry, hrow, hplan, hlaunch, hstate⟩ := exists_of_returns_data h
      have hL : x.vecLaunches (.collective call current group (.data c)) =
          rt.pathLaunches ⟨call, c.kind, c.input, c.output, group, row, n⟩
            (x.state.epochs.peek group.groupId) path := by
        simp only [Session.vecLaunches, hentry, hrow, hplan]
      have hothers : x.otherCopies (.collective call current group (.data c)) =
          rt.pathCopies ⟨call, c.kind, c.input, c.output, group, row, n⟩ path := by
        simp only [Session.otherCopies, hentry, hrow, hplan]
      rw [hL, hothers, newItems_eq (by rw [hstate]; rfl)]
      refine ⟨(carries_pathItems path).append fun it hit ops hcmd => ?_, fun l hl => ?_⟩
      · rw [ingestItems_cmd hit] at hcmd
        cases hcmd
      · cases path with
        | oneShot e =>
          cases e with
          | copyEngine => cases hl
          | tma => cases hl
          | vec copySms =>
            rw [List.mem_singleton.mp hl]
            exact isAligned_oneShot hbase
        | fused numChannels chunkBytes =>
          have hready := ready_of_plan (entryChecked_of_entry hentry).slice_le hplan
          rw [List.mem_singleton.mp hl]
          exact isAligned_fused hbase hready.2.1 (alignment_dvd_of_plan hplan)
        | pipelined chunks =>
          obtain ⟨chunk, -, rfl⟩ := List.mem_map.mp hl
          exact isAligned_chunk hbase chunk.1 chunk.2
  | p2p call current c gathered =>
    obtain ⟨n, g, s, row, ks, hentry, hreg, -, hks, hstate⟩ := exists_of_returns_p2p h
    have hitems := (registerGroup_ok_frame hreg).2
    have hL : x.vecLaunches (.p2p call current c gathered) =
        rt.p2pLaunches call (c.args rt.rank) n := by
      simp only [Session.vecLaunches, hentry]
    have hothers : x.otherCopies (.p2p call current c gathered) =
        rt.p2pOtherCopies call (c.args rt.rank) n := by
      simp only [Session.otherCopies, hentry]
    rw [hL, hothers, newItems_eq (by rw [hstate, ← hitems]; rfl)]
    exact ⟨carries_p2pItems hks, fun l hl => isAligned_p2p hl⟩

/-- The all-gather of three words of eight bytes. -/
def wordsGather : Call := .collective 3 (.user 0) (pairGroup 0)
  (.data (.allGather (pairTensor 8200 24) (pairTensor 12296 48) none))

theorem vector_accesses_are_aligned_wordsGather :
    Carries (gatherSession.newItems wordsGather) (gatherSession.vecLaunches wordsGather) [] ∧
      ∀ l ∈ gatherSession.vecLaunches wordsGather,
        l.IsAligned (Call.addr (pairRuntime .default none 0) wordsGather) :=
  vector_accesses_are_aligned (fun _ => ⟨256, rfl⟩)
    (show (gatherSession.run wordsGather).1 = .ok none from rfl)

/-- Its elements have eight bytes: the addresses and the slice are odd multiples of eight. -/
example : (gatherSession.vecLaunches wordsGather).map VecLaunch.vec = [8] := by decide +kernel

end Runtime

end GroupFreeCollectives
