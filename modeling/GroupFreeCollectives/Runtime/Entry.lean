import GroupFreeCollectives.Kernels.FusedSpec
import GroupFreeCollectives.Runtime.Run

/-!
# What a collective has checked before it acts

`EntryChecked` is what the entry checks establish, `DataPath.Ready` what the decision on
the data path does.  `run_submit` puts a whole call together: the entry checks, the rank
list, the decision, and then the data path.
-/

namespace GroupFreeCollectives

open Tiling

namespace Runtime

variable {rt : Runtime}

/-! ## The entry checks -/

variable (rt) in
/-- What the entry checks of a collective establish. -/
structure EntryChecked (kind : Collective) (input output : Tensor) (group : GroupDescriptor)
    (sliceBytes : ℕ) : Prop where
  member : 0 ≤ group.localIndex
  size_le : group.size ≤ rt.config.maxGroupSize
  input_nbytes : input.nbytes = kind.stagedBytes group.size sliceBytes
  output_nbytes : output.nbytes = group.size * sliceBytes
  staged_le : kind.stagedBytes group.size sliceBytes ≤ rt.config.maxCollectiveBytes
  slice_pos : kind = .all2All → 0 < sliceBytes

/-- A member is in a group of at least one rank. -/
theorem size_pos_of_member {group : GroupDescriptor} (h : 0 ≤ group.localIndex) :
    0 < group.size := by
  have := group.localIndex_lt
  omega

/-- The rank list of a live handle is not empty. -/
theorem ranksDev_length_pos {s : RuntimeState rt.rank rt.worldSize} {row : List ℕ} {h : ℕ}
    (hrow : s.registry.ranksDev h = some row) : 0 < row.length := by
  obtain ⟨g, -, -, hli, rfl⟩ := (s.registry.ranksDev_iff h row).mp hrow
  rw [← g.size_eq]
  exact size_pos_of_member hli

theorem EntryChecked.size_pos {kind : Collective} {input output : Tensor}
    {group : GroupDescriptor} {n : ℕ} (h : rt.EntryChecked kind input output group n) :
    0 < group.size := size_pos_of_member h.member

/-- The slice fits the communication buffer. -/
theorem EntryChecked.slice_le {kind : Collective} {input output : Tensor}
    {group : GroupDescriptor} {n : ℕ} (h : rt.EntryChecked kind input output group n) :
    n ≤ rt.config.maxCollectiveBytes := by
  have hle : n ≤ kind.stagedBytes group.size n := by
    cases kind with
    | allGather => exact le_refl n
    | all2All => exact Nat.le_mul_of_pos_right n h.size_pos
  exact le_trans hle h.staged_le

theorem validateCollectiveArgs_ok {kind : Collective} {input output : Tensor}
    {group : GroupDescriptor} (h : rt.validateCollectiveArgs kind input output group = .ok ()) :
    0 ≤ group.localIndex ∧ group.size ≤ rt.config.maxGroupSize ∧
      (match kind with
        | .allGather => input.nbytes
        | .all2All => output.nbytes) ≤ rt.config.maxCollectiveBytes := by
  unfold validateCollectiveArgs at h
  simp only [require_bind_ok_iff, decide_eq_true_eq] at h
  obtain ⟨hmember, hsize, -, -, -, -, -, hbytes⟩ := h
  refine ⟨hmember, hsize, ?_⟩
  cases kind <;> exact of_decide_eq_true (require_eq_ok_iff.mp hbytes)

theorem entryChecked_all2All {input output : Tensor} {group : GroupDescriptor} {m : ℤ}
    (hval : rt.validateCollectiveArgs .all2All input output group = .ok ())
    (hio : input.nbytes = output.nbytes) (hpos : 0 < m)
    (htotal : (input.nbytes : ℤ) = m * group.size)
    (hmax : m * group.size ≤ rt.config.maxCollectiveBytes) :
    rt.EntryChecked .all2All input output group m.toNat := by
  obtain ⟨hmember, hsize, -⟩ := validateCollectiveArgs_ok hval
  obtain ⟨k, rfl⟩ := Int.eq_ofNat_of_zero_le hpos.le
  have hin : input.nbytes = k * group.size := by exact_mod_cast htotal
  refine ⟨hmember, hsize, hin, ?_, by exact_mod_cast hmax, fun _ => by exact_mod_cast hpos⟩
  show output.nbytes = group.size * k
  rw [← hio, hin, Nat.mul_comm]

/-- **What the entry checks establish.** -/
theorem entryChecked_of_entry {c : DataCall} {group : GroupDescriptor} {n : ℕ}
    (h : c.entry rt group = .ok n) : rt.EntryChecked c.kind c.input c.output group n := by
  cases c with
  | allGather input output chunks =>
    obtain ⟨_, hval, h⟩ := bind_ok_iff.mp h
    obtain ⟨hout, hn⟩ := require_bind_ok_iff.mp h
    obtain ⟨hmember, hsize, hbytes⟩ := validateCollectiveArgs_ok hval
    obtain rfl : input.nbytes = n := Except.ok.inj hn
    exact ⟨hmember, hsize, rfl, of_decide_eq_true hout, hbytes, by rintro ⟨⟩⟩
  | all2All input output sliceBytes chunks =>
    obtain ⟨_, hval, h⟩ := bind_ok_iff.mp h
    obtain ⟨hio, h⟩ := require_bind_ok_iff.mp h
    -- with and without the argument, the same checks are made of a slice size
    cases sliceBytes with
    | some m =>
      obtain ⟨hpos, h⟩ := require_bind_ok_iff.mp h
      obtain ⟨htotal, h⟩ := require_bind_ok_iff.mp h
      obtain ⟨hmax, hn⟩ := require_bind_ok_iff.mp h
      rw [← Except.ok.inj hn]
      exact entryChecked_all2All hval (of_decide_eq_true hio) (of_decide_eq_true hpos)
        (of_decide_eq_true htotal) (of_decide_eq_true hmax)
    | none =>
      obtain ⟨-, h⟩ := require_bind_ok_iff.mp h
      obtain ⟨hpos, h⟩ := require_bind_ok_iff.mp h
      obtain ⟨htotal, h⟩ := require_bind_ok_iff.mp h
      obtain ⟨hmax, hn⟩ := require_bind_ok_iff.mp h
      rw [← Except.ok.inj hn]
      exact entryChecked_all2All hval (of_decide_eq_true hio) (of_decide_eq_true hpos)
        (of_decide_eq_true htotal) (of_decide_eq_true hmax)

/-! ## The decision -/

variable (rt) in
/-- What the decision has checked of a path for a slice size and an output address. -/
def Ready (sliceBytes dstPtr : ℕ) : DataPath → Prop
  | .oneShot .tma => preflightTmaCollective sliceBytes 0 dstPtr = .ok ()
  | .oneShot _ => True
  | .fused numChannels chunkBytes =>
    0 < numChannels ∧ 0 < chunkBytes ∧ numChannels ≤ rt.config.fusedNumChannels ∧
      2 * numChannels ≤ rt.numSms ∧
        cdiv (alignUp (cdiv sliceBytes numChannels.toNat) rt.config.alignment)
          chunkBytes.toNat ≤ rt.config.fusedMaxChunksPerChannel
  | .pipelined chunks => 1 < chunks ∧ chunks ≤ rt.config.maxPipelineChunks ∧ 0 < sliceBytes

/-- The configured chunk size keeps every accepted slice within the chunk bound. -/
theorem config_nChunks_le (cfg : Config) {sliceBytes : ℕ}
    (h : sliceBytes ≤ cfg.maxCollectiveBytes) :
    cdiv (alignUp (cdiv sliceBytes cfg.fusedNumChannels) cfg.alignment) cfg.fusedChunkSize ≤
      cfg.fusedMaxChunksPerChannel := by
  have hshare : cdiv sliceBytes cfg.fusedNumChannels ≤ cfg.maxCollectiveBytes :=
    (cdiv_le_iff cfg.fusedNumChannels_pos).mpr
      (le_trans h (Nat.le_mul_of_pos_right _ cfg.fusedNumChannels_pos))
  have hpart := alignUp_le cfg.alignment_pow cfg.alignment_dvd hshare
  refine Nat.le_succ_of_le ((cdiv_le_iff cfg.fusedChunkSize_pos).mpr (le_trans hpart ?_))
  exact le_cdiv_mul cfg.fusedChunkSize_pos

theorem checkFusedLaunchCapacity_eq_ok_iff {numChannels : ℤ} :
    rt.checkFusedLaunchCapacity numChannels = .ok () ↔
      0 < numChannels ∧ 2 * numChannels ≤ rt.numSms := by
  unfold checkFusedLaunchCapacity
  simp only [require_bind_ok_iff, require_eq_ok_iff, decide_eq_true_eq]

/-- Only a pull can stand for another path. -/
theorem path_of_resolvedPath {policy : Policy} {sliceBytes : ℕ}
    (h : rt.resolvedPath policy sliceBytes ≠ .vecPull) :
    rt.resolvedPath policy sliceBytes = policy.path ∧
      (policy.path = .pipelined → 1 < rt.policyChunks policy sliceBytes) := by
  unfold resolvedPath at h ⊢
  split
  case isTrue hcol => exact absurd (if_pos hcol) h
  case isFalse hcol => exact ⟨rfl, fun hp => not_le.mp fun hle => hcol ⟨hp, hle⟩⟩

/-- What the guard has checked of a `fused` policy. -/
theorem fused_of_guard {policy : Policy} {sliceBytes dstPtr : ℕ} (hp : policy.path = .fused)
    (h : rt.autotunePathGuard policy sliceBytes 0 dstPtr = .ok ()) :
    rt.Ready sliceBytes dstPtr (.fused
      (policy.knobs.fusedNumChannels.getD rt.config.fusedNumChannels)
      (policy.knobs.fusedChunkSize.getD rt.config.fusedChunkSize)) := by
  unfold autotunePathGuard at h
  rw [hp] at h
  obtain ⟨hchan, h⟩ := require_bind_ok_iff.mp h
  obtain ⟨_, hcap, h⟩ := bind_ok_iff.mp h
  obtain ⟨hprov, h⟩ := require_bind_ok_iff.mp h
  obtain ⟨hchunk, h⟩ := require_bind_ok_iff.mp h
  obtain ⟨-, h⟩ := require_bind_ok_iff.mp h
  exact ⟨of_decide_eq_true hchan, of_decide_eq_true hchunk, of_decide_eq_true hprov,
    (checkFusedLaunchCapacity_eq_ok_iff.mp hcap).2, of_decide_eq_true (require_eq_ok_iff.mp h)⟩

theorem ready_of_planPolicy {policy : Policy} {sliceBytes dstPtr : ℕ} {path : DataPath}
    (h : rt.planPolicy policy sliceBytes dstPtr = .ok path) :
    rt.Ready sliceBytes dstPtr path := by
  obtain ⟨_, hguard, hpath⟩ := bind_ok_iff.mp h
  have hres : rt.resolvedPath policy sliceBytes ≠ .vecPull →
      rt.resolvedPath policy sliceBytes = policy.path ∧
        (policy.path = .pipelined → 1 < rt.policyChunks policy sliceBytes) := path_of_resolvedPath
  cases hr : rt.resolvedPath policy sliceBytes with
  | vecPull =>
    rw [hr] at hpath
    rw [← Except.ok.inj hpath]
    trivial
  | fused =>
    rw [hr] at hpath hres
    rw [← Except.ok.inj hpath]
    exact fused_of_guard (hres (by decide)).1.symm hguard
  | tma =>
    rw [hr] at hpath hres
    rw [← Except.ok.inj hpath]
    unfold autotunePathGuard at hguard
    rw [← (hres (by decide)).1] at hguard
    exact (require_bind_ok_iff.mp hguard).2
  | copyEngine =>
    rw [hr] at hpath
    rw [← Except.ok.inj hpath]
    trivial
  | pipelined =>
    rw [hr] at hpath hres
    rw [← Except.ok.inj hpath]
    obtain ⟨hp, hchunks⟩ := hres (by decide)
    obtain ⟨-, -, hpos, hmax⟩ := rt.of_one_lt_effectivePipelineChunks (hchunks hp.symm)
    exact ⟨hchunks hp.symm, hmax, hpos⟩

/-- The decisions without a policy: the fused path, one of the one-shot paths, or the
pipelined path. -/
theorem plan_none_cases {chunks sliceBytes dstPtr : ℕ} {path : DataPath}
    (h : rt.plan none chunks sliceBytes dstPtr = .ok path) :
    (rt.config.enableFusedPath = true ∧
        rt.checkFusedLaunchCapacity rt.config.fusedNumChannels = .ok () ∧
        path = .fused rt.config.fusedNumChannels rt.config.fusedChunkSize) ∨
      (rt.config.enableFusedPath = false ∧ chunks ≤ 1 ∧ ∃ e, path = .oneShot e ∧
        (e = .tma → preflightTmaCollective sliceBytes 0 dstPtr = .ok ()) ∧
        ∀ copySms, e = .vec copySms → copySms = rt.copySms) ∨
      (rt.config.enableFusedPath = false ∧ 1 < chunks ∧ path = .pipelined chunks) := by
  unfold plan at h
  dsimp only at h
  split at h
  case isTrue hfused =>
    obtain ⟨_, hcap, hpath⟩ := bind_ok_iff.mp h
    exact Or.inl ⟨hfused, hcap, (Except.ok.inj hpath).symm⟩
  case isFalse hfused =>
    have hfused : rt.config.enableFusedPath = false := by simpa using hfused
    refine Or.inr ?_
    split at h
    case isTrue hchunks =>
      refine Or.inl ⟨hfused, hchunks, ?_⟩
      cases htma : rt.tmaEnabled with
      | false =>
        rw [htma] at h
        cases hce : rt.copyEngineEnabled <;> rw [hce] at h <;> rw [← Except.ok.inj h]
        · exact ⟨_, rfl, by rintro ⟨⟩, by rintro _ ⟨⟩; rfl⟩
        · exact ⟨_, rfl, by rintro ⟨⟩, by rintro _ ⟨⟩⟩
      | true =>
        rw [htma] at h
        obtain ⟨_, hpre, h⟩ := bind_ok_iff.mp h
        cases hce : rt.copyEngineEnabled <;> rw [hce] at h <;> rw [← Except.ok.inj h]
        · exact ⟨_, rfl, fun _ => hpre, by rintro _ ⟨⟩⟩
        · exact ⟨_, rfl, by rintro ⟨⟩, by rintro _ ⟨⟩⟩
    case isFalse hchunks =>
      exact Or.inr ⟨hfused, not_le.mp hchunks, (Except.ok.inj h).symm⟩

/-- **A decision is ready to be carried out**, up to the checks the launchers add. -/
theorem ready_of_plan {policy : Option Policy} {sliceBytes dstPtr : ℕ}
    {pipelineChunks : Option ℤ} {path : DataPath}
    (hslice : sliceBytes ≤ rt.config.maxCollectiveBytes)
    (h : rt.plan policy (rt.effectivePipelineChunks sliceBytes pipelineChunks) sliceBytes dstPtr =
      .ok path) : rt.Ready sliceBytes dstPtr path := by
  cases policy with
  | some policy => exact ready_of_planPolicy h
  | none =>
    obtain ⟨-, hcap, rfl⟩ | ⟨-, -, e, rfl, hpre, -⟩ | ⟨-, hchunks, rfl⟩ := plan_none_cases h
    · exact ⟨Int.natCast_pos.mpr rt.config.fusedNumChannels_pos,
        Int.natCast_pos.mpr rt.config.fusedChunkSize_pos, le_refl _,
        (checkFusedLaunchCapacity_eq_ok_iff.mp hcap).2, config_nChunks_le rt.config hslice⟩
    · cases e with
      | copyEngine => trivial
      | tma => exact hpre rfl
      | vec copySms => trivial
    · obtain ⟨-, -, hpos, hmax⟩ := rt.of_one_lt_effectivePipelineChunks hchunks
      exact ⟨hchunks, hmax, hpos⟩

/-! ## Carrying it out -/

variable (rt) in
/-- The kernels between the barriers of a one-shot collective. -/
def oneShotKernels (a : CollectiveArgs) : Engine → List (List (Op DataAct))
  | .copyEngine => copyEngine a.call rt.rank a.group.ranks 0
      (a.kind.srcOffset a.selfLocalIndex a.sliceBytes) a.selfLocalIndex a.sliceBytes
  | .tma => [(rt.tmaArgs a).tmaKernel (a.kind.srcOffset a.selfLocalIndex a.sliceBytes)]
  | .vec copySms => [rt.oneShotPull a copySms]

variable (rt) in
/-- The kernel of the fused path. -/
def fusedKernelOps (a : CollectiveArgs) (numChannels chunkBytes : ℤ) (stepBaseE : ℕ) :
    List (Op DataAct) :=
  (rt.fusedArgs a numChannels chunkBytes (rt.token a.group.groupId stepBaseE)).kernelArgs.kernel
    a.kind

variable (rt) in
/-- How many epochs a data path takes. -/
def numEpochs (sliceBytes : ℕ) : DataPath → ℕ
  | .oneShot _ => 2
  | .fused _ _ => 3
  | .pipelined chunks => (layoutChunks sliceBytes chunks rt.config.alignment).length + 1

variable (rt) in
/-- What a data path enqueues, from an epoch on. -/
def pathItems (a : CollectiveArgs) (epoch : ℕ) : DataPath → List Item
  | .oneShot e => rt.oneShotPrefix a epoch ++ kernelItems a .main (rt.oneShotKernels a e) ++
      [rt.barrierItem a (epoch + 1)]
  | .fused numChannels chunkBytes =>
    [rt.barrierItem a epoch,
      ⟨a.call, .main, .kernel (rt.fusedKernelOps a numChannels chunkBytes (epoch + 1))⟩,
      rt.barrierItem a (epoch + 2)]
  | .pipelined chunks =>
    rt.pipelinedItems a (layoutChunks a.sliceBytes chunks rt.config.alignment) epoch

/-- What the launcher of a data path still checks, after the pre-barrier. -/
def Launches (sliceBytes : ℕ) : DataPath → Prop
  | .oneShot (.vec copySms) => 0 < sliceBytes ∧ 0 < copySms
  | .fused _ _ => 0 < sliceBytes
  | _ => True

variable {a : CollectiveArgs} {s : RuntimeState rt.rank rt.worldSize}

theorem launchOneShot_eq {e : Engine} (hrow : 0 < a.row.length)
    (hready : rt.Ready a.sliceBytes a.output.dataPtr (.oneShot e))
    (h : Launches a.sliceBytes (.oneShot e)) :
    rt.launchOneShot a e = .ok (rt.oneShotKernels a e) := by
  cases e with
  | copyEngine =>
    unfold launchOneShot oneShotKernels
    cases a.kind <;> rfl
  | tma =>
    have hcheck : (rt.tmaArgs a).check = .ok () := hready
    unfold launchOneShot oneShotKernels
    cases a.kind <;>
      simp only [TmaLaunchArgs.launchAllGatherTma, TmaLaunchArgs.launchAll2AllTma, hcheck] <;> rfl
  | vec copySms =>
    have hops : launchPull a.kind (rt.oneShotPullArgs a copySms) = .ok (rt.oneShotPull a copySms) :=
      launchPull_oneShot_eq_ok_iff.mpr ⟨⟨h.1, hrow, h.2⟩, rfl⟩
    show (launchPull a.kind (rt.oneShotPullArgs a copySms) >>= _) = _
    rw [hops]
    rfl

theorem launchOneShot_error {e : Engine} (h : ¬ Launches a.sliceBytes (.oneShot e)) :
    ∃ err, rt.launchOneShot a e = .error err := by
  cases e with
  | copyEngine => exact absurd trivial h
  | tma => exact absurd trivial h
  | vec copySms =>
    show ∃ err, (launchPull a.kind (rt.oneShotPullArgs a copySms) >>= _) = .error err
    cases hl : launchPull a.kind (rt.oneShotPullArgs a copySms) with
    | error err => exact ⟨err, rfl⟩
    | ok ops =>
      obtain ⟨⟨hslice, -, hsms⟩, -⟩ := launchPull_oneShot_eq_ok_iff.mp hl
      exact absurd ⟨hslice, hsms⟩ h

theorem fused_checked_iff {numChannels chunkBytes : ℤ} {stepBase : ℕ} (hrow : 0 < a.row.length)
    (hready : rt.Ready a.sliceBytes a.output.dataPtr (.fused numChannels chunkBytes)) :
    (rt.fusedArgs a numChannels chunkBytes stepBase).Checked ↔ 0 < a.sliceBytes := by
  constructor
  · intro h
    exact Int.natCast_pos.mp h.sliceBytes_pos
  · intro h
    exact ⟨Int.natCast_pos.mpr h, hrow, hready.1, hready.2.1, hready.2.2.2.2⟩

/-- With something to copy, the launch of a decided fused path passes its checks. -/
theorem launch_fused_eq {numChannels chunkBytes : ℤ} (hrow : 0 < a.row.length)
    (hready : rt.Ready a.sliceBytes a.output.dataPtr (.fused numChannels chunkBytes))
    (h : 0 < a.sliceBytes) (stepBaseE : ℕ) :
    (rt.fusedArgs a numChannels chunkBytes (rt.token a.group.groupId stepBaseE)).launch a.kind =
      .ok (rt.fusedKernelOps a numChannels chunkBytes stepBaseE) :=
  FusedLaunchArgs.launch_eq_ok_iff.mpr ⟨(fused_checked_iff hrow hready).mpr h, rfl⟩

/-- **A path whose launcher passes its checks returns**, with all its items enqueued. -/
theorem run_perform {path : DataPath} (hG : 0 < a.group.size) (hrow : 0 < a.row.length)
    (hready : rt.Ready a.sliceBytes a.output.dataPtr path) (h : Launches a.sliceBytes path) :
    (rt.perform a path).run s =
      .ok () ((s.advance a.group.groupId (rt.numEpochs a.sliceBytes path)).push
        (rt.pathItems a (s.epochs.peek a.group.groupId) path)) := by
  cases path with
  | oneShot e =>
    show (rt.oneShot a e).run s = _
    rw [run_oneShot hG, launchOneShot_eq hrow hready h]
    rfl
  | fused numChannels chunkBytes =>
    show (rt.fusedPath a numChannels chunkBytes).run s = _
    rw [run_fusedPath hG, launch_fused_eq hrow hready h]
    rfl
  | pipelined chunks =>
    exact run_pipelined hG hrow hready.1.le hready.2.1 hready.2.2

/-- **A path whose launcher fails raises**, with epochs issued and the pre-barrier
enqueued. -/
theorem run_perform_error {path : DataPath} (hG : 0 < a.group.size) (hrow : 0 < a.row.length)
    (hready : rt.Ready a.sliceBytes a.output.dataPtr path) (h : ¬ Launches a.sliceBytes path) :
    ∃ (err : PyError) (n : ℕ) (new : List Item),
      (rt.perform a path).run s = .error err ((s.advance a.group.groupId n).push new) ∧ 0 < n ∧
        rt.barrierItem a (s.epochs.peek a.group.groupId) ∈ new := by
  cases path with
  | oneShot e =>
    obtain ⟨err, herr⟩ := launchOneShot_error h
    refine ⟨err, 2, rt.oneShotPrefix a (s.epochs.peek a.group.groupId), ?_, two_pos, ?_⟩
    · show (rt.oneShot a e).run s = _
      rw [run_oneShot hG, herr]
    · exact List.mem_cons_of_mem _ List.mem_cons_self
  | fused numChannels chunkBytes =>
    cases hl : (rt.fusedArgs a numChannels chunkBytes (rt.token a.group.groupId
        (s.epochs.peek a.group.groupId + 1))).launch a.kind with
    | ok ops =>
      exact absurd ((fused_checked_iff hrow hready).mp (FusedLaunchArgs.launch_eq_ok_iff.mp hl).1) h
    | error err =>
      refine ⟨err, 3, [rt.barrierItem a (s.epochs.peek a.group.groupId)], ?_, three_pos,
        List.mem_singleton_self _⟩
      show (rt.fusedPath a numChannels chunkBytes).run s = _
      rw [run_fusedPath hG, hl]
  | pipelined chunks => exact absurd trivial h

/-! ## A whole call -/

variable {call : ℕ} {current : StreamId} {group : GroupDescriptor}

/-- **What a call of `all_gather` or `all2all` does.** -/
theorem run_submit {c : DataCall} : (c.submit rt call current group).run s =
    match c.entry rt group with
    | .error e => .error e s
    | .ok n =>
      match s.registry.ranksDev group.handle with
      | none => .error (.valueError
          "group has no device rank list (non-member or already unregistered)")
          (s.push (ingestItems call current))
      | some row =>
        match rt.plan (rt.policyFor c.kind group n) (rt.effectivePipelineChunks n c.pipelineChunks)
          n c.output.dataPtr with
        | .error e => .error e (s.push (ingestItems call current))
        | .ok path => (rt.perform ⟨call, c.kind, c.input, c.output, group, row, n⟩ path).run
            (s.push (ingestItems call current)) := by
  have hsubmit : c.submit rt call current group = MonadExcept.ofExcept (c.entry rt group) >>=
      fun n => rt.submitCollective call c.kind current c.input c.output group n
        c.pipelineChunks := by
    cases c <;> rfl
  rw [hsubmit, run_ofExcept_bind]
  cases c.entry rt group with
  | error e => rfl
  | ok n =>
    dsimp only
    unfold submitCollective
    dsimp only
    rw [run_bind_of_ok run_ingestUserTensors, EStateM.run_bind, run_groupRanksRow]
    rw [RuntimeState.push_registry]
    cases s.registry.ranksDev group.handle with
    | none => rfl
    | some row =>
      dsimp only
      rw [run_collective]
      cases rt.plan (rt.policyFor c.kind group n) (rt.effectivePipelineChunks n c.pipelineChunks) n
        c.output.dataPtr <;> rfl

/-- **What a call of `barrier` does.** -/
theorem run_barrier : (rt.barrier call group).run s =
    match rt.barrierEntry group with
    | .error e => .error e s
    | .ok _ =>
      match s.registry.ranksDev group.handle with
      | none => .error (.valueError
          "group has no device rank list (non-member or already unregistered)") s
      | some row => .ok () ((s.advance group.groupId 1).push
          [⟨call, .main, .barrier row (rt.token group.groupId (s.epochs.peek group.groupId))⟩]) := by
  unfold barrier
  rw [run_ofExcept_bind]
  cases hentry : rt.barrierEntry group with
  | error e => rfl
  | ok _ =>
    have hG := size_pos_of_member (of_decide_eq_true (require_bind_ok_iff.mp hentry).1)
    dsimp only
    rw [EStateM.run_bind, run_groupRanksRow]
    cases s.registry.ranksDev group.handle with
    | none => rfl
    | some row =>
      dsimp only
      rw [run_bind_of_ok run_nextForBarrier, run_barrierOn hG]

end Runtime

end GroupFreeCollectives
