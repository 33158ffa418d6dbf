import GroupFreeCollectives.Runtime.Collectives

/-!
# What a collective does to the state

The entries take a decision and then carry it out.  `plan` is the decision, a function
of the arguments alone: the data path, or the error of a check made before anything is
issued.  `perform` carries it out, and the equations `run_oneShot`, `run_fusedPath` and
`run_pipelined` say what it leaves behind, also when a launch fails: then the epochs
have been issued and the pre-barrier has been enqueued.
-/

namespace GroupFreeCollectives

open Tiling

/-- A data path, with the choices made for the call. -/
inductive DataPath where
  | oneShot (e : Engine)
  | fused (numChannels chunkBytes : ℤ)
  | pipelined (chunks : ℕ)
  deriving DecidableEq, Repr

namespace Runtime

variable (rt : Runtime)

/-! ## Plans -/

/-- What `dispatch` decides. -/
def planPolicy (policy : Policy) (sliceBytes dstPtr : ℕ) : Except PyError DataPath := do
  rt.autotunePathGuard policy sliceBytes 0 dstPtr
  match rt.resolvedPath policy sliceBytes with
  | .fused =>
    pure (.fused (policy.knobs.fusedNumChannels.getD rt.config.fusedNumChannels)
      (policy.knobs.fusedChunkSize.getD rt.config.fusedChunkSize))
  | .pipelined => pure (.pipelined (rt.policyChunks policy sliceBytes))
  | .copyEngine => pure (.oneShot .copyEngine)
  | .tma => pure (.oneShot .tma)
  | .vecPull => pure (.oneShot (.vec (policy.knobs.copySms.getD rt.copySms)))

/-- What a collective decides. -/
def plan (policy : Option Policy) (chunks sliceBytes dstPtr : ℕ) : Except PyError DataPath := do
  match policy with
  | some policy => rt.planPolicy policy sliceBytes dstPtr
  | none =>
    if rt.config.enableFusedPath then
      rt.checkFusedLaunchCapacity rt.config.fusedNumChannels
      pure (.fused rt.config.fusedNumChannels rt.config.fusedChunkSize)
    else if chunks ≤ 1 then
      if rt.tmaEnabled then
        preflightTmaCollective sliceBytes 0 dstPtr
      if rt.copyEngineEnabled then pure (.oneShot .copyEngine)
      else if rt.tmaEnabled then pure (.oneShot .tma)
      else pure (.oneShot (.vec rt.copySms))
    else pure (.pipelined chunks)

/-- Carry a decision out. -/
def perform (a : CollectiveArgs) : DataPath → rt.M Unit
  | .oneShot e => rt.oneShot a e
  | .fused numChannels chunkBytes => rt.fusedPath a numChannels chunkBytes
  | .pipelined chunks => rt.pipelined a chunks

variable {rt} {a : CollectiveArgs} {s : RuntimeState rt.rank rt.worldSize}

theorem run_ofExcept_bind {α β σ : Type} {x : Except PyError α} {f : α → EStateM PyError σ β}
    {s : σ} : (MonadExcept.ofExcept x >>= f : EStateM PyError σ β).run s =
      match x with
      | .ok a => (f a).run s
      | .error e => .error e s := by
  cases x <;> rfl

theorem run_dispatch {policy : Policy} : (rt.dispatch a policy).run s =
    match rt.planPolicy policy a.sliceBytes a.output.dataPtr with
    | .ok path => (rt.perform a path).run s
    | .error e => .error e s := by
  unfold dispatch planPolicy
  rw [run_ofExcept_bind]
  cases rt.autotunePathGuard policy a.sliceBytes 0 a.output.dataPtr with
  | error e => rfl
  | ok _ => cases rt.resolvedPath policy a.sliceBytes <;> rfl

/-- **A collective decides, then acts.** -/
theorem run_collective {policy : Option Policy} {chunks : ℕ} :
    (rt.collective a policy chunks).run s =
      match rt.plan policy chunks a.sliceBytes a.output.dataPtr with
      | .ok path => (rt.perform a path).run s
      | .error e => .error e s := by
  unfold collective plan
  cases policy with
  | some policy => exact run_dispatch
  | none =>
    dsimp only
    split
    case isTrue =>
      rw [run_ofExcept_bind]
      cases rt.checkFusedLaunchCapacity rt.config.fusedNumChannels <;> rfl
    case isFalse =>
      split
      case isTrue =>
        cases htma : rt.tmaEnabled
        case false => cases hce : rt.copyEngineEnabled <;> rfl
        case true =>
          simp only [if_true]
          rw [run_ofExcept_bind]
          cases preflightTmaCollective a.sliceBytes 0 a.output.dataPtr with
          | error e => rfl
          | ok _ => cases hce : rt.copyEngineEnabled <;> rfl
      case isFalse => rfl

/-! ## What the paths leave behind -/

variable (rt) in
/-- A barrier of the group of a call. -/
def barrierItem (a : CollectiveArgs) (epoch : ℕ) : Item :=
  ⟨a.call, .main, .barrier a.row (rt.token a.group.groupId epoch)⟩

/-- Kernels of a call. -/
def kernelItems (a : CollectiveArgs) (stream : StreamId) (ks : List (List (Op DataAct))) :
    List Item :=
  ks.map fun ops => ⟨a.call, stream, .kernel ops⟩

variable (rt) in
/-- What `oneShot` enqueues before its copy. -/
def oneShotPrefix (a : CollectiveArgs) (epoch : ℕ) : List Item :=
  [⟨a.call, .main, .kernel (rt.stage a)⟩, rt.barrierItem a epoch]

variable (rt) in
/-- What a pipeline chunk enqueues, given the kernel of its pull. -/
def chunkItems (a : CollectiveArgs) (k offset size epoch : ℕ) (ops : List (Op DataAct)) :
    List Item :=
  kernelItems a .copy (rt.stageChunk a offset size) ++
    [⟨a.call, .copy, .record (k + 1)⟩, ⟨a.call, .main, .wait (k + 1)⟩, rt.barrierItem a epoch,
      ⟨a.call, .main, .kernel ops⟩]

variable {e : Engine} {numChannels chunkBytes : ℤ}

/-- The one-shot path: a launch that fails leaves the staging and the pre-barrier. -/
theorem run_oneShot (hG : 0 < a.group.size) : (rt.oneShot a e).run s =
    match rt.launchOneShot a e with
    | .ok ks => .ok () ((s.advance a.group.groupId 2).push
        (rt.oneShotPrefix a (s.epochs.peek a.group.groupId) ++ kernelItems a .main ks ++
          [rt.barrierItem a (s.epochs.peek a.group.groupId + 1)]))
    | .error err => .error err ((s.advance a.group.groupId 2).push
        (rt.oneShotPrefix a (s.epochs.peek a.group.groupId))) := by
  unfold oneShot
  rw [run_bind_of_ok run_nextPairForCollective, run_bind_of_ok run_enqueue,
    run_bind_of_ok (run_barrierOn hG), run_ofExcept_bind, RuntimeState.push_push]
  cases rt.launchOneShot a e with
  | error err => rfl
  | ok ks =>
    dsimp only
    rw [run_bind_of_ok run_enqueueKernels, run_barrierOn hG, RuntimeState.push_push,
      RuntimeState.push_push]
    rfl

/-- The fused path: a launch that fails leaves the pre-barrier. -/
theorem run_fusedPath (hG : 0 < a.group.size) : (rt.fusedPath a numChannels chunkBytes).run s =
    match (rt.fusedArgs a numChannels chunkBytes
      (rt.token a.group.groupId (s.epochs.peek a.group.groupId + 1))).launch a.kind with
    | .ok ops => .ok () ((s.advance a.group.groupId 3).push
        [rt.barrierItem a (s.epochs.peek a.group.groupId), ⟨a.call, .main, .kernel ops⟩,
          rt.barrierItem a (s.epochs.peek a.group.groupId + 2)])
    | .error err => .error err ((s.advance a.group.groupId 3).push
        [rt.barrierItem a (s.epochs.peek a.group.groupId)]) := by
  unfold fusedPath
  rw [run_bind_of_ok run_nextForBarrier, run_bind_of_ok run_nextForBarrier,
    run_bind_of_ok run_nextForBarrier, run_bind_of_ok (run_barrierOn hG), run_ofExcept_bind]
  simp only [RuntimeState.advance_epochs, EpochManager.peek_advance_self,
    RuntimeState.advance_advance]
  cases (rt.fusedArgs a numChannels chunkBytes
      (rt.token a.group.groupId (s.epochs.peek a.group.groupId + 1))).launch a.kind with
  | error err => rfl
  | ok ops =>
    dsimp only
    rw [run_bind_of_ok run_enqueue, run_barrierOn hG, RuntimeState.push_push,
      RuntimeState.push_push]
    rfl

/-! ## Vector launches -/

variable (rt) in
/-- The kernel of the pull of a one-shot collective. -/
def oneShotPull (a : CollectiveArgs) (copySms : ℤ) : List (Op DataAct) :=
  ((rt.oneShotPullArgs a copySms).kernelArgs a.sliceBytes).pullKernel
    (a.kind.srcOffset a.selfLocalIndex a.sliceBytes)

variable (rt) in
/-- The kernel of the pull of a pipeline chunk. -/
def chunkPull (a : CollectiveArgs) (offset size : ℕ) : List (Op DataAct) :=
  ((rt.chunkPullArgs a offset size).kernelArgs size).pullKernel
    (a.kind.srcOffset a.selfLocalIndex a.sliceBytes)

/-- When a vector launch passes its checks. -/
theorem launchPull_oneShot_eq_ok_iff {copySms : ℤ} {ops : List (Op DataAct)} :
    launchPull a.kind (rt.oneShotPullArgs a copySms) = .ok ops ↔
      (0 < a.sliceBytes ∧ 0 < a.row.length ∧ 0 < copySms) ∧ ops = rt.oneShotPull a copySms := by
  unfold launchPull oneShotPull
  cases a.kind with
  | allGather =>
    simp only [PullLaunchArgs.launchAllGatherPull, pyAssert_bind_ok_iff, decide_eq_true_eq]
    constructor
    · rintro ⟨hslice, hrow, hsms, -, hops⟩
      exact ⟨⟨hslice, hrow, hsms⟩, (Except.ok.inj hops).symm⟩
    · rintro ⟨⟨hslice, hrow, hsms⟩, rfl⟩
      exact ⟨hslice, hrow, hsms, le_refl _, rfl⟩
  | all2All =>
    simp only [PullLaunchArgs.launchAll2AllPull, pyAssert_bind_ok_iff, decide_eq_true_eq]
    constructor
    · rintro ⟨hslice, -, -, hrow, hsms, hops⟩
      exact ⟨⟨hslice, hrow, hsms⟩, (Except.ok.inj hops).symm⟩
    · rintro ⟨⟨hslice, hrow, hsms⟩, rfl⟩
      exact ⟨hslice, le_refl _, le_refl _, hrow, hsms, rfl⟩

/-- The launch of a pipeline chunk passes its checks. -/
theorem launchPull_chunk {offset size : ℕ} (hsize : 0 < size) (hle : size ≤ a.sliceBytes)
    (hrow : 0 < a.row.length) :
    launchPull a.kind (rt.chunkPullArgs a offset size) = .ok (rt.chunkPull a offset size) := by
  have hsms : (0 : ℤ) < rt.copySms := Int.natCast_pos.mpr rt.copySms_pos
  unfold launchPull chunkPull
  rcases a with ⟨call, kind, input, output, group, row, slice⟩
  cases kind with
  | allGather =>
    simp only [PullLaunchArgs.launchAllGatherPull, pyAssert_bind_ok_iff, decide_eq_true_eq]
    exact ⟨hsize, hrow, hsms, hle, rfl⟩
  | all2All =>
    simp only [PullLaunchArgs.launchAll2AllPull, pyAssert_bind_ok_iff, decide_eq_true_eq]
    exact ⟨hsize, hle, hle, hrow, hsms, rfl⟩

/-! ## The pipelined path -/

theorem run_pipelineChunk {k offset size epoch : ℕ} (hG : 0 < a.group.size) (hsize : 0 < size)
    (hle : size ≤ a.sliceBytes) (hrow : 0 < a.row.length) :
    (rt.pipelineChunk a k offset size (rt.token a.group.groupId epoch)).run s =
      .ok () (s.push (rt.chunkItems a k offset size epoch (rt.chunkPull a offset size))) := by
  unfold pipelineChunk
  rw [run_bind_of_ok run_enqueueKernels, run_bind_of_ok run_enqueue, run_bind_of_ok run_enqueue,
    run_bind_of_ok (run_barrierOn hG), run_ofExcept_bind, launchPull_chunk hsize hle hrow]
  dsimp only
  rw [run_enqueue]
  simp only [RuntimeState.push_push, List.append_assoc]
  rfl

/-- A list of calls of `next_for_barrier` takes consecutive epochs. -/
theorem run_nextForBarrier_mapM {α : Type} (l : List α) (gid : ℤ) :
    (l.mapM fun _ => rt.nextForBarrier gid).run s =
      .ok ((List.range l.length).map (s.epochs.peek gid + ·)) (s.advance gid l.length) := by
  induction l generalizing s with
  | nil =>
    show EStateM.Result.ok [] s = _
    rw [List.length_nil, RuntimeState.advance_zero]
    rfl
  | cons x l ih =>
    rw [List.mapM_cons, run_bind_of_ok run_nextForBarrier, run_bind_of_ok ih]
    show EStateM.Result.ok _ _ = _
    rw [RuntimeState.advance_epochs, EpochManager.peek_advance_self, RuntimeState.advance_advance,
      List.length_cons, List.range_succ_eq_map, List.map_cons, List.map_map, Nat.add_comm 1]
    congr 2
    exact List.map_congr_left fun i _ => show _ + 1 + i = _ + (i + 1) by omega

/-- Numbering a list that carries consecutive epochs. -/
theorem zipIdx_zip_epochs {α : Type} (l : List α) (e : ℕ) :
    (l.zip ((List.range l.length).map (e + ·))).zipIdx =
      l.zipIdx.map fun x => ((x.1, e + x.2), x.2) := by
  rw [← List.range'_eq_map_range, ← List.zipIdx_eq_zip_range']
  ext1 k
  simp only [List.getElem?_zipIdx, List.getElem?_map, Option.map_map, Nat.zero_add]
  rfl

variable (rt) in
/-- What the pipelined path enqueues. -/
def pipelinedItems (a : CollectiveArgs) (layout : List (ℕ × ℕ)) (epoch : ℕ) : List Item :=
  [⟨a.call, .main, .record 0⟩, ⟨a.call, .copy, .wait 0⟩] ++
    (layout.zipIdx.flatMap fun ((offset, size), k) =>
      rt.chunkItems a k offset size (epoch + k) (rt.chunkPull a offset size)) ++
    [rt.barrierItem a (epoch + layout.length)]

/-- **The pipelined path never fails** for the chunk counts it is called with. -/
theorem run_pipelined {chunks : ℕ} (hG : 0 < a.group.size) (hrow : 0 < a.row.length)
    (hc : 1 ≤ chunks) (hmax : chunks ≤ rt.config.maxPipelineChunks) (hslice : 0 < a.sliceBytes) :
    (rt.pipelined a chunks).run s =
      let layout := layoutChunks a.sliceBytes chunks rt.config.alignment
      .ok () ((s.advance a.group.groupId (layout.length + 1)).push
        (rt.pipelinedItems a layout (s.epochs.peek a.group.groupId))) := by
  obtain ⟨hcont, hlen⟩ := layoutChunks_contiguous rt.config.alignment_pow hc hslice
  have hcheck : (layoutChunks a.sliceBytes chunks rt.config.alignment).length ≤
      rt.config.maxPipelineChunks := le_trans hlen hmax
  dsimp only
  unfold pipelined pipelinedItems
  rw [run_ofExcept_bind, chunkLayout_eq hc]
  generalize layoutChunks a.sliceBytes chunks rt.config.alignment = layout at hcont hcheck ⊢
  have hround : ∀ x ∈ (layout.zip ((List.range layout.length).map
      (s.epochs.peek a.group.groupId + ·))).zipIdx, ∀ s : RuntimeState rt.rank rt.worldSize,
      (rt.pipelineChunk a x.2 x.1.1.1 x.1.1.2 (rt.token a.group.groupId x.1.2)).run s =
        .ok () (s.push (rt.chunkItems a x.2 x.1.1.1 x.1.1.2 x.1.2
          (rt.chunkPull a x.1.1.1 x.1.1.2))) := by
    intro x hx s
    obtain ⟨-, hpos, hle⟩ := hcont.bounds (List.of_mem_zip (List.fst_mem_of_mem_zipIdx hx)).1
    exact run_pipelineChunk hG hpos (le_trans (Nat.le_add_left _ _) hle) hrow
  dsimp only
  rw [run_bind_of_ok (by rw [run_require, if_pos (decide_eq_true hcheck)]),
    run_bind_of_ok (run_nextForBarrier_mapM layout a.group.groupId),
    run_bind_of_ok run_nextForBarrier, run_bind_of_ok run_enqueue, run_bind_of_ok run_enqueue,
    run_bind_of_ok (run_forM_push hround), run_barrierOn hG]
  simp only [RuntimeState.advance_epochs, EpochManager.peek_advance_self, RuntimeState.push_push,
    RuntimeState.advance_advance, zipIdx_zip_epochs, List.flatMap_map]
  rfl

end Runtime

end GroupFreeCollectives
