import GroupFreeCollectives.Runtime.Chunks
import GroupFreeCollectives.Kernels.Fused

/-!
# `barrier`, `all_gather` and `all2all`

The collective entries of `gfc/runtime.py`, with the autotune dispatch.  The bodies of
`all_gather` and `all2all`, and those of the two dispatch methods, differ in the
staging, in the launchers they call and in the addresses they pick a vector width for;
they are one definition each with the collective as a parameter.  `comm_buf_offset` is
0 throughout.

A launch either fails its checks, before anything is enqueued by it, or yields the
kernels to enqueue.
-/

namespace GroupFreeCollectives

open Tiling

/-- A collective that has passed its entry checks, with the rank list of its group on
the device. -/
structure CollectiveArgs where
  call : ℕ
  kind : Collective
  input : Tensor
  output : Tensor
  group : GroupDescriptor
  row : List ℕ
  sliceBytes : ℕ

/-- `group.local_index` of a member. -/
def CollectiveArgs.selfLocalIndex (a : CollectiveArgs) : ℕ := a.group.localIndex.toNat

/-- How a one-shot collective copies. -/
inductive Engine where
  | copyEngine
  | tma
  | vec (copySms : ℤ)
  deriving DecidableEq, Repr

namespace Runtime

variable (rt : Runtime)

/-! ## Entry checks -/

/-- The name of a collective in messages. -/
def kindName : Collective → String
  | .allGather => "all_gather"
  | .all2All => "all2all"

/-- `_validate_collective_args`. -/
def validateCollectiveArgs (kind : Collective) (input output : Tensor) (group : GroupDescriptor) :
    Except PyError Unit := do
  let kindStr := kindName kind
  let ranks := pyTuple (group.ranks.map Int.ofNat)
  let size := group.size
  let maxGroupSize := rt.config.maxGroupSize
  let maxBytes := rt.config.maxCollectiveBytes
  let device := rt.device
  let inputDevice := input.device
  let outputDevice := output.device
  let inputBytes := input.nbytes
  let outputBytes := output.nbytes
  require (0 ≤ group.localIndex) s!"this rank is not a member of group {ranks}"
  require (size ≤ maxGroupSize) s!"group.size={size} > max_group_size={maxGroupSize}"
  require (input.isCuda ∧ output.isCuda) s!"{kindStr}: tensors must be on CUDA"
  require (inputDevice = device) s!"{kindStr}: input on {inputDevice}, runtime on {device}"
  require (outputDevice = device) s!"{kindStr}: output on {outputDevice}, runtime on {device}"
  require input.isContiguous s!"{kindStr}: input must be contiguous"
  require output.isContiguous s!"{kindStr}: output must be contiguous"
  match kind with
  | .allGather =>
    require (inputBytes ≤ maxBytes)
      s!"{kindStr}: input.nbytes {inputBytes} > max_collective_bytes {maxBytes}"
  | .all2All =>
    require (outputBytes ≤ maxBytes)
      s!"{kindStr}: output.nbytes {outputBytes} > max_collective_bytes {maxBytes}"

/-- The checks of `all_gather` before it takes the lock, and its slice size. -/
def allGatherEntry (input output : Tensor) (group : GroupDescriptor) : Except PyError ℕ := do
  rt.validateCollectiveArgs .allGather input output group
  let outputBytes := output.nbytes
  let total := group.size * input.nbytes
  require (output.nbytes = total)
    s!"output size {outputBytes} != group.size * input.nbytes {total} (exact: floor-division would let an oversized output leave a tail untouched)"
  pure input.nbytes

/-- The checks of `all2all` before it takes the lock, and its slice size. -/
def all2AllEntry (input output : Tensor) (group : GroupDescriptor) (sliceBytes : Option ℤ) :
    Except PyError ℕ := do
  rt.validateCollectiveArgs .all2All input output group
  let inputBytes := input.nbytes
  let outputBytes := output.nbytes
  let size := group.size
  let maxBytes := rt.config.maxCollectiveBytes
  require (inputBytes = outputBytes)
    s!"all2all: input.nbytes={inputBytes} output.nbytes={outputBytes}"
  let sliceBytes : ℤ ← match sliceBytes with
    | some n => pure n
    | none => do
      require (inputBytes % size = 0)
        s!"all2all: input.nbytes={inputBytes} not divisible by group.size={size}"
      pure ((inputBytes / size : ℕ) : ℤ)
  require (0 < sliceBytes) "all2all: slice_bytes must be > 0"
  let total := sliceBytes * size
  require ((inputBytes : ℤ) = total)
    s!"all2all: input.nbytes={inputBytes} != slice_bytes*group.size={total}"
  require (total ≤ maxBytes)
    s!"all2all: slice_bytes*group.size = {total} > max_collective_bytes {maxBytes}"
  pure sliceBytes.toNat

/-- `_check_fused_launch_capacity`. -/
def checkFusedLaunchCapacity (numChannels : ℤ) : Except PyError Unit := do
  require (0 < numChannels) "fused_num_channels must be > 0"
  let requiredCtas := 2 * numChannels
  let sms := rt.numSms
  require (requiredCtas ≤ sms)
    s!"fused path requires 2*fused_num_channels={requiredCtas} CTAs to co-reside, but this device has {sms} SMs; lower fused_num_channels or disable the fused path"

/-- `_preflight_tma_collective`. -/
def preflightTmaCollective (sliceBytes commBufOffset dstPtr : ℕ) : Except PyError Unit :=
  checkCollectiveTmaGates sliceBytes commBufOffset dstPtr defaultTileBytes

/-! ## Staging -/

/-- The staging of a one-shot collective: everything the members will pull goes to the
own `comm_buf`. -/
def stage (a : CollectiveArgs) : List (Op DataAct) :=
  copyOps (fun b => .input rt.rank a.call b) (fun b => .comm rt.rank b)
    (a.kind.stagedBytes a.group.size a.sliceBytes)

/-- The staging of a pipeline chunk: one copy for `all_gather`, one for each slice for
`all2all`. -/
def stageChunk (a : CollectiveArgs) (offset size : ℕ) : List (List (Op DataAct)) :=
  match a.kind with
  | .allGather =>
    [copyOps (fun b => .input rt.rank a.call (offset + b)) (fun b => .comm rt.rank (offset + b))
      size]
  | .all2All =>
    (List.range a.group.size).map fun peerIdx =>
      copyOps (fun b => .input rt.rank a.call (peerIdx * a.sliceBytes + offset + b))
        (fun b => .comm rt.rank (peerIdx * a.sliceBytes + offset + b)) size

/-! ## Launches -/

/-- The vector width of a one-shot pull. -/
def oneShotVec (a : CollectiveArgs) : ℕ :=
  vecFor [(rt.localPtr : ℤ), (a.output.dataPtr : ℤ)] a.sliceBytes

/-- The vector width of the pull of a pipeline chunk, which also divides the stride
between the peers' segments. -/
def chunkVec (a : CollectiveArgs) (offset size : ℕ) : ℕ :=
  match a.kind with
  | .allGather =>
    vecFor [((rt.localPtr + offset : ℕ) : ℤ), ((a.output.dataPtr + offset : ℕ) : ℤ),
      (a.sliceBytes : ℤ)] size
  | .all2All =>
    vecFor [((rt.localPtr + a.selfLocalIndex * a.sliceBytes + offset : ℕ) : ℤ),
      ((a.output.dataPtr + offset : ℕ) : ℤ), (a.sliceBytes : ℤ)] size

/-- The arguments of the vector pull of a one-shot collective. -/
def oneShotPullArgs (a : CollectiveArgs) (copySms : ℤ) : PullLaunchArgs where
  call := a.call
  selfGlobalRank := rt.rank
  groupRanks := a.row
  dstOffset := 0
  commBufOffset := 0
  selfLocalIndex := a.selfLocalIndex
  sliceBytes := a.sliceBytes
  vecBytes := rt.oneShotVec a
  numSms := copySms

/-- The arguments of the vector pull of a pipeline chunk. -/
def chunkPullArgs (a : CollectiveArgs) (offset size : ℕ) : PullLaunchArgs where
  call := a.call
  selfGlobalRank := rt.rank
  groupRanks := a.row
  dstOffset := offset
  commBufOffset := offset
  selfLocalIndex := a.selfLocalIndex
  sliceBytes := match a.kind with
    | .allGather => size
    | .all2All => a.sliceBytes
  vecBytes := rt.chunkVec a offset size
  numSms := rt.copySms
  copyBytes := match a.kind with
    | .allGather => none
    | .all2All => some size
  srcSliceStride := match a.kind with
    | .allGather => none
    | .all2All => some a.sliceBytes
  dstStrideBytes := some a.sliceBytes

/-- The vector launcher of a collective. -/
def launchPull (kind : Collective) (p : PullLaunchArgs) : Except PyError (List (Op DataAct)) :=
  match kind with
  | .allGather => p.launchAllGatherPull
  | .all2All => p.launchAll2AllPull

/-- The arguments of the TMA pull. -/
def tmaArgs (a : CollectiveArgs) : TmaLaunchArgs where
  call := a.call
  selfGlobalRank := rt.rank
  groupRanks := a.row
  dstPtr := a.output.dataPtr
  commBufOffset := 0
  selfLocalIndex := a.selfLocalIndex
  sliceBytes := a.sliceBytes
  numSms := rt.numSms

/-- The copy between the barriers of a one-shot collective. -/
def launchOneShot (a : CollectiveArgs) (e : Engine) :
    Except PyError (List (List (Op DataAct))) := do
  match e with
  | .copyEngine =>
    match a.kind with
    | .allGather =>
      pure (launchAllGatherCopyEngine a.call rt.rank a.group.ranks 0 a.selfLocalIndex a.sliceBytes)
    | .all2All =>
      pure (launchAll2AllCopyEngine a.call rt.rank a.group.ranks 0 a.selfLocalIndex a.sliceBytes)
  | .tma =>
    match a.kind with
    | .allGather => pure [← (rt.tmaArgs a).launchAllGatherTma]
    | .all2All => pure [← (rt.tmaArgs a).launchAll2AllTma]
  | .vec copySms => pure [← launchPull a.kind (rt.oneShotPullArgs a copySms)]

/-- The arguments of a fused launch. -/
def fusedArgs (a : CollectiveArgs) (numChannels chunkBytes : ℤ) (stepBase : ℕ) :
    FusedLaunchArgs where
  call := a.call
  groupRanks := a.row
  inputPtr := a.input.dataPtr
  outputPtr := a.output.dataPtr
  commBufOffset := 0
  selfGlobalRank := rt.rank
  selfLocalIndex := a.selfLocalIndex
  sliceBytes := a.sliceBytes
  worldSize := rt.worldSize
  maxChunksPerChannel := rt.config.fusedMaxChunksPerChannel
  numChannels := numChannels
  chunkBytes := chunkBytes
  stepBase := stepBase
  alignment := rt.config.alignment

/-! ## The data paths -/

/-- Stage, pre-barrier, copy, post-barrier. -/
def oneShot (a : CollectiveArgs) (e : Engine) : rt.M Unit := do
  let gid := a.group.groupId
  let (preE, postE) ← rt.nextPairForCollective gid
  rt.enqueue a.call .main (.kernel (rt.stage a))
  rt.barrierOn a.call a.group a.row (rt.token gid preE)
  let ks ← MonadExcept.ofExcept (rt.launchOneShot a e)
  rt.enqueueKernels a.call .main ks
  rt.barrierOn a.call a.group a.row (rt.token gid postE)

/-- Pre-barrier, the fused kernel, post-barrier. -/
def fusedPath (a : CollectiveArgs) (numChannels chunkBytes : ℤ) : rt.M Unit := do
  let gid := a.group.groupId
  let preE ← rt.nextForBarrier gid
  let stepBaseE ← rt.nextForBarrier gid
  let postE ← rt.nextForBarrier gid
  rt.barrierOn a.call a.group a.row (rt.token gid preE)
  let ops ← MonadExcept.ofExcept
    ((rt.fusedArgs a numChannels chunkBytes (rt.token gid stepBaseE)).launch a.kind)
  rt.enqueue a.call .main (.kernel ops)
  rt.barrierOn a.call a.group a.row (rt.token gid postE)

/-- Chunk `k` of a pipelined collective: its staging on the copy stream, and on the main
stream, once that is done, its pre-barrier and its pull. -/
def pipelineChunk (a : CollectiveArgs) (k offset size tok : ℕ) : rt.M Unit := do
  rt.enqueueKernels a.call .copy (rt.stageChunk a offset size)
  rt.enqueue a.call .copy (.record (k + 1))
  rt.enqueue a.call .main (.wait (k + 1))
  rt.barrierOn a.call a.group a.row tok
  let ops ← MonadExcept.ofExcept (launchPull a.kind (rt.chunkPullArgs a offset size))
  rt.enqueue a.call .main (.kernel ops)

/-- `_all_gather_pipelined` and `_all2all_pipelined`.  Event 0 forks the copy stream off
the main stream; event `k + 1` ends the staging of chunk `k`. -/
def pipelined (a : CollectiveArgs) (chunks : ℕ) : rt.M Unit := do
  let gid := a.group.groupId
  let layout ← MonadExcept.ofExcept (chunkLayout a.sliceBytes chunks rt.config.alignment)
  let actualChunks := layout.length
  let maxChunks := rt.config.maxPipelineChunks
  let kindStr := kindName a.kind
  require (actualChunks ≤ maxChunks)
    s!"chunked {kindStr}: actual_chunks={actualChunks} > max={maxChunks}"
  let preEpochs ← layout.mapM fun _ => rt.nextForBarrier gid
  let postE ← rt.nextForBarrier gid
  rt.enqueue a.call .main (.record 0)
  rt.enqueue a.call .copy (.wait 0)
  forM (layout.zip preEpochs).zipIdx fun ((⟨offset, size⟩, e), k) =>
    rt.pipelineChunk a k offset size (rt.token gid e)
  rt.barrierOn a.call a.group a.row (rt.token gid postE)

/-! ## The autotune dispatch -/

/-- `_autotune_path_guard`. -/
def autotunePathGuard (policy : Policy) (sliceBytes commBufOffset dstPtr : ℕ) :
    Except PyError Unit := do
  match policy.path with
  | .tma =>
    require rt.tmaEnabled
      "autotune selected path 'tma' but TMA is not enabled (use_tma=False or the TMA probe did not pass); refusing to launch the TMA kernel on an unverified path"
    preflightTmaCollective sliceBytes commBufOffset dstPtr
  | .fused =>
    let cfg := rt.config
    let provisioned := cfg.fusedNumChannels
    let alignment := cfg.alignment
    let bound := cfg.fusedMaxChunksPerChannel
    let numChannels := policy.knobs.fusedNumChannels.getD provisioned
    let chunkSize := policy.knobs.fusedChunkSize.getD cfg.fusedChunkSize
    require (0 < numChannels) "autotune fused_num_channels must be > 0"
    rt.checkFusedLaunchCapacity numChannels
    require (numChannels ≤ provisioned)
      s!"autotune fused_num_channels={numChannels} exceeds the allocated config.fused_num_channels={provisioned}; step_pad is sized from config.fused_num_channels (it backs the symmetric step grid) — raise it in the runtime config to use more channels"
    require (0 < chunkSize) "autotune fused_chunk_size must be > 0"
    require (chunkSize % alignment = 0)
      s!"autotune fused_chunk_size={chunkSize} must be a multiple of alignment={alignment}; otherwise chunk bases at k*fused_chunk_size lose vector alignment and the fused kernel's vectorized stores fault"
    let partitionBytes := alignUp (cdiv sliceBytes numChannels.toNat) alignment
    let nChunks := cdiv partitionBytes chunkSize.toNat
    require (nChunks ≤ bound)
      s!"autotune fused config yields {nChunks} chunks/channel for slice_bytes={sliceBytes} (channels={numChannels}, chunk_size={chunkSize}) > static bound {bound}; raise fused_chunk_size or max_collective_bytes"
  | _ => pure ()

/-- The chunks of a `pipelined` policy. -/
def policyChunks (policy : Policy) (sliceBytes : ℕ) : ℕ :=
  rt.effectivePipelineChunks sliceBytes (some (policy.knobs.pipelineChunks.getD 2))

/-- The path a policy takes: `pipelined` falls back to `vec_pull` when its chunks
collapse to one. -/
def resolvedPath (policy : Policy) (sliceBytes : ℕ) : Path :=
  if policy.path = .pipelined ∧ rt.policyChunks policy sliceBytes ≤ 1 then .vecPull
  else policy.path

/-- `_dispatch_all_gather` and `_dispatch_all2all`. -/
def dispatch (a : CollectiveArgs) (policy : Policy) : rt.M Unit := do
  MonadExcept.ofExcept (rt.autotunePathGuard policy a.sliceBytes 0 a.output.dataPtr)
  match rt.resolvedPath policy a.sliceBytes with
  | .fused =>
    rt.fusedPath a (policy.knobs.fusedNumChannels.getD rt.config.fusedNumChannels)
      (policy.knobs.fusedChunkSize.getD rt.config.fusedChunkSize)
  | .pipelined => rt.pipelined a (rt.policyChunks policy a.sliceBytes)
  | .copyEngine => rt.oneShot a .copyEngine
  | .tma => rt.oneShot a .tma
  | .vecPull => rt.oneShot a (.vec (policy.knobs.copySms.getD rt.copySms))

/-! ## The entries -/

/-- What `all_gather` and `all2all` do under the lock once they have the rank list. -/
def collective (a : CollectiveArgs) (policy : Option Policy) (chunks : ℕ) : rt.M Unit := do
  match policy with
  | some policy => rt.dispatch a policy
  | none =>
    if rt.config.enableFusedPath then
      MonadExcept.ofExcept (rt.checkFusedLaunchCapacity rt.config.fusedNumChannels)
      rt.fusedPath a rt.config.fusedNumChannels rt.config.fusedChunkSize
    else if chunks ≤ 1 then
      if rt.tmaEnabled then
        MonadExcept.ofExcept (preflightTmaCollective a.sliceBytes 0 a.output.dataPtr)
      if rt.copyEngineEnabled then rt.oneShot a .copyEngine
      else if rt.tmaEnabled then rt.oneShot a .tma
      else rt.oneShot a (.vec rt.copySms)
    else rt.pipelined a chunks

/-- The policy for a call, if there is a table. -/
def policyFor (kind : Collective) (group : GroupDescriptor) (sliceBytes : ℕ) : Option Policy :=
  rt.autotune.bind fun t => t.policyFor kind group.size sliceBytes

/-- What both collectives do after their entry checks. -/
def submitCollective (call : ℕ) (kind : Collective) (current : StreamId) (input output : Tensor)
    (group : GroupDescriptor) (sliceBytes : ℕ) (pipelineChunks : Option ℤ) : rt.M Unit := do
  let chunks := rt.effectivePipelineChunks sliceBytes pipelineChunks
  let policy := rt.policyFor kind group sliceBytes
  rt.ingestUserTensors call current
  let row ← rt.groupRanksRow group
  rt.collective ⟨call, kind, input, output, group, row, sliceBytes⟩ policy chunks

/-- `all_gather`, called with `current` as the caller's current stream. -/
def allGather (call : ℕ) (current : StreamId) (input output : Tensor) (group : GroupDescriptor)
    (pipelineChunks : Option ℤ) : rt.M Unit := do
  let sliceBytes ← MonadExcept.ofExcept (rt.allGatherEntry input output group)
  rt.submitCollective call .allGather current input output group sliceBytes pipelineChunks

/-- `all2all`, called with `current` as the caller's current stream. -/
def all2All (call : ℕ) (current : StreamId) (input output : Tensor) (group : GroupDescriptor)
    (sliceBytes pipelineChunks : Option ℤ) : rt.M Unit := do
  let sliceBytes ← MonadExcept.ofExcept (rt.all2AllEntry input output group sliceBytes)
  rt.submitCollective call .all2All current input output group sliceBytes pipelineChunks

/-- The checks of `barrier` before it takes the lock. -/
def barrierEntry (group : GroupDescriptor) : Except PyError Unit := do
  let size := group.size
  let maxGroupSize := rt.config.maxGroupSize
  require (0 ≤ group.localIndex) "this rank is not a member of the group"
  require (size ≤ maxGroupSize) s!"group.size={size} > max_group_size={maxGroupSize}"

/-- `barrier`. -/
def barrier (call : ℕ) (group : GroupDescriptor) : rt.M Unit := do
  MonadExcept.ofExcept (rt.barrierEntry group)
  let row ← rt.groupRanksRow group
  let epoch ← rt.nextForBarrier group.groupId
  rt.barrierOn call group row (rt.token group.groupId epoch)

end Runtime

/-! ## Calls -/

/-- A call of `all_gather` or `all2all`, apart from the group. -/
inductive DataCall where
  | allGather (input output : Tensor) (pipelineChunks : Option ℤ)
  | all2All (input output : Tensor) (sliceBytes pipelineChunks : Option ℤ)

namespace DataCall

/-- The collective. -/
def kind : DataCall → Collective
  | .allGather .. => .allGather
  | .all2All .. => .all2All

/-- The argument `input_`. -/
def input : DataCall → Tensor
  | .allGather input _ _ => input
  | .all2All input _ _ _ => input

/-- The argument `output`. -/
def output : DataCall → Tensor
  | .allGather _ output _ => output
  | .all2All _ output _ _ => output

/-- The argument `pipeline_chunks`. -/
def pipelineChunks : DataCall → Option ℤ
  | .allGather _ _ chunks => chunks
  | .all2All _ _ _ chunks => chunks

variable (rt : Runtime) (call : ℕ) (current : StreamId) (group : GroupDescriptor)

/-- The entry checks of the call, and its slice size. -/
def entry : DataCall → Except PyError ℕ
  | .allGather input output _ => rt.allGatherEntry input output group
  | .all2All input output sliceBytes _ => rt.all2AllEntry input output group sliceBytes

/-- Make the call. -/
def submit : DataCall → rt.M Unit
  | .allGather input output chunks => rt.allGather call current input output group chunks
  | .all2All input output sliceBytes chunks =>
    rt.all2All call current input output group sliceBytes chunks

end DataCall

/-- A call of a collective entry, apart from the group. -/
inductive CollectiveCall where
  | barrier
  | data (c : DataCall)

/-- Make the call. -/
def CollectiveCall.submit (rt : Runtime) (call : ℕ) (current : StreamId)
    (group : GroupDescriptor) : CollectiveCall → rt.M Unit
  | .barrier => rt.barrier call group
  | .data c => c.submit rt call current group

end GroupFreeCollectives
