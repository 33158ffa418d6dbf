import GroupFreeCollectives.Runtime.Collectives

/-!
# Registration and the p2p calls

`register_group`, `unregister_group`, `shutdown` and the p2p entries of
`gfc/runtime.py`.  The parts that hold the lock are definitions of their own
(`registerLocked`, `unregisterGroup`, `p2pLocked`), because other threads may run
between two of them.

`gathered` is what `all_gather_object` returns in the debug check of a registration.
-/

namespace GroupFreeCollectives

/-! ## The registry under the lock -/

namespace Registry

variable {rank worldSize : ℕ} (reg : Registry rank worldSize)

/-- What `register_group` does under the lock: the descriptor, whether it is new, and the
registry. -/
def register (gid : ℤ) (l : RankList worldSize) :
    Except PyError ((GroupDescriptor × Bool) × Registry rank worldSize) :=
  match h : reg.registered gid with
  | some existing =>
    let old := pyTuple (existing.ranks.map Int.ofNat)
    let new := pyTuple (l.ranks.map Int.ofNat)
    if existing.ranks = l.ranks then .ok ((existing, false), reg)
    else .error (.valueError
      s!"group_id {pyHex gid} already registered with ranks {old}; refusing to reuse it for {new}")
  | none => .ok ((reg.newDesc gid l, true), reg.add gid l h)

/-- What `unregister_group` does under the lock. -/
def unregister (g : GroupDescriptor) : Registry rank worldSize :=
  if h : reg.registered g.groupId = some g then reg.release g h else reg

/-- What `shutdown` does: the rank lists of the registered groups are dropped, and the
map is cleared. -/
def clear : Registry rank worldSize where
  descs := reg.descs
  registered _ := none
  ranksDev h :=
    match reg.descs[h]? with
    | some g => if reg.registered g.groupId = some g then none else reg.ranksDev h
    | none => reg.ranksDev h
  handle_eq := reg.handle_eq
  describes := reg.describes
  mem_of_registered := by simp
  ranksDev_iff h row := by
    refine iff_of_false ?_ (by simp)
    have hnone : ∀ g, reg.descs[h]? = some g → reg.registered g.groupId ≠ some g →
        reg.ranksDev h ≠ some row := by
      intro g hg hreg hrow
      obtain ⟨g', hg', hreg', -⟩ := (reg.ranksDev_iff h row).mp hrow
      obtain rfl := Option.some_inj.mp (hg.symm.trans hg')
      exact hreg hreg'
    split
    case h_1 g hg =>
      split
      case isTrue => simp
      case isFalse hreg => exact hnone g hg hreg
    case h_2 hg =>
      intro hrow
      obtain ⟨g', hg', -⟩ := (reg.ranksDev_iff h row).mp hrow
      rw [hg] at hg'
      cases hg'

end Registry

namespace Runtime

variable (rt : Runtime)

/-! ## `register_group` -/

/-- The id of a group that is registered without one. -/
def defaultGroupId (ranks : List ℤ) : ℤ :=
  stableHash64 [.bytes "gfc-group-v1".toUTF8.toList, .tuple ranks]

/-- The checks of `register_group` before it takes the lock. -/
def registerEntry (ranks : List ℤ) : Except PyError (RankList rt.worldSize) := do
  let size := ranks.length
  let maxGroupSize := rt.config.maxGroupSize
  let worldSize := rt.worldSize
  let shown := pyTuple ranks
  require (0 < size ∧ size ≤ maxGroupSize) s!"|group|={size} must be in (0, {maxGroupSize}]"
  let ⟨hnodup⟩ ← requireProof ranks.Nodup s!"ranks must be unique: {shown}"
  let ⟨hrange⟩ ← requireProof (∀ r ∈ ranks, 0 ≤ r ∧ r < worldSize)
    s!"ranks out of [0,{worldSize}): {shown}"
  pure
    { ranks := ranks.map Int.toNat
      nodup := by
        refine hnodup.map_on fun x hx y hy hxy => ?_
        have := (hrange x hx).1
        have := (hrange y hy).1
        omega
      lt := by
        intro q hq
        obtain ⟨r, hr, rfl⟩ := List.mem_map.mp hq
        have := hrange r hr
        omega }

/-- `_dbg_verify_group_consistency`. -/
def dbgVerifyGroupConsistency (gid : ℤ) (ranks : List ℤ) (gathered : List (ℤ × List ℤ)) :
    Except PyError Unit :=
  forM gathered.zipIdx fun (g, r) =>
    if g ≠ (gid, ranks) then
      let seen := pyTuple g.2
      let own := pyTuple ranks
      throw (.runtimeError
        s!"register_group consistency check failed: rank {r} sees ({g.1}, {seen}), local sees ({gid}, {own})")
    else pure ()

/-- `register_group` under the lock. -/
def registerLocked (gid : ℤ) (l : RankList rt.worldSize) : rt.M (GroupDescriptor × Bool) := do
  let s ← get
  let (result, registry) ← MonadExcept.ofExcept (s.registry.register gid l)
  set { s with registry := registry }
  pure result

/-- `register_group` after the lock: the debug check of a new world group. -/
def registerExit (gid : ℤ) (ranks : List ℤ) (gathered : List (ℤ × List ℤ))
    (result : GroupDescriptor × Bool) : Except PyError GroupDescriptor := do
  if result.2 ∧ rt.config.enableDebugChecks ∧ ranks.length = rt.worldSize then
    dbgVerifyGroupConsistency gid ranks gathered
  pure result.1

/-- `register_group`. -/
def registerGroup (ranks : List ℤ) (groupId : Option ℤ) (gathered : List (ℤ × List ℤ)) :
    rt.M GroupDescriptor := do
  let l ← MonadExcept.ofExcept (rt.registerEntry ranks)
  let gid := groupId.getD (defaultGroupId ranks)
  let result ← rt.registerLocked gid l
  MonadExcept.ofExcept (rt.registerExit gid ranks gathered result)

/-! ## `unregister_group` and `shutdown` -/

/-- `unregister_group`, all of it under the lock. -/
def unregisterGroup (group : GroupDescriptor) : rt.M Unit :=
  modify fun s => { s with registry := s.registry.unregister group }

/-- What `shutdown` does to the host state.  The drain, the zeroing of the grids and the
final barrier of the world are steps of the device. -/
def shutdown : rt.M Unit := modify fun s => { s with registry := s.registry.clear }

/-! ## The p2p calls -/

end Runtime

/-- The argument `role`. -/
inductive Role where
  | sender
  | receiver
  deriving DecidableEq, Repr

/-- The argument `protocol`. -/
inductive Protocol where
  | put
  | get
  deriving DecidableEq, Repr

/-- The arguments of `_p2p_protocol`. -/
structure P2pArgs where
  srcRank : ℤ
  dstRank : ℤ
  localTensor : Tensor
  role : Role
  protocol : Protocol
  nbytes : Option ℤ

namespace Runtime

variable (rt : Runtime)

/-- The checks of `_p2p_protocol` on its tensor, and the byte count. -/
def p2pEntry (a : P2pArgs) : Except PyError ℕ := do
  let device := rt.device
  let tensorDevice := a.localTensor.device
  let tensorBytes := a.localTensor.nbytes
  let maxBytes := rt.config.maxCollectiveBytes
  require (a.localTensor.isCuda ∧ tensorDevice = device)
    s!"p2p: tensor must be on runtime device {device}, got {tensorDevice}"
  require a.localTensor.isContiguous "p2p: tensor must be contiguous"
  let nbytes := a.nbytes.getD tensorBytes
  require (0 < nbytes ∧ nbytes ≤ tensorBytes) s!"p2p: nbytes={nbytes} must be in (0, {tensorBytes}]"
  require (nbytes ≤ maxBytes) s!"p2p: nbytes={nbytes} > max_collective_bytes={maxBytes}"
  pure nbytes.toNat

/-- The copy between the barriers: the sender of a `put` writes to the peer, the receiver
of a `get` reads from it, the others only take part in the barriers. -/
def launchP2p (call : ℕ) (a : P2pArgs) (n : ℕ) : Except PyError (List (List (Op DataAct))) := do
  match a.protocol, a.role with
  | .put, .sender =>
    let dst := a.dstRank.toNat
    let srcCell := fun b => Cell.comm rt.rank b
    let dstCell := fun b => Cell.comm dst b
    if rt.copyEngineEnabled then pure (launchP2pCopyEngine srcCell dstCell n)
    else if rt.tmaEnabled ∧ n % 16 = 0 then
      pure [← launchP2pCopyTma srcCell dstCell rt.localPtr (rt.bufferPtrs dst) n rt.numSms
        defaultTileBytes]
    else
      let vec := vecFor [(rt.localPtr : ℤ), (rt.bufferPtrs dst : ℤ)] n
      pure [← launchPullCopy srcCell dstCell n vec rt.copySms]
  | .get, .receiver =>
    let src := a.srcRank.toNat
    let dstPtr := a.localTensor.dataPtr
    let srcCell := fun b => Cell.comm src b
    let dstCell := fun b => Cell.output rt.rank call b
    if rt.copyEngineEnabled then pure (launchP2pCopyEngine srcCell dstCell n)
    else if rt.tmaEnabled ∧ n % 16 = 0 ∧ dstPtr % 16 = 0 then
      pure [← launchP2pCopyTma srcCell dstCell (rt.bufferPtrs src) dstPtr n rt.numSms
        defaultTileBytes]
    else
      let vec := vecFor [(rt.bufferPtrs src : ℤ), (dstPtr : ℤ)] n
      pure [← launchPullCopy srcCell dstCell n vec rt.copySms]
  | _, _ => pure []

/-- The staging of a sender. -/
def p2pStage (call n : ℕ) : List (Op DataAct) :=
  copyOps (fun b => .input rt.rank call b) (fun b => .comm rt.rank b) n

/-- The copy-out of the receiver of a `put`. -/
def p2pCopyOut (call n : ℕ) : List (Op DataAct) :=
  copyOps (fun b => .comm rt.rank b) (fun b => .output rt.rank call b) n

/-- `_p2p_protocol` under the lock. -/
def p2pLocked (call : ℕ) (current : StreamId) (a : P2pArgs) (n : ℕ) (group : GroupDescriptor) :
    rt.M Unit := do
  rt.ingestUserTensors call current
  let gid := group.groupId
  let (preE, postE) ← rt.nextPairForCollective gid
  let row ← rt.groupRanksRow group
  if a.role = .sender then
    rt.enqueue call .main (.kernel (rt.p2pStage call n))
  rt.barrierOn call group row (rt.token gid preE)
  let ks ← MonadExcept.ofExcept (rt.launchP2p call a n)
  rt.enqueueKernels call .main ks
  rt.barrierOn call group row (rt.token gid postE)
  if a.protocol = .put ∧ a.role = .receiver then
    rt.enqueue call .main (.kernel (rt.p2pCopyOut call n))

/-- `_p2p_protocol`. -/
def p2pProtocol (call : ℕ) (current : StreamId) (a : P2pArgs) (gathered : List (ℤ × List ℤ)) :
    rt.M Unit := do
  let n ← MonadExcept.ofExcept (rt.p2pEntry a)
  let group ← rt.registerGroup [a.srcRank, a.dstRank] none gathered
  require (0 ≤ group.localIndex) "this rank is not in the p2p group"
  rt.p2pLocked call current a n group

/-- `p2p_put`. -/
def p2pPut (call : ℕ) (current : StreamId) (dstRank : ℤ) (src : Tensor) (nbytes : Option ℤ)
    (gathered : List (ℤ × List ℤ)) : rt.M Unit := do
  require (dstRank ≠ rt.rank) "p2p_put: dst_rank must differ from self.rank"
  rt.p2pProtocol call current ⟨rt.rank, dstRank, src, .sender, .put, nbytes⟩ gathered

/-- `p2p_put_recv`. -/
def p2pPutRecv (call : ℕ) (current : StreamId) (srcRank : ℤ) (dst : Tensor) (nbytes : Option ℤ)
    (gathered : List (ℤ × List ℤ)) : rt.M Unit := do
  require (srcRank ≠ rt.rank) "p2p_put_recv: src_rank must differ from self.rank"
  rt.p2pProtocol call current ⟨srcRank, rt.rank, dst, .receiver, .put, nbytes⟩ gathered

/-- `p2p_get`. -/
def p2pGet (call : ℕ) (current : StreamId) (srcRank : ℤ) (dst : Tensor) (nbytes : Option ℤ)
    (gathered : List (ℤ × List ℤ)) : rt.M Unit := do
  require (srcRank ≠ rt.rank) "p2p_get: src_rank must differ from self.rank"
  rt.p2pProtocol call current ⟨srcRank, rt.rank, dst, .receiver, .get, nbytes⟩ gathered

/-- `p2p_get_serve`. -/
def p2pGetServe (call : ℕ) (current : StreamId) (dstRank : ℤ) (src : Tensor) (nbytes : Option ℤ)
    (gathered : List (ℤ × List ℤ)) : rt.M Unit := do
  require (dstRank ≠ rt.rank) "p2p_get_serve: dst_rank must differ from self.rank"
  rt.p2pProtocol call current ⟨rt.rank, dstRank, src, .sender, .get, nbytes⟩ gathered

end Runtime

end GroupFreeCollectives
