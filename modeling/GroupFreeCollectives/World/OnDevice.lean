import GroupFreeCollectives.Kernels.PullExact
import GroupFreeCollectives.World.LeftOut
import GroupFreeCollectives.World.Transfer

/-!
# Worlds with device counts

The program of a world has the kernels of `Kernels/Pull` and `Kernels/Engines`, which count
their tiles exactly.  On the device they count in integers of 32 and 64 bits.  Here the kernels
of a program are those of `Kernels/DeviceKernels`, and the launches of the program are listed
with it (`Jobs.OnDevice`).

A program whose launches all fit is the program of the world (`Jobs.OnDevice.program_eq`).  So
what is said of worlds holds of the device as well, as long as the launches fit; for the
transfers that is `fitting_transfers_deliver`.
-/

namespace GroupFreeCollectives

open TaskGraph Tiling DeviceInt DInt

/-! ## The data paths -/

namespace Runtime

variable (rt : Runtime)

/-- The launches of tiles on a data path. -/
def pathTileLaunches (a : CollectiveArgs) : DataPath → List TileLaunch
  | .oneShot .copyEngine => []
  | .oneShot .tma => [.groupTma (rt.tmaArgs a)]
  | .oneShot (.vec copySms) => [.groupPull (rt.oneShotPullArgs a copySms) a.sliceBytes]
  | .fused _ _ => []
  | .pipelined chunks =>
    (layoutChunks a.sliceBytes chunks rt.config.alignment).map fun (offset, size) =>
      .groupPull (rt.chunkPullArgs a offset size) size

/-- The kernels between the barriers of a one-shot collective. -/
def deviceOneShotKernels (a : CollectiveArgs) : Engine → Option (List (List (Op DataAct)))
  | .copyEngine => some (rt.oneShotKernels a .copyEngine)
  | .tma => do
    let ops ← (rt.tmaArgs a).deviceKernel (a.kind.srcOffset a.selfLocalIndex a.sliceBytes)
    pure [ops]
  | .vec copySms => do
    let ops ← ((rt.oneShotPullArgs a copySms).kernelArgs a.sliceBytes).devicePullKernel
      (a.kind.srcOffset a.selfLocalIndex a.sliceBytes)
    pure [ops]

/-- What a pipeline chunk enqueues. -/
def deviceChunk (a : CollectiveArgs) (epoch : ℕ) (x : (ℕ × ℕ) × ℕ) : Option (List Item) := do
  let ops ← ((rt.chunkPullArgs a x.1.1 x.1.2).kernelArgs x.1.2).devicePullKernel
    (a.kind.srcOffset a.selfLocalIndex a.sliceBytes)
  pure (rt.chunkItems a x.2 x.1.1 x.1.2 (epoch + x.2) ops)

/-- What a data path enqueues. -/
def devicePathItems (a : CollectiveArgs) (epoch : ℕ) : DataPath → Option (List Item)
  | .oneShot e => do
    let ks ← rt.deviceOneShotKernels a e
    pure (rt.oneShotPrefix a epoch ++ kernelItems a .main ks ++ [rt.barrierItem a (epoch + 1)])
  | .fused numChannels chunkBytes => some (rt.pathItems a epoch (.fused numChannels chunkBytes))
  | .pipelined chunks => do
    let layout := layoutChunks a.sliceBytes chunks rt.config.alignment
    let items ← collect (rt.deviceChunk a epoch) layout.zipIdx
    pure ([⟨a.call, .main, .record 0⟩, ⟨a.call, .copy, .wait 0⟩] ++ items ++
      [rt.barrierItem a (epoch + layout.length)])

variable {rt} {a : CollectiveArgs} {epoch : ℕ} {path : DataPath}

theorem row_length_le (hrow : a.row = a.group.ranks)
    (hchecked : rt.EntryChecked a.kind a.input a.output a.group a.sliceBytes) :
    a.row.length ≤ 16 := by
  rw [hrow, ← a.group.size_eq]
  exact hchecked.size_le.trans rt.config.maxGroupSize_le

section Row

variable (hpos : 0 < a.row.length) (hle : a.row.length ≤ 16)

include hpos hle

theorem valid_oneShotPull {copySms : ℤ}
    (h : Launches a.sliceBytes (.oneShot (.vec copySms))) :
    (TileLaunch.groupPull (rt.oneShotPullArgs a copySms) a.sliceBytes).Valid :=
  ⟨h.1, hpos, hle, isVecWidth_vecFor _ _, h.2, rfl⟩

theorem valid_chunkPull {offset size : ℕ} (hsize : 0 < size) :
    (TileLaunch.groupPull (rt.chunkPullArgs a offset size) size).Valid := by
  refine ⟨hsize, hpos, hle, ?_, Int.natCast_pos.mpr rt.copySms_pos, rfl⟩
  show IsVecWidth (rt.chunkVec a offset size)
  unfold chunkVec
  split <;> exact isVecWidth_vecFor _ _

theorem valid_tma
    (h : rt.Ready a.sliceBytes a.output.dataPtr (.oneShot .tma)) :
    (TileLaunch.groupTma (rt.tmaArgs a)).Valid := by
  obtain ⟨hslice, -⟩ := tmaRequire_bind_ok_iff.mp h
  exact ⟨of_decide_eq_true hslice, hpos, hle, rt.numSms_pos, rfl⟩

/-- **A data path whose launches fit** enqueues what it does with exact counts. -/
theorem devicePathItems_eq
    (hready : rt.Ready a.sliceBytes a.output.dataPtr path) (hlaunch : Launches a.sliceBytes path)
    (hfits : ∀ x ∈ rt.pathTileLaunches a path, x.Fits) :
    rt.devicePathItems a epoch path = some (rt.pathItems a epoch path) := by
  cases path with
  | fused numChannels chunkBytes => rfl
  | oneShot e =>
    have hks : rt.deviceOneShotKernels a e = some (rt.oneShotKernels a e) := by
      cases e with
      | copyEngine => rfl
      | tma =>
        rw [deviceOneShotKernels, TileLaunch.groupTma_eq (valid_tma hpos hle hready)
          (hfits _ (List.mem_singleton_self _))]
        rfl
      | vec copySms =>
        rw [deviceOneShotKernels, TileLaunch.groupPull_eq (valid_oneShotPull hpos hle hlaunch)
          (hfits _ (List.mem_singleton_self _))]
        rfl
    rw [devicePathItems, hks]
    rfl
  | pipelined chunks =>
    obtain ⟨hcont, -⟩ := layoutChunks_contiguous rt.config.alignment_pow hready.1.le hready.2.2
    have hchunk : ∀ x ∈ (layoutChunks a.sliceBytes chunks rt.config.alignment).zipIdx,
        rt.deviceChunk a epoch x = some (rt.chunkItems a x.2 x.1.1 x.1.2 (epoch + x.2)
          (rt.chunkPull a x.1.1 x.1.2)) := by
      intro x hx
      have hmem := List.fst_mem_of_mem_zipIdx hx
      obtain ⟨-, hsize, -⟩ := hcont.bounds hmem
      rw [deviceChunk, TileLaunch.groupPull_eq (valid_chunkPull hpos hle hsize)
        (hfits _ (List.mem_map.mpr ⟨x.1, hmem, rfl⟩))]
      rfl
    rw [devicePathItems, collect_eq_flatMap hchunk]
    rfl

end Row

/-! ## The copy of a transfer -/

variable (rt) in
/-- The copy of a p2p call, the launch of its tiles, and what it is on the device.  `ks` are the
kernels with exact counts. -/
inductive P2pOnDevice (call : ℕ) (a : P2pArgs) (n : ℕ) :
    (ks : List (List (Op DataAct))) → List TileLaunch → Option (List (List (Op DataAct))) → Prop
  | idle (hcells : rt.p2pCells call a = none) : P2pOnDevice call a n [] [] (some [])
  | copyEngine {src dst : ℕ → Cell} (hcells : rt.p2pCells call a = some (src, dst)) :
      P2pOnDevice call a n (launchP2pCopyEngine src dst n) []
        (some (launchP2pCopyEngine src dst n))
  | vector {src dst : ℕ → Cell} {vec : ℕ} {numSms : ℤ} {ops : List (Op DataAct)}
      (hcells : rt.p2pCells call a = some (src, dst))
      (h : launchPullCopy src dst n vec numSms = .ok ops) :
      P2pOnDevice call a n [ops] [.pullCopy n vec numSms]
        ((deviceLaunchPullCopy src dst n vec numSms).map fun dev => [dev])
  | tma {src dst : ℕ → Cell} {srcPtr dstPtr : ℕ} {ops : List (Op DataAct)}
      (hcells : rt.p2pCells call a = some (src, dst))
      (h : launchP2pCopyTma src dst srcPtr dstPtr n rt.numSms defaultTileBytes = .ok ops) :
      P2pOnDevice call a n [ops] [.p2pTma n rt.numSms]
        ((deviceP2pTmaKernel src dst n defaultTileBytes rt.numSms).map fun dev => [dev])

section P2p

variable {call n : ℕ} {p : P2pArgs} {ks : List (List (Op DataAct))} {launches : List TileLaunch}
  {out : Option (List (List (Op DataAct)))}

theorem P2pOnDevice.eq (h : rt.P2pOnDevice call p n ks launches out)
    (hfits : ∀ x ∈ launches, x.Fits) : out = some ks := by
  cases h with
  | idle hcells => rfl
  | copyEngine hcells => rfl
  | vector hcells h =>
    rw [deviceLaunchPullCopy_eq h (hfits _ (List.mem_singleton_self _))]
    rfl
  | tma hcells h =>
    rw [deviceP2pTma_eq h rt.numSms_pos (hfits _ (List.mem_singleton_self _))]
    rfl

theorem exists_onDevice_of_launchCopy {src dst : ℕ → Cell} {q q' : ℕ} {ptr ptr' : ℤ}
    {engine : Bool} {c : Prop} [Decidable c] (hcells : rt.p2pCells call p = some (src, dst))
    (h : rt.launchCopy src dst n q q' ptr ptr' engine c = .ok ks) :
    ∃ launches out, rt.P2pOnDevice call p n ks launches out := by
  rcases launchCopy_cases h with ⟨-, rfl⟩ | ⟨-, -, ops, hops, rfl⟩ | ⟨-, -, ops, hops, rfl⟩
  · exact ⟨_, _, .copyEngine hcells⟩
  · exact ⟨_, _, .tma hcells hops⟩
  · exact ⟨_, _, .vector hcells hops⟩

/-- Every copy is something on the device. -/
theorem P2pLaunch.exists_onDevice (h : rt.P2pLaunch call p n ks) :
    ∃ launches out, rt.P2pOnDevice call p n ks launches out := by
  cases h with
  | vector hcells h => exact ⟨_, _, .vector hcells h⟩
  | copyEngine hcells => exact ⟨_, _, .copyEngine hcells⟩
  | runtime h =>
    rcases p with ⟨srcRank, dstRank, tensor, role, protocol, nbytes⟩
    cases protocol with
    | put =>
      cases role with
      | sender => exact exists_onDevice_of_launchCopy rfl h
      | receiver =>
        obtain rfl := Except.ok.inj h
        exact ⟨_, _, .idle rfl⟩
    | get =>
      cases role with
      | sender =>
        obtain rfl := Except.ok.inj h
        exact ⟨_, _, .idle rfl⟩
      | receiver => exact exists_onDevice_of_launchCopy rfl h

end P2p

end Runtime

/-! ## Jobs -/

/-- What a job enqueues, with the launches of its tiles. -/
inductive Job.OnDevice (rt : Runtime) (e : ℕ) :
    Job → List TileLaunch → Option (List Item) → Prop
  | barrier {call : ℕ} {gid : ℤ} {ranks : List ℕ} :
      OnDevice rt e (.barrier call gid ranks) [] (some ((Job.barrier call gid ranks).items rt e))
  | collective {current : StreamId} {a : CollectiveArgs} {path : DataPath} :
      OnDevice rt e (.collective current a path) (rt.pathTileLaunches a path)
        ((rt.devicePathItems a e path).map (Runtime.ingestItems a.call current ++ ·))
  | p2p {call : ℕ} {current : StreamId} {a : P2pArgs} {n : ℕ} {gid : ℤ}
      {ks : List (List (Op DataAct))} {launches : List TileLaunch}
      {out : Option (List (List (Op DataAct)))} (h : rt.P2pOnDevice call a n ks launches out) :
      OnDevice rt e (.p2p call current a n gid ks) launches
        (out.map fun dev => (Job.p2p call current a n gid dev).items rt e)

/-- What the jobs of a rank enqueue, with epochs from its counters. -/
inductive RunsOnDevice (rt : Runtime) :
    EpochManager → List Job → List TileLaunch → Option (List Item) → Prop
  | nil {m : EpochManager} : RunsOnDevice rt m [] [] (some [])
  | cons {m : EpochManager} {j : Job} {js : List Job} {launches launches' : List TileLaunch}
      {out out' : Option (List Item)}
      (h : j.OnDevice rt (m.peek j.request.groupId) launches out)
      (hrest : RunsOnDevice rt (m.advance j.request.groupId
        (j.request.work.shape rt.config.alignment).numEpochs) js launches' out') :
      RunsOnDevice rt m (j :: js) (launches ++ launches')
        (out.bind fun its => out'.map (its ++ ·))

/-- `prog` is what the ranks enqueue, with the counts of the device, and `launches` are their
launches of tiles. -/
def Jobs.OnDevice {cfg : Config} {nonce : ℤ} {W : ℕ} (J : Jobs cfg nonce W)
    (launches : ℕ → List TileLaunch) (prog : Program) : Prop :=
  ∀ p, RunsOnDevice (J.rt p) .empty (J.jobs p) (launches p) (some (prog p))

section Jobs

variable {rt : Runtime} {j : Job} {js : List Job} {m : EpochManager} {e : ℕ}
  {launches : List TileLaunch} {out : Option (List Item)}

/-- **A job whose launches fit** enqueues what it does with exact counts. -/
theorem Job.OnDevice.eq (h : j.OnDevice rt e launches out) (hvalid : j.Valid rt)
    (hfits : ∀ x ∈ launches, x.Fits) : out = some (j.items rt e) := by
  cases h with
  | barrier => rfl
  | p2p h =>
    rw [h.eq hfits]
    rfl
  | collective =>
    cases hvalid with
    | collective hmem hrow hindex hchecked hready hlaunch =>
      rw [Runtime.devicePathItems_eq (List.length_pos_of_mem hmem.mem)
        (Runtime.row_length_le hrow hchecked) hready hlaunch hfits]
      rfl

/-- Every job is something on the device. -/
theorem Job.Valid.exists_onDevice (h : j.Valid rt) :
    ∃ launches out, j.OnDevice rt e launches out := by
  cases h with
  | barrier => exact ⟨_, _, .barrier⟩
  | collective => exact ⟨_, _, .collective⟩
  | p2p hmem hsender hreceiver launched =>
    obtain ⟨launches, out, h⟩ := launched.exists_onDevice
    exact ⟨_, _, .p2p h⟩

theorem RunsOnDevice.eq (h : RunsOnDevice rt m js launches out) (hvalid : ∀ j ∈ js, j.Valid rt)
    (hfits : ∀ x ∈ launches, x.Fits) :
    out = some ((contributions rt m js).flatMap Contribution.items) := by
  induction h with
  | nil => rfl
  | cons h hrest ih =>
    rw [contributions, List.flatMap_cons,
      h.eq (hvalid _ List.mem_cons_self) fun x hx => hfits x (List.mem_append_left _ hx),
      ih (fun j hj => hvalid j (List.mem_cons_of_mem _ hj)) fun x hx =>
        hfits x (List.mem_append_right _ hx)]
    rfl

theorem exists_runsOnDevice (hvalid : ∀ j ∈ js, j.Valid rt) :
    ∃ launches out, RunsOnDevice rt m js launches out := by
  induction js generalizing m with
  | nil => exact ⟨_, _, .nil⟩
  | cons j js ih =>
    obtain ⟨launches, out, hj⟩ := (hvalid j List.mem_cons_self).exists_onDevice
    obtain ⟨launches', out', hjs⟩ := ih fun j' hj' => hvalid j' (List.mem_cons_of_mem j hj')
    exact ⟨_, _, .cons hj hjs⟩

variable {cfg : Config} {nonce : ℤ} {W : ℕ} {J : Jobs cfg nonce W} {prog : Program}

/-- **Launches that fit make the program of the world.** -/
theorem Jobs.OnDevice.program_eq {launches : ℕ → List TileLaunch} (h : J.OnDevice launches prog)
    (hfits : ∀ p, ∀ x ∈ launches p, x.Fits) : prog = J.program := by
  funext p
  exact Option.some_inj.mp ((h p).eq (J.valid p) (hfits p))

/-- Every world has its launches, and is on the device what it is if they fit. -/
theorem Jobs.exists_launches (J : Jobs cfg nonce W) : ∃ launches : ℕ → List TileLaunch,
    (∀ p, ∃ out, RunsOnDevice (J.rt p) .empty (J.jobs p) (launches p) out) ∧
      ((∀ p, ∀ x ∈ launches p, x.Fits) → J.OnDevice launches J.program) := by
  choose launches h using fun p => exists_runsOnDevice (m := .empty) (J.valid p)
  refine ⟨launches, h, fun hfits p => ?_⟩
  obtain ⟨out, hout⟩ := h p
  obtain rfl := hout.eq (J.valid p) (hfits p)
  exact hout

end Jobs

/-! ## Transfers -/

section Transfers

variable {cfg : Config} {nonce : ℤ} {W : ℕ} {J : Jobs cfg nonce W} {prog : Program}
  {launches : ℕ → List TileLaunch} {α : Type} {m₀ : Memory α} {s : State Task (Memory α)}
  {p n call N : ℕ} {current : StreamId} {a : P2pArgs} {gid : ℤ} {ks : List (List (Op DataAct))}

/-- **A transfer delivers the sender's bytes if the launches fit**, whatever the protocol and
the engine, and whatever else the ranks do. -/
theorem fitting_transfers_deliver (hdev : J.OnDevice launches prog)
    (hfits : ∀ p, ∀ x ∈ launches p, x.Fits) (htok : J.TokensDistinct) (hm : m₀.Fresh)
    (hs : Reachable (device prog α W) m₀ s)
    (hj : (J.jobs p)[n]? = some (.p2p call current a N gid ks)) (hrole : a.role = .receiver)
    (hdone : Completed prog s p call) :
    ∃ k call', SendsTo J a.protocol a.srcRank.toNat k call' p N ∧
      J.operation a.srcRank.toNat k = J.operation p n ∧
      Delivered m₀ s.mem a.srcRank.toNat call' p call N := by
  rw [hdev.program_eq hfits] at hs hdone
  exact transfer_delivers htok hm hs hj hrole hdone

end Transfers

/-! ## A transfer of two ranks -/

section Pair

/-- The default configuration, with room for `2 ^ 31` bytes. -/
def largeConfig : Config :=
  { Config.default with
    maxCollectiveBytes := 2 ^ 31
    maxCollectiveBytes_pos := Nat.two_pow_pos 31
    alignment_dvd := ⟨2 ^ 24, rfl⟩ }

def largeRank (p : ℕ) : Runtime := Runtime.pairRuntime largeConfig none (Fin.ofNat 2 p)

/-- The id of the group of the two ranks. -/
def pairId : ℤ := Runtime.defaultGroupId [0, 1]

/-- The arguments of the `get` of `n` bytes of rank 1 from rank 0. -/
def getArgs (n : ℕ) (role : Role) : P2pArgs := ⟨0, 1, Runtime.pairTensor 8192 n, role, .get, none⟩

/-- The copy of this `get`, at the width that the runtime picks. -/
def getLaunch (n : ℕ) : Except PyError (List (Op DataAct)) :=
  launchPullCopy (fun b => .comm 0 b) (fun b => .output 1 1 b) n (vecFor [4096, 8192] n)
    (largeRank 1).copySms

/-- The jobs of the two ranks. -/
def getJobs (n : ℕ) (ops : List (Op DataAct)) : ℕ → List Job
  | 0 => [.p2p 1 (.user 0) (getArgs n .sender) n pairId []]
  | 1 => [.p2p 1 (.user 0) (getArgs n .receiver) n pairId [ops]]
  | _ + 2 => []

def getRequest (n : ℕ) : Request := ⟨pairId, [0, 1], .p2p .get 0 1 n⟩

variable {n : ℕ} {ops : List (Op DataAct)}

theorem launchP2p_getArgs :
    (largeRank 1).launchP2p 1 (getArgs n .receiver) n =
      (getLaunch n >>= fun ops => .ok [ops]) := rfl

theorem map_request_getJobs (p : ℕ) :
    (getJobs n ops p).map Job.request = if p < 2 then [getRequest n] else [] := by
  match p with
  | 0 => rfl
  | 1 => rfl
  | p + 2 => rw [if_neg (by omega)]; rfl

theorem filter_getRequest (q : ℕ) :
    [getRequest n].filter (q ∈ ·.ranks) = if q < 2 then [getRequest n] else [] := by
  have hiff : q ∈ (getRequest n).ranks ↔ q < 2 := by
    show q ∈ [0, 1] ↔ q < 2
    rw [List.mem_cons, List.mem_singleton]
    omega
  rw [List.filter_singleton]
  simp [hiff]

theorem member_largeRank (p : ℕ) (hp : p < 2) : Member (largeRank p) [0, 1] := by
  have hlt : ∀ q ∈ [0, 1], q < 2 := by decide
  refine ⟨by decide, hlt, ?_⟩
  have hrank : (largeRank p).rank = p := Nat.mod_eq_of_lt hp
  rw [hrank, List.mem_cons, List.mem_singleton]
  omega

/-- Each rank has one job. -/
theorem mem_getJobs {p : ℕ} {j : Job} (hj : j ∈ getJobs n ops p) :
    (p = 0 ∧ j = .p2p 1 (.user 0) (getArgs n .sender) n pairId []) ∨
      p = 1 ∧ j = .p2p 1 (.user 0) (getArgs n .receiver) n pairId [ops] := by
  match p with
  | 0 => exact Or.inl ⟨rfl, List.mem_singleton.mp hj⟩
  | 1 => exact Or.inr ⟨rfl, List.mem_singleton.mp hj⟩
  | _ + 2 => cases hj

/-- The two ranks, when they do nothing else. -/
def pairGet (h : getLaunch n = .ok ops) : Jobs largeConfig 1 2 where
  rt := largeRank
  isRank p hp := ⟨Nat.mod_eq_of_lt hp, rfl, rfl, rfl⟩
  jobs := getJobs n ops
  jobs_eq_nil p hp := by
    obtain ⟨k, rfl⟩ := Nat.exists_eq_add_of_le' hp
    rfl
  valid p j hj := by
    rcases mem_getJobs hj with ⟨rfl, rfl⟩ | ⟨rfl, rfl⟩
    · exact .p2p (member_largeRank 0 Nat.zero_lt_two) (fun _ => rfl) (by rintro ⟨⟩)
        (.runtime rfl)
    · refine .p2p (member_largeRank 1 Nat.one_lt_two) (by rintro ⟨⟩) (fun _ => rfl) (.runtime ?_)
      rw [launchP2p_getArgs, h]
      rfl
  calls_nodup p := by
    match p with
    | 0 => exact List.nodup_singleton _
    | 1 => exact List.nodup_singleton _
    | _ + 2 => exact List.nodup_nil
  ids p j hj j' hj' _ := by
    rcases mem_getJobs hj with ⟨rfl, rfl⟩ | ⟨rfl, rfl⟩ <;>
      rcases mem_getJobs hj' with ⟨-, rfl⟩ | ⟨-, rfl⟩ <;> rfl
  agree p q := by
    have hfilter : ∀ p q, ((getJobs n ops p).map Job.request).filter (q ∈ ·.ranks) =
        if p < 2 ∧ q < 2 then [getRequest n] else [] := by
      intro p q
      rw [map_request_getJobs]
      by_cases hp : p < 2
      · rw [if_pos hp, filter_getRequest]
        exact if_congr (by simp [hp]) rfl rfl
      · rw [if_neg hp, if_neg fun h => hp h.1]
        rfl
    rw [hfilter, hfilter]
    exact if_congr and_comm rfl rfl

variable {h : getLaunch n = .ok ops}

theorem pairGet_follows : (pairGet h).Follows [getRequest n] := fun p =>
  (map_request_getJobs p).trans (filter_getRequest p).symm

theorem pairGet_tokensDistinct : (pairGet h).TokensDistinct := by
  intro p
  have hparts : ((pairGet h).parts p).flatMap (fun x => x.op.tokens 1 largeConfig.alignment) =
      (issue largeConfig.alignment .empty (if p < 2 then [getRequest n] else [])).flatMap
        (Operation.tokens 1 largeConfig.alignment) := by
    have hjobs : (pairGet h).jobs p = getJobs n ops p := rfl
    rw [← map_request_getJobs p, ← List.flatMap_map]
    exact congrArg _ map_op_contributions
  rw [hparts]
  split
  · show [computeToken 1 pairId 0, computeToken 1 pairId 1].Nodup
    decide +kernel
  · exact List.nodup_nil

/-- What the two ranks enqueue, if the copy is `ops`. -/
def getProgram (n : ℕ) (ops : List (Op DataAct)) : Program := fun p =>
  (contributions (largeRank p) .empty (getJobs n ops p)).flatMap Contribution.items

/-- The launches of the two ranks. -/
def getTileLaunches (n : ℕ) : ℕ → List TileLaunch
  | 1 => [.pullCopy n (vecFor [4096, 8192] n) (largeRank 1).copySms]
  | _ => []

theorem pairGet_onDevice {dev : List (Op DataAct)}
    (hdev : deviceLaunchPullCopy (fun b => .comm 0 b) (fun b => .output 1 1 b) n
      (vecFor [4096, 8192] n) (largeRank 1).copySms = some dev) :
    (pairGet h).OnDevice (getTileLaunches n) (getProgram n dev) := by
  intro p
  match p with
  | 0 => exact .cons (.p2p (.idle rfl)) .nil
  | 1 =>
    have hrun : RunsOnDevice (largeRank 1) .empty (getJobs n ops 1) (getTileLaunches n 1) _ :=
      .cons (.p2p (.vector rfl h)) .nil
    rw [hdev] at hrun
    exact hrun
  | _ + 2 => exact .nil

/-- The launcher accepts every number of bytes. -/
theorem exists_getLaunch (hn : 0 < n) : ∃ ops, getLaunch n = .ok ops :=
  Runtime.exists_launchPullCopy hn 4096 8192

/-- The theorem for five bytes. -/
theorem fitting_transfers_deliver_witness : ∃ (ops : List (Op DataAct)) (h : getLaunch 5 = .ok ops)
    (s : State Task (Memory Cell)) (k call' : ℕ),
    (pairGet h).OnDevice (getTileLaunches 5) (getProgram 5 ops) ∧
      Reachable (device (getProgram 5 ops) Cell 2) cellNames s ∧
      SendsTo (pairGet h) .get 0 k call' 1 5 ∧ Delivered cellNames s.mem 0 call' 1 1 5 := by
  obtain ⟨ops, h⟩ := exists_getLaunch (n := 5) (by decide)
  have hfits : ∀ p, ∀ x ∈ getTileLaunches 5 p, x.Fits := by
    intro p x hx
    match p with
    | 0 => cases hx
    | 1 =>
      obtain rfl := List.mem_singleton.mp hx
      unfold TileLaunch.Fits VectorFits
      decide +kernel
    | _ + 2 => cases hx
  have hdev : (pairGet h).OnDevice (getTileLaunches 5) (getProgram 5 ops) :=
    pairGet_onDevice (deviceLaunchPullCopy_eq h (hfits 1 _ (List.mem_singleton_self _)))
  obtain ⟨s, hs, hfinished, -⟩ :=
    pairGet_follows.exists_finished (pairGet_tokensDistinct (h := h)) cellNames_zeroed .init
  obtain ⟨k, call', hsends, -, hdelivered⟩ := fitting_transfers_deliver hdev hfits
    pairGet_tokensDistinct cellNames_zeroed.toFresh hs (p := 1) (n := 0) rfl rfl
    (completed_of_finished hfinished)
  exact ⟨ops, h, s, k, call', hdev, hs, hsends, hdelivered⟩

/-- A copy that stores to an output is left out. -/
def leavesOutput (op : Op DataAct) : Bool :=
  match op.act with
  | .copy _ (.output ..) => false
  | _ => true

theorem exists_of_leavesOutput (op : Op DataAct) (h : leavesOutput op = false) :
    ∃ src dst, op.act = .copy src dst := by
  unfold leavesOutput at h
  split at h
  case h_1 src _ _ _ hact => exact ⟨src, _, hact⟩
  case h_2 => cases h

theorem filter_leavesOutput {l : List (Op DataAct)}
    (hl : ∀ op ∈ l, ∃ src r x, op.act = .copy src (.comm r x)) : l.filter leavesOutput = l := by
  refine List.filter_eq_self.mpr fun op hop => ?_
  obtain ⟨src, r, x, hact⟩ := hl op hop
  rw [leavesOutput, hact]

/-- Without the copies to outputs nothing is copied between the barriers. -/
theorem keepOps_getProgram (h : getLaunch n = .ok ops) :
    keepOps leavesOutput (getProgram n ops) = getProgram n [] := by
  have hops : ops.filter leavesOutput = [] := by
    refine List.filter_eq_nil_iff.mpr fun op hop => ?_
    have hmem : op.act ∈ acts ops := ⟨op, hop, rfl⟩
    rw [Runtime.acts_launchPullCopy h] at hmem
    obtain ⟨b, -, hact⟩ := hmem
    simp [leavesOutput, hact]
  have hstage : ((largeRank 0).p2pStage 1 n).filter leavesOutput = (largeRank 0).p2pStage 1 n := by
    refine filter_leavesOutput fun op hop => ?_
    obtain ⟨b, -, rfl⟩ := List.mem_map.mp hop
    exact ⟨_, 0, b, rfl⟩
  funext p
  match p with
  | 0 =>
    show [_, _, Item.mk 1 .main (.kernel (((largeRank 0).p2pStage 1 n).filter leavesOutput)), _,
      _] = _
    rw [hstage]
    rfl
  | 1 =>
    show [_, _, _, Item.mk 1 .main (.kernel (ops.filter leavesOutput)), _] = _
    rw [hops]
    rfl
  | _ + 2 => rfl

/-- At a byte below `2 ^ 31` a copy of single bytes counts no tiles. -/
theorem deviceLaunchPullCopy_eq_nil {src dst : ℕ → Cell} {sms : ℤ} :
    deviceLaunchPullCopy src dst (2 ^ 31 - 1) 1 sms = some [] := by
  have hgrid : pullCopyGrid (2 ^ 31 - 1) 1 sms < 2 ^ 31 := by
    refine lt_of_le_of_lt (min_le_right _ _) ?_
    decide
  have hdtype : dtypeForVec 1 = 1 := rfl
  have hblock : max (defaultBlockBytes / 1) 1 = 65536 := rfl
  have htotal : ∀ np, (TileLoop.pullCopy (2 ^ 31 - 1) 1 65536 np).total.val = -32767 := fun _ =>
    (by decide : (TileLoop.pullCopy (2 ^ 31 - 1) 1 65536 0).total.val = -32767)
  have hnone : (decide ((2 ^ 31 - 1) % 1 ≠ 0)) = false := by decide
  unfold deviceLaunchPullCopy devicePullCopyKernel deviceVectorKernel
  rw [hdtype]
  dsimp only
  rw [hblock, hnone]
  refine TileLoop.run_eq_nil hgrid (fun pid hpid => ?_) fun pid hpid => ?_
  · rw [htotal]
    have hfirst : ((TileLoop.pullCopy (2 ^ 31 - 1) 1 65536
        (pullCopyGrid (2 ^ 31 - 1) 1 sms)).first pid).val = pid :=
      congrArg DInt.val (TileLoop.programId_cast (hpid.trans hgrid))
    rw [hfirst]
    omega
  · rw [if_neg (by simp)]

/-- What is not left out stores to no output. -/
theorem not_writesByte_of_leavesOutput {prog : Program} {t : Task} {r call b : ℕ}
    (ht : IsTask (keepOps leavesOutput prog) t) : ¬ t.op.act.writesByte (.output r call b) := by
  intro hwrites
  obtain ⟨src, hact⟩ := Act.exists_of_writesByte hwrites
  obtain ⟨op, hop, hcopy⟩ := exists_of_isTask_keepOps ht hact
  rw [leavesOutput, hcopy] at hop
  cases hop

/-- **A transfer of a byte less than `2 ^ 31` is lost**: the call of the receiver completes, and
its tensor is what it was. -/
theorem large_transfers_are_lost : ∃ (ops : List (Op DataAct))
    (h : getLaunch (2 ^ 31 - 1) = .ok ops) (s : State Task (Memory Cell)),
    (largeRank 1).p2pEntry (getArgs (2 ^ 31 - 1) .receiver) = .ok (2 ^ 31 - 1) ∧
      (pairGet h).TokensDistinct ∧
      (pairGet h).OnDevice (getTileLaunches (2 ^ 31 - 1)) (getProgram (2 ^ 31 - 1) []) ∧
      Reachable (device (getProgram (2 ^ 31 - 1) []) Cell 2) cellNames s ∧
      Completed (getProgram (2 ^ 31 - 1) []) s 1 1 ∧
      (∀ b, s.mem.byte (.output 1 1 b) = .output 1 1 b) ∧
      ∀ call', ¬ Delivered cellNames s.mem 0 call' 1 1 (2 ^ 31 - 1) := by
  obtain ⟨ops, h⟩ := exists_getLaunch (n := 2 ^ 31 - 1) (by decide)
  have hvec : vecFor [4096, 8192] ((2 ^ 31 - 1 : ℕ) : ℤ) = 1 := by decide +kernel
  have hdev : (pairGet h).OnDevice (getTileLaunches (2 ^ 31 - 1)) (getProgram (2 ^ 31 - 1) []) :=
    pairGet_onDevice (by rw [hvec, deviceLaunchPullCopy_eq_nil])
  -- a run that copies everything is followed by the one that copies nothing
  obtain ⟨x, hx, hfinished, -⟩ :=
    pairGet_follows.exists_finished (pairGet_tokensDistinct (h := h)) cellNames_zeroed .init
  obtain ⟨s, hs, hkept⟩ := exists_kept exists_of_leavesOutput hx
  have hdone := hkept.finished hfinished
  have hbyte : ∀ b, s.mem.byte (.output 1 1 b) = .output 1 1 b := fun b =>
    byte_eq_of_not_written hs fun _ => not_writesByte_of_leavesOutput
  have hprogram : keepOps leavesOutput (pairGet h).program = getProgram (2 ^ 31 - 1) [] :=
    keepOps_getProgram h
  rw [hprogram] at hs hdone
  refine ⟨ops, h, s, rfl, pairGet_tokensDistinct, hdev, hs, completed_of_finished hdone, hbyte,
    fun call' hdelivered => ?_⟩
  cases (hbyte 0).symm.trans (hdelivered.bytes 0 (by decide))

end Pair

end GroupFreeCollectives
