import GroupFreeCollectives.StepValue
import GroupFreeCollectives.World.Jobs
import GroupFreeCollectives.World.Reissue

/-!
# Launches with other epochs

The epoch of a call is in what it enqueues as the tokens of its barriers and as the step base of
its fused kernel, and nowhere else (`Job.items_reissue`).  So a program in which calls have the
epochs of other calls is theirs with other tokens and step values (`Jobs.Repeats.program_reissue`).

`Jobs.replay` is such a program: what a CUDA graph executes at every replay are the launches of the
captured calls, with the epochs that these calls took.
-/

namespace GroupFreeCollectives

open TaskGraph Positions

/-! ## A job with another epoch -/

section Items

variable {token step : ℕ → ℕ} {b b' : ℕ}

/-- A step value of one base as that of another one. -/
def rebase (b b' v : ℕ) : ℕ := if v < 2 ^ 64 then (v + (2 ^ 64 - b) + b') % 2 ^ 64 else v

theorem rebase_injective (b b' : ℕ) : (rebase b b').Injective := by
  intro v v' h
  unfold rebase at h
  split_ifs at h <;> omega

theorem rebase_stepValue (hb : b < 2 ^ 64) (k : ℕ) :
    rebase b b' (stepValue b k) = stepValue b' k := by
  unfold rebase stepValue
  rw [if_pos (Nat.mod_lt _ (by norm_num))]
  omega

theorem fusedBlockCopy_reissue {src dst : ℕ → Cell} {dst2 : Option (ℕ → Cell)} {n be v : ℕ} :
    (fusedBlockCopy src dst dst2 n be v).map (DataAct.reissue step) =
      fusedBlockCopy src dst dst2 n be v := by
  unfold fusedBlockCopy
  rw [List.map_flatMap]
  refine List.flatMap_congr fun j _ => ?_
  cases dst2 <;> rfl

theorem map_mapAct_map (thread phase : ℕ) (ds : List DataAct)
    (h : ds.map (DataAct.reissue step) = ds) :
    (ds.map fun d => (⟨thread, phase, d⟩ : Op DataAct)).map (Op.mapAct (DataAct.reissue step)) =
      ds.map fun d => ⟨thread, phase, d⟩ := by
  conv_rhs => rw [← h]
  rw [List.map_map, List.map_map]
  rfl

namespace FusedKernelArgs

variable {a : FusedKernelArgs}

/-- **A fused kernel with another step base** has its step values renamed. -/
theorem kernel_reissue (kind : Collective)
    (hstep : ∀ k, step (stepValue a.stepBase k) = stepValue b' k) :
    (a.kernel kind).map (Op.mapAct (DataAct.reissue step)) =
      ({ a with stepBase := b' } : FusedKernelArgs).kernel kind := by
  have hstage : ∀ base n, (a.stage kind base n).map (DataAct.reissue step) =
      a.stage kind base n := by
    intro base n
    cases kind with
    | allGather => exact fusedBlockCopy_reissue
    | all2All =>
      simp only [stage, all2AllStage, List.map_append, List.map_flatMap, fusedBlockCopy_reissue]
  rw [kernel_eq, kernel_eq, fusedKernel, fusedKernel, List.map_flatMap]
  refine List.flatMap_congr fun pid _ => ?_
  dsimp only
  split_ifs with hout heven
  · rfl
  · rw [sender, sender, List.map_flatMap]
    refine List.flatMap_congr fun k _ => ?_
    rw [List.map_append, map_mapAct_map _ _ _ (hstage _ _), List.map_map]
    refine congrArg₂ _ (by cases kind <;> rfl) (List.map_congr_left fun x _ => ?_)
    show (⟨pid, 2 * k + 1, .stepPublish x.2 _ (step (stepValue a.stepBase k))⟩ : Op DataAct) = _
    rw [hstep]
    rfl
  · rw [receiver, receiver, List.map_flatMap]
    refine List.flatMap_congr fun k _ => ?_
    rw [List.map_cons, List.map_flatMap]
    refine congrArg₂ _ ?_ (List.flatMap_congr fun d _ => ?_)
    · show (⟨pid, 2 * k + 2, .stepAwait _ (step (stepValue a.stepBase k))⟩ : Op DataAct) = _
      rw [hstep]
      rfl
    · dsimp only
      split_ifs
      · exact map_mapAct_map _ _ _ fusedBlockCopy_reissue
      · rfl

end FusedKernelArgs

theorem Item.reissue_kernel {call : ℕ} {stream : StreamId} {ops : List (Op DataAct)} :
    Item.reissue token step ⟨call, stream, .kernel ops⟩ =
      ⟨call, stream, .kernel (ops.map (Op.mapAct (DataAct.reissue step)))⟩ := rfl

theorem Runtime.fusedKernel_reissue {rt : Runtime} {a : CollectiveArgs}
    {numChannels chunkBytes : ℤ} (hstep : ∀ k, step (stepValue b k) = stepValue b' k) :
    ((rt.fusedArgs a numChannels chunkBytes b).kernelArgs.kernel a.kind).map
        (Op.mapAct (DataAct.reissue step)) =
      (rt.fusedArgs a numChannels chunkBytes b').kernelArgs.kernel a.kind :=
  FusedKernelArgs.kernel_reissue a.kind hstep

/-- Kernels that only copy are what they were. -/
theorem reissue_of_copies {its : List Item}
    (h : ∀ m op, HasOp its m op → ∃ src dst, op.act = .copy src dst) :
    its.map (Item.reissue token step) = its.map (Item.reissue token id) := by
  refine List.map_congr_left fun it hit => ?_
  obtain ⟨m, hm⟩ := List.getElem?_of_mem hit
  rcases it with ⟨call, stream, cmd⟩
  cases cmd with
  | kernel ops =>
    have hops : ops.map (Op.mapAct (DataAct.reissue step)) =
        ops.map (Op.mapAct (DataAct.reissue id)) := by
      refine List.map_congr_left fun op hop => ?_
      obtain ⟨src, dst, hact⟩ := h m op ⟨_, ops, hm, rfl, hop⟩
      rw [Op.mapAct, Op.mapAct, hact]
      rfl
    rw [Item.reissue_kernel, Item.reissue_kernel, hops]
  | _ => rfl

@[simp] theorem Item.reissue_kernel_id {call : ℕ} {stream : StreamId} {ops : List (Op DataAct)} :
    Item.reissue token id ⟨call, stream, .kernel ops⟩ = ⟨call, stream, .kernel ops⟩ := by
  have hid : Op.mapAct (DataAct.reissue id) = id := by
    funext ⟨thread, phase, d⟩
    cases d <;> rfl
  rw [Item.reissue_kernel, hid, List.map_id]

@[simp] theorem Item.reissue_comp_kernel {call : ℕ} {stream : StreamId} :
    (Item.reissue token id ∘ fun ops => ⟨call, stream, .kernel ops⟩) =
      fun ops => ⟨call, stream, .kernel ops⟩ := by
  funext ops
  exact Item.reissue_kernel_id

@[simp] theorem Item.reissue_barrier {call tok : ℕ} {stream : StreamId} {ranks : List ℕ} :
    Item.reissue token step ⟨call, stream, .barrier ranks tok⟩ =
      ⟨call, stream, .barrier ranks (token tok)⟩ := rfl

@[simp] theorem Item.reissue_record {call e : ℕ} {stream : StreamId} :
    Item.reissue token step ⟨call, stream, .record e⟩ = ⟨call, stream, .record e⟩ := rfl

@[simp] theorem Item.reissue_wait {call e : ℕ} {stream : StreamId} :
    Item.reissue token step ⟨call, stream, .wait e⟩ = ⟨call, stream, .wait e⟩ := rfl

theorem ingestItems_reissue {call : ℕ} {current : StreamId} :
    (Runtime.ingestItems call current).map (Item.reissue token step) =
      Runtime.ingestItems call current := by
  cases current <;> rfl

namespace Job

variable {rt : Runtime} {j : Job} {e e' : ℕ}

/-- **A job with another epoch** enqueues the same items with other tokens and step values. -/
theorem items_reissue (h : j.Valid rt)
    (htoken : ∀ k ∈ (j.request.work.shape rt.config.alignment).offsets,
      token (rt.token j.request.groupId (e + k)) = rt.token j.request.groupId (e' + k))
    (hstep : ∀ k, step (stepValue (rt.token j.request.groupId (e + 1)) k) =
      stepValue (rt.token j.request.groupId (e' + 1)) k) :
    (j.items rt e).map (Item.reissue token step) = j.items rt e' := by
  rcases (h.isPart e).cases with ⟨hempty, hplain⟩ | ⟨F, -⟩
  · rw [reissue_of_copies hplain.act_eq_copy]
    cases j with
    | barrier call gid ranks =>
      have h0 : token (rt.token gid (e + 0)) = rt.token gid (e' + 0) :=
        htoken 0 (show 0 ∈ Runtime.Shape.single.offsets by decide)
      simpa [items] using h0
    | collective current a path =>
      cases path with
      | oneShot eng =>
        have h0 : token (rt.token a.group.groupId (e + 0)) = rt.token a.group.groupId (e' + 0) :=
          htoken 0 (show 0 ∈ Runtime.Shape.pair.offsets by decide)
        have h1 : token (rt.token a.group.groupId (e + 1)) = rt.token a.group.groupId (e' + 1) :=
          htoken 1 (show 1 ∈ Runtime.Shape.pair.offsets by decide)
        rw [Nat.add_zero, Nat.add_zero] at h0
        simp [items, Runtime.pathItems, Runtime.oneShotPrefix, Runtime.barrierItem,
          Runtime.kernelItems, ingestItems_reissue, h0, h1]
      | fused numChannels chunkBytes => exact (hempty.false ⟨_, _, _, _, rfl⟩).elim
      | pipelined chunks =>
        have hk : ∀ k ≤ (layoutChunks a.sliceBytes chunks rt.config.alignment).length,
            token (rt.token a.group.groupId (e + k)) = rt.token a.group.groupId (e' + k) :=
          fun k hk => htoken k (List.mem_range.mpr (Nat.lt_succ_of_le hk))
        simp [items, Runtime.pathItems, Runtime.pipelinedItems, Runtime.chunkItems,
          Runtime.barrierItem, Runtime.kernelItems, ingestItems_reissue, List.map_flatMap, hk]
        refine List.flatMap_congr fun x hx => ?_
        rw [hk x.2 (Nat.le_of_lt (List.snd_lt_of_mem_zipIdx hx))]
    | p2p call current a n gid ks =>
      have h0 : token (rt.token gid (e + 0)) = rt.token gid (e' + 0) :=
        htoken 0 (show 0 ∈ Runtime.Shape.pair.offsets by decide)
      have h1 : token (rt.token gid (e + 1)) = rt.token gid (e' + 1) :=
        htoken 1 (show 1 ∈ Runtime.Shape.pair.offsets by decide)
      rw [Nat.add_zero, Nat.add_zero] at h0
      have hif : ∀ (c : Prop) [Decidable c] (ops : List (Op DataAct)),
          (if c then [⟨call, .main, .kernel ops⟩] else [] : List Item).map
            (Item.reissue token id) = if c then [⟨call, .main, .kernel ops⟩] else [] := by
        intro c _ ops
        split <;> simp
      simp [items, Runtime.p2pPrefix, Runtime.p2pSuffix, ingestItems_reissue, h0, h1, hif]
  · cases j with
    | collective current a path =>
      cases path with
      | fused numChannels chunkBytes =>
        have h0 : token (rt.token a.group.groupId (e + 0)) = rt.token a.group.groupId (e' + 0) :=
          htoken 0 (show 0 ∈ Runtime.Shape.fused.offsets by decide)
        have h2 : token (rt.token a.group.groupId (e + 2)) = rt.token a.group.groupId (e' + 2) :=
          htoken 2 (show 2 ∈ Runtime.Shape.fused.offsets by decide)
        rw [Nat.add_zero, Nat.add_zero] at h0
        have hkernel : (rt.fusedKernelOps a numChannels chunkBytes (e + 1)).map
            (Op.mapAct (DataAct.reissue step)) =
              rt.fusedKernelOps a numChannels chunkBytes (e' + 1) :=
          Runtime.fusedKernel_reissue hstep
        simp [items, Runtime.pathItems, Runtime.barrierItem, ingestItems_reissue, h0, h2,
          Item.reissue_kernel, hkernel]
      | _ => exact absurd F.work_eq (by simp [operation, request, DataPath.pathKind])
    | _ => exact absurd F.work_eq (by simp [operation, request])

end Job

end Items

/-! ## Calls that are executed again -/

/-- A token of one operation as that of another one with the same request. -/
def Operation.retoken (nonce : ℤ) (alignment : ℕ) (o o' : Operation) (tok : ℕ) : ℕ :=
  (o'.tokens nonce alignment).getD ((o.tokens nonce alignment).idxOf tok) 0

theorem Operation.retoken_token {nonce : ℤ} {alignment : ℕ} {r : Request} {e e' k : ℕ}
    (hnd : (Operation.tokens nonce alignment ⟨r, e⟩).Nodup)
    (hk : k ∈ (r.work.shape alignment).offsets) :
    Operation.retoken nonce alignment ⟨r, e⟩ ⟨r, e'⟩ (computeToken nonce r.groupId (e + k)) =
      computeToken nonce r.groupId (e' + k) := by
  obtain ⟨i, hi⟩ := List.getElem?_of_mem hk
  have htok : ∀ e, (Operation.tokens nonce alignment ⟨r, e⟩)[i]? =
      some (computeToken nonce r.groupId (e + k)) := by
    intro e
    rw [Operation.tokens, List.getElem?_map, hi, Option.map_some]
  obtain ⟨hlt, heq⟩ := List.getElem?_eq_some_iff.mp (htok e)
  rw [Operation.retoken, ← heq, hnd.idxOf_getElem i hlt, List.getD_eq_getElem?_getD, htok e',
    Option.getD_some]

namespace Jobs

variable {cfg : Config} {nonce : ℤ} {W : ℕ} (J : Jobs cfg nonce W)

/-- The members of a group make one request `N` times. -/
def Repeats (r : Request) (N : ℕ) : Prop :=
  ∀ p, (J.jobs p).map Job.request = if p ∈ r.ranks then List.replicate N r else []

/-- The first epoch of call number `n` of a rank. -/
def epoch (p n : ℕ) : ℕ := ((J.parts p)[n]?).elim 0 fun x => x.op.epoch

/-- What the device executes, if at place `n` it executes the launches of call number `call n`:
they have the epochs of that call. -/
def replay (call : ℕ → ℕ) : Program := fun p =>
  ((J.jobs p).mapIdx fun n j => j.items (J.rt p) (J.epoch p (call n))).flatten

/-- How the calls of a request differ from what is executed. -/
def reissue (r : Request) (call : ℕ → ℕ) : Reissue where
  token p i := Operation.retoken nonce cfg.alignment
    ⟨r, J.epoch p (locate Contribution.items (J.parts p) i).1⟩
    ⟨r, J.epoch p (call (locate Contribution.items (J.parts p) i).1)⟩
  step p i := rebase
    (computeToken nonce r.groupId (J.epoch p (locate Contribution.items (J.parts p) i).1 + 1))
    (computeToken nonce r.groupId
      (J.epoch p (call (locate Contribution.items (J.parts p) i).1) + 1))
  step_injective _ _ := rebase_injective _ _

namespace Repeats

variable {J} {r : Request} {N p q n : ℕ} {x : Contribution} {call : ℕ → ℕ}
  (hJ : J.Repeats r N)
include hJ

theorem mem_of_part (hx : (J.parts p)[n]? = some x) : p ∈ r.ranks ∧ n < N ∧
    x.op = ⟨r, J.epoch p n⟩ := by
  obtain ⟨j, e, hj, rfl⟩ := exists_job hx
  have hget : ((J.jobs p).map Job.request)[n]? = some j.request := by
    rw [List.getElem?_map, hj, Option.map_some]
  rw [hJ p] at hget
  split at hget
  case isTrue hp =>
    obtain ⟨hlt, heq⟩ := List.getElem?_eq_some_iff.mp hget
    rw [List.getElem_replicate] at heq
    refine ⟨hp, by simpa using hlt, ?_⟩
    rw [epoch, hx, heq]
    rfl
  case isFalse => cases hget

theorem exists_part (hp : p ∈ r.ranks) (hn : n < N) : ∃ x, (J.parts p)[n]? = some x := by
  have hlen : (J.parts p).length = N := by
    have hmap := congrArg List.length (hJ p)
    rw [if_pos hp, List.length_replicate, List.length_map] at hmap
    rw [parts, length_contributions, hmap]
  exact ⟨_, List.getElem?_eq_getElem (hlen ▸ hn)⟩

/-- Members have the same epochs. -/
theorem epoch_eq (hp : p ∈ r.ranks) (hq : q ∈ r.ranks) (hn : n < N) :
    J.epoch p n = J.epoch q n := by
  have hall : ∀ p q, q ∈ r.ranks → ((J.parts p).map Contribution.op).filter (q ∈ ·.ranks) =
      (J.parts p).map Contribution.op := by
    intro p q hq
    refine List.filter_eq_self.mpr fun o ho => ?_
    obtain ⟨x, hx, rfl⟩ := List.mem_map.mp ho
    obtain ⟨n, hn⟩ := List.getElem?_of_mem hx
    rw [(hJ.mem_of_part hn).2.2]
    simpa using hq
  have hops := J.map_op_filter p q
  rw [hall p q hq, hall q p hp] at hops
  obtain ⟨x, hx⟩ := hJ.exists_part hp hn
  obtain ⟨y, hy⟩ := hJ.exists_part hq hn
  have hxy := congrArg (·[n]?) hops
  rw [List.getElem?_map, List.getElem?_map, hx, hy, Option.map_some, Option.map_some,
    (hJ.mem_of_part hx).2.2, (hJ.mem_of_part hy).2.2] at hxy
  exact congrArg Operation.epoch (Option.some_inj.mp hxy)

/-- **What is executed** is what the calls enqueue, with other tokens and step values. -/
theorem program_reissue (htok : J.TokensDistinct) :
    (J.reissue r call).program J.program = J.replay call := by
  funext p
  show (J.program p).mapIdx _ = _
  rw [replay, program]
  refine (flatten_mapIdx_map_eq (l := J.parts p) (g := Contribution.items) fun n =>
    Item.reissue (Operation.retoken nonce cfg.alignment ⟨r, J.epoch p n⟩ ⟨r, J.epoch p (call n)⟩)
      (rebase (computeToken nonce r.groupId (J.epoch p n + 1))
        (computeToken nonce r.groupId (J.epoch p (call n) + 1)))).symm.trans ?_
  congr 1
  ext1 n
  rw [List.getElem?_mapIdx, List.getElem?_mapIdx]
  cases hj : (J.jobs p)[n]? with
  | none =>
    rw [List.getElem?_eq_none_iff] at hj
    rw [List.getElem?_eq_none (by rwa [parts, length_contributions])]
    rfl
  | some j =>
    obtain ⟨e, hx⟩ := Jobs.exists_part hj
    obtain ⟨-, -, hop⟩ := hJ.mem_of_part hx
    have hrequest : j.request = r := congrArg Operation.toRequest hop
    have hepoch : e = J.epoch p n := congrArg Operation.epoch hop
    have hmem := List.mem_of_getElem? hj
    have hrank := J.isRank p (lt_of_mem_jobs hmem)
    have hnd := (List.nodup_flatMap.mp (htok p)).1 _ (List.mem_of_getElem? hx)
    rw [hx, Option.map_some, Option.map_some]
    dsimp only
    rw [← hepoch]
    refine congrArg some (Job.items_reissue (J.valid p j hmem) (fun k hk => ?_) fun k => ?_)
    · rw [hrank.config_eq] at hk
      rw [Runtime.token, Runtime.token, hrank.sessionNonce_eq, ← hrequest]
      exact Operation.retoken_token hnd hk
    · rw [Runtime.token, Runtime.token, hrank.sessionNonce_eq, ← hrequest]
      exact rebase_stepValue computeToken_lt k

end Repeats

end Jobs

end GroupFreeCollectives
