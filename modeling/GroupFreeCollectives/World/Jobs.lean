import GroupFreeCollectives.World.Job
import GroupFreeCollectives.World.Values

/-!
# The jobs of all ranks

What the ranks of a world do is a list of jobs for each of them (`Jobs`): any two ranks
agree on the order of the jobs that involve both, and a group id stands for one rank list.
Every rank takes the epochs of its jobs from its own counters, and with tokens that do not
repeat the jobs make a `World` (`Jobs.world`).
-/

namespace GroupFreeCollectives

open TaskGraph

/-! ## The jobs of a rank -/

section Contributions

variable (rt : Runtime)

/-- What the jobs of a rank enqueue, with epochs from its counters. -/
def contributions (m : EpochManager) : List Job → List Contribution
  | [] => []
  | j :: js => ⟨j.call, j.operation (m.peek j.request.groupId),
      j.items rt (m.peek j.request.groupId)⟩ ::
        contributions (m.advance j.request.groupId
          (j.request.work.shape rt.config.alignment).numEpochs) js

variable {rt} {m : EpochManager} {js : List Job}

@[simp] theorem contributions_nil : contributions rt m [] = [] := rfl

/-- The operations of the jobs are those of their requests. -/
theorem map_op_contributions : (contributions rt m js).map Contribution.op =
    issue rt.config.alignment m (js.map Job.request) := by
  induction js generalizing m with
  | nil => rfl
  | cons j js ih => simp [contributions, issue, ih, Job.operation]

theorem map_call_contributions : (contributions rt m js).map Contribution.call =
    js.map Job.call := by
  induction js generalizing m with
  | nil => rfl
  | cons j js ih => simp [contributions, ih]

/-- A contribution is what a job enqueues. -/
theorem exists_of_getElem?_contributions {n : ℕ} {x : Contribution}
    (h : (contributions rt m js)[n]? = some x) : ∃ j e, js[n]? = some j ∧
      x = ⟨j.call, j.operation e, j.items rt e⟩ := by
  induction js generalizing m n with
  | nil => simp at h
  | cons j js ih =>
    cases n with
    | zero => exact ⟨j, _, rfl, (Option.some_inj.mp h).symm⟩
    | succ n => exact ih h

theorem exists_of_mem_contributions {x : Contribution} (h : x ∈ contributions rt m js) :
    ∃ j ∈ js, ∃ e, x = ⟨j.call, j.operation e, j.items rt e⟩ := by
  obtain ⟨n, hn⟩ := List.mem_iff_getElem?.mp h
  obtain ⟨j, e, hj, rfl⟩ := exists_of_getElem?_contributions hn
  exact ⟨j, List.mem_of_getElem? hj, e, rfl⟩

theorem length_contributions : (contributions rt m js).length = js.length := by
  induction js generalizing m with
  | nil => rfl
  | cons j js ih => simp [contributions, ih]

end Contributions

/-- The members of a valid job are a group of the world. -/
theorem Job.Valid.member {rt : Runtime} {j : Job} (h : j.Valid rt) : Member rt j.request.ranks := by
  cases h with
  | barrier hmem => exact hmem
  | collective hmem => exact hmem
  | p2p hmem => exact hmem

/-! ## The call of an item -/

/-- The items belong to the call. -/
def Tagged (c : ℕ) (its : List Item) : Prop := ∀ it ∈ its, it.call = c

section Tagged

variable {c : ℕ} {its its' : List Item}

@[simp] theorem tagged_nil : Tagged c [] := by
  simp [Tagged]

@[simp] theorem tagged_cons {it : Item} : Tagged c (it :: its) ↔ it.call = c ∧ Tagged c its :=
  List.forall_mem_cons

@[simp] theorem tagged_append : Tagged c (its ++ its') ↔ Tagged c its ∧ Tagged c its' :=
  List.forall_mem_append

@[simp] theorem tagged_flatMap {β : Type} {l : List β} {f : β → List Item} :
    Tagged c (l.flatMap f) ↔ ∀ x ∈ l, Tagged c (f x) := by
  simp only [Tagged, List.mem_flatMap]
  exact ⟨fun h x hx it hit => h it ⟨x, hx, hit⟩, fun h it ⟨x, hx, hit⟩ => h x hx it hit⟩

@[simp] theorem tagged_kernels {stream : StreamId} {ks : List (List (Op DataAct))} :
    Tagged c (ks.map fun ops => ⟨c, stream, .kernel ops⟩) := by
  simp [Tagged]

@[simp] theorem tagged_ingestItems {current : StreamId} :
    Tagged c (Runtime.ingestItems c current) := by
  cases current <;> simp [Runtime.ingestItems]

theorem tagged_pathItems {rt : Runtime} {a : CollectiveArgs} {e : ℕ} (path : DataPath) :
    Tagged a.call (rt.pathItems a e path) := by
  cases path with
  | oneShot eng =>
    simp [Runtime.pathItems, Runtime.oneShotPrefix, Runtime.kernelItems, Runtime.barrierItem]
  | fused k s => simp [Runtime.pathItems, Runtime.barrierItem]
  | pipelined chunks =>
    simp [Runtime.pathItems, Runtime.pipelinedItems, Runtime.chunkItems, Runtime.kernelItems,
      Runtime.barrierItem]

/-- **What a job enqueues belongs to its call.** -/
theorem Job.tagged_items {rt : Runtime} {e : ℕ} (j : Job) : Tagged j.call (j.items rt e) := by
  cases j with
  | barrier call gid ranks => simp [Job.items, Job.call]
  | collective current a path =>
    simp [Job.items, Job.call, tagged_pathItems]
  | p2p call current a n gid ks =>
    simp only [Job.items, Job.call, Runtime.p2pPrefix, Runtime.p2pSuffix]
    split <;> split <;> simp

end Tagged

/-! ## The jobs of a world -/

/-- The runtime of rank `p` in a world of `W` ranks that share a setup. -/
structure Runtime.IsRank (rt : Runtime) (cfg : Config) (nonce : ℤ) (W p : ℕ) : Prop where
  rank_eq : rt.rank = p
  worldSize_eq : rt.worldSize = W
  config_eq : rt.config = cfg
  sessionNonce_eq : rt.sessionNonce = nonce

/-- What the ranks of a world do. -/
structure Jobs (cfg : Config) (nonce : ℤ) (W : ℕ) where
  rt : ℕ → Runtime
  isRank : ∀ p < W, (rt p).IsRank cfg nonce W p
  jobs : ℕ → List Job
  jobs_eq_nil : ∀ p, W ≤ p → jobs p = []
  valid : ∀ p, ∀ j ∈ jobs p, j.Valid (rt p)
  /-- every call has tensors of its own -/
  calls_nodup : ∀ p, ((jobs p).map Job.call).Nodup
  /-- a group id stands for one rank list -/
  ids : ∀ p, ∀ j ∈ jobs p, ∀ j' ∈ jobs p, j.request.groupId = j'.request.groupId →
    j.request.ranks = j'.request.ranks
  /-- any two ranks agree on what involves both -/
  agree : ∀ p q, ((jobs p).map Job.request).filter (q ∈ ·.ranks) =
    ((jobs q).map Job.request).filter (p ∈ ·.ranks)

namespace Jobs

variable {cfg : Config} {nonce : ℤ} {W : ℕ} (J : Jobs cfg nonce W)

/-- The parts of a rank in operations: its jobs, with their epochs. -/
def parts (p : ℕ) : List Contribution := contributions (J.rt p) .empty (J.jobs p)

/-- What the ranks enqueue. -/
def program : Program := fun p => (J.parts p).flatMap Contribution.items

/-- No rank meets a token twice. -/
def TokensDistinct : Prop :=
  ∀ p, ((J.parts p).flatMap fun x => x.op.tokens nonce cfg.alignment).Nodup

variable {J} {p q n : ℕ} {x : Contribution} {j : Job}

theorem lt_of_mem_jobs (hj : j ∈ J.jobs p) : p < W := by
  by_contra hlt
  rw [J.jobs_eq_nil p (Nat.le_of_not_lt hlt)] at hj
  cases hj

theorem exists_job (h : (J.parts p)[n]? = some x) : ∃ j e, (J.jobs p)[n]? = some j ∧
    x = ⟨j.call, j.operation e, j.items (J.rt p) e⟩ := exists_of_getElem?_contributions h

theorem exists_part (h : (J.jobs p)[n]? = some j) : ∃ e, (J.parts p)[n]? =
    some ⟨j.call, j.operation e, j.items (J.rt p) e⟩ := by
  have hlt : n < (J.parts p).length := by
    unfold parts
    rw [length_contributions]
    exact (List.getElem?_eq_some_iff.mp h).1
  obtain ⟨j', e, hj', hx⟩ := exists_job (List.getElem?_eq_getElem hlt)
  obtain rfl := Option.some_inj.mp (h.symm.trans hj')
  exact ⟨e, by rw [List.getElem?_eq_getElem hlt, hx]⟩

theorem exists_of_mem_parts (h : x ∈ J.parts p) : ∃ j ∈ J.jobs p, ∃ e,
    x = ⟨j.call, j.operation e, j.items (J.rt p) e⟩ := exists_of_mem_contributions h

/-- **Ranks that agree on their requests agree on their operations.** -/
theorem map_op_filter (p q : ℕ) : ((J.parts p).map Contribution.op).filter (q ∈ ·.ranks) =
    ((J.parts q).map Contribution.op).filter (p ∈ ·.ranks) := by
  have hids : ∀ p, ∀ r ∈ (J.jobs p).map Job.request, ∀ r' ∈ (J.jobs p).map Job.request,
      r.groupId = r'.groupId → r.ranks = r'.ranks := by
    intro p r hr r' hr' hid
    obtain ⟨j, hj, rfl⟩ := List.mem_map.mp hr
    obtain ⟨j', hj', rfl⟩ := List.mem_map.mp hr'
    exact J.ids p j hj j' hj' hid
  have hissue : ∀ p q, ((J.parts p).map Contribution.op).filter (q ∈ ·.ranks) =
      issue (J.rt p).config.alignment .empty
        (((J.jobs p).map Job.request).filter (q ∈ ·.ranks)) := by
    intro p q
    rw [parts, map_op_contributions]
    exact filter_issue (hids p) fun _ _ _ => rfl
  rw [hissue p q, hissue q p, J.agree p q]
  -- without jobs there is nothing to compare
  cases hp : ((J.jobs q).map Job.request).filter (p ∈ ·.ranks) with
  | nil => rfl
  | cons r rs =>
    have hr : r ∈ ((J.jobs q).map Job.request).filter (p ∈ ·.ranks) := by simp [hp]
    have hr' := hr
    rw [← J.agree p q] at hr'
    obtain ⟨j, hj, -⟩ := List.mem_map.mp (List.mem_of_mem_filter hr)
    obtain ⟨j', hj', -⟩ := List.mem_map.mp (List.mem_of_mem_filter hr')
    rw [(J.isRank q (lt_of_mem_jobs hj)).config_eq, (J.isRank p (lt_of_mem_jobs hj')).config_eq]

/-- What a job enqueues is its rank's part in an operation. -/
theorem isPart_of_mem (hx : x ∈ J.parts p) : IsPart cfg nonce W x.op p x.call x.items := by
  obtain ⟨j, hj, e, rfl⟩ := exists_of_mem_parts hx
  have hrank := J.isRank p (lt_of_mem_jobs hj)
  have hpart := (J.valid p j hj).isPart e
  rwa [hrank.config_eq, hrank.sessionNonce_eq, hrank.worldSize_eq, hrank.rank_eq] at hpart

variable (J) in
/-- **Jobs whose tokens do not repeat make a world.** -/
def world (h : J.TokensDistinct) : World cfg nonce W where
  parts := J.parts
  isPart _ _ hx := isPart_of_mem hx
  lt p x hx q hq := by
    obtain ⟨j, hj, e, rfl⟩ := exists_of_mem_parts hx
    have hlt := (J.valid p j hj).member.lt q hq
    rwa [(J.isRank p (lt_of_mem_jobs hj)).worldSize_eq] at hlt
  calls_nodup p := by
    rw [parts, map_call_contributions]
    exact J.calls_nodup p
  agree := map_op_filter
  tokens_nodup := h

@[simp] theorem world_parts (h : J.TokensDistinct) : (J.world h).parts = J.parts := rfl

@[simp] theorem world_program (h : J.TokensDistinct) : (J.world h).program = J.program := rfl

end Jobs

/-! ## Calls that have completed -/

section Completed

variable {α : Type} {s : State Task (Memory α)}

/-- Rank `p` has done everything that its call enqueued. -/
def Completed (prog : Program) (s : State Task (Memory α)) (p call : ℕ) : Prop :=
  ∀ i it o, (prog p)[i]? = some it → it.call = call → o ∈ it.cmd.ops → ⟨p, i, o⟩ ∈ s.done

variable {cfg : Config} {nonce : ℤ} {W : ℕ} {J : Jobs cfg nonce W} {h : J.TokensDistinct}
  {p n : ℕ} {x : Contribution}

theorem Completed.copied (hdone : Completed J.program s p x.call)
    (hx : (J.parts p)[n]? = some x) : (J.world h).Copied s p n x := by
  rintro m op ⟨it, ops, hm, hcmd, hop⟩
  have htag : it.call = x.call := by
    obtain ⟨j, e, -, rfl⟩ := Jobs.exists_job hx
    exact j.tagged_items it (List.mem_of_getElem? hm)
  refine hdone _ it _ (World.getElem?_program (w := J.world h) hx hm) htag ?_
  rw [hcmd]
  exact List.mem_map_of_mem hop

end Completed

end GroupFreeCollectives
