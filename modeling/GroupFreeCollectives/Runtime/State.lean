import GroupFreeCollectives.Autotune
import GroupFreeCollectives.Kernels.Engines
import GroupFreeCollectives.Runtime.Registry

/-!
# The runtime object and its state

The attributes of `SymmetricCollectiveRuntime` that do not change after construction
(`Runtime`), those that do (`RuntimeState`), and the primitive operations of
`gfc/runtime.py` on them.  A method is an `EStateM` program: when it raises, the state
keeps what was done before.  What is enqueued on the streams is appended to `items`.

A method takes the number of its call, which names its tensors and tags its items.  The
lock is not modelled: methods run one after another.  Triton, CUDA and torch calls do
not fail.
-/

namespace GroupFreeCollectives

/-- What the entry checks and the launchers read of a tensor. -/
structure Tensor where
  dataPtr : ℕ
  nbytes : ℕ
  isCuda : Bool
  device : String
  isContiguous : Bool

/-- The attributes of a constructed runtime. -/
structure Runtime where
  config : Config
  device : String
  rank : ℕ
  worldSize : ℕ
  numSms : ℕ
  tmaEnabled : Bool
  autotune : Option AutotuneTable
  sessionNonce : ℤ
  /-- the base of every rank's `comm_buf` in this rank's address space -/
  bufferPtrs : ℕ → ℕ
  numSms_pos : 0 < numSms
  rank_lt : rank < worldSize

namespace Runtime

variable (rt : Runtime)

/-- `copy_sms`: at most the SMs of the device. -/
def copySms : ℕ := min rt.numSms rt.config.copySms

/-- `copy_engine_enabled`. -/
def copyEngineEnabled : Bool := rt.config.useCopyEngine

/-- `comm_buf.local_ptr`. -/
def localPtr : ℕ := rt.bufferPtrs rt.rank

theorem copySms_pos : 0 < rt.copySms := lt_min rt.numSms_pos rt.config.copySms_pos

end Runtime

/-- The attributes that change. -/
structure RuntimeState (rank worldSize : ℕ) where
  registry : Registry rank worldSize
  epochs : EpochManager
  /-- what has been enqueued on the streams -/
  items : List Item

namespace RuntimeState

variable {rank worldSize : ℕ} (s : RuntimeState rank worldSize)

/-- A runtime that has just been constructed. -/
def initial : RuntimeState rank worldSize := ⟨.empty, .empty, []⟩

/-- The state after more items were enqueued. -/
def push (its : List Item) : RuntimeState rank worldSize := { s with items := s.items ++ its }

/-- The state after epochs of a group were issued. -/
def advance (gid : ℤ) (n : ℕ) : RuntimeState rank worldSize :=
  { s with epochs := s.epochs.advance gid n }

variable (a b : List Item) (gid : ℤ) (m n : ℕ)

@[simp] theorem push_items : (s.push a).items = s.items ++ a := rfl
@[simp] theorem push_epochs : (s.push a).epochs = s.epochs := rfl
@[simp] theorem push_registry : (s.push a).registry = s.registry := rfl
@[simp] theorem advance_items : (s.advance gid n).items = s.items := rfl
@[simp] theorem advance_epochs : (s.advance gid n).epochs = s.epochs.advance gid n := rfl
@[simp] theorem advance_registry : (s.advance gid n).registry = s.registry := rfl

@[simp] theorem push_push : (s.push a).push b = s.push (a ++ b) := by
  simp [push]

@[simp] theorem push_nil : s.push [] = s := by
  simp [push]

@[simp] theorem advance_zero : s.advance gid 0 = s := by
  simp [advance]

@[simp] theorem push_advance : (s.push a).advance gid n = (s.advance gid n).push a := rfl

@[simp] theorem advance_advance :
    (s.advance gid m).advance gid n = s.advance gid (m + n) := by
  simp only [advance, EpochManager.advance_advance]

end RuntimeState

/-- A method of a runtime. -/
abbrev Runtime.M (rt : Runtime) : Type → Type :=
  EStateM PyError (RuntimeState rt.rank rt.worldSize)

/-! ## Running checks -/

section Run

variable {ε σ α β : Type} {x : EStateM ε σ α} {f : α → EStateM ε σ β} {s s' : σ}

/-- A program that returns runs its continuation. -/
theorem run_bind_of_ok {a : α} (h : x.run s = .ok a s') : (x >>= f).run s = (f a).run s' := by
  rw [EStateM.run_bind, h]

variable {cond : Bool} {msg : String} {t : EStateM PyError σ α}

theorem run_require {s : σ} : (require cond msg : EStateM PyError σ Unit).run s =
    if cond then .ok () s else .error (.valueError msg) s := by
  cases cond <;> rfl

theorem run_pyAssert {s : σ} : (pyAssert cond : EStateM PyError σ Unit).run s =
    if cond then .ok () s else .error .assertionError s := by
  cases cond <;> rfl

/-- A check outside the state leaves it alone. -/
theorem run_ofExcept {y : Except PyError α} {s : σ} :
    (MonadExcept.ofExcept y : EStateM PyError σ α).run s =
      match y with
      | .ok a => .ok a s
      | .error e => .error e s := by
  cases y <;> rfl

end Run

/-! ## Primitive operations -/

namespace Runtime

variable (rt : Runtime) (call : ℕ)

/-- Enqueue one item. -/
def enqueue (stream : StreamId) (cmd : Cmd) : rt.M Unit :=
  modify fun s => s.push [⟨call, stream, cmd⟩]

/-- Enqueue kernels on a stream, one after another. -/
def enqueueKernels (stream : StreamId) (ks : List (List (Op DataAct))) : rt.M Unit :=
  forM ks fun ops => rt.enqueue call stream (.kernel ops)

/-- `_EpochManager.next_for_barrier`. -/
def nextForBarrier (gid : ℤ) : rt.M ℕ :=
  modifyGet fun s =>
    let (e, m) := s.epochs.nextForBarrier gid
    (e, { s with epochs := m })

/-- `_EpochManager.next_pair_for_collective`. -/
def nextPairForCollective (gid : ℤ) : rt.M (ℕ × ℕ) :=
  modifyGet fun s =>
    let (e, m) := s.epochs.nextPairForCollective gid
    (e, { s with epochs := m })

/-- `compute_token` with the nonce of the session. -/
def token (gid : ℤ) (epoch : ℕ) : ℕ := computeToken rt.sessionNonce gid epoch

/-- `_group_ranks_row_ptr`: the rank list the row pointer points to. -/
def groupRanksRow (group : GroupDescriptor) : rt.M (List ℕ) := do
  match (← get).registry.ranksDev group.handle with
  | some row => pure row
  | none => throw (.valueError "group has no device rank list (non-member or already unregistered)")

/-- `_barrier_on`, with the check of `launch_barrier`.  The grid has `group.size`
programs, which is the length of the rank list. -/
def barrierOn (group : GroupDescriptor) (row : List ℕ) (token : ℕ) : rt.M Unit := do
  pyAssert (0 < group.size)
  rt.enqueue call .main (.barrier row token)

/-- `_ingest_user_tensors`: both streams wait for the caller's current one.  What it
tells the allocator is left out. -/
def ingestUserTensors (current : StreamId) : rt.M Unit := do
  if current ≠ .main then
    rt.enqueue call .main (.waitStream current)
  if current ≠ .copy then
    rt.enqueue call .copy (.waitStream current)

variable {rt call} {s : RuntimeState rt.rank rt.worldSize}

@[simp] theorem run_enqueue {stream : StreamId} {cmd : Cmd} :
    (rt.enqueue call stream cmd).run s = .ok () (s.push [⟨call, stream, cmd⟩]) := rfl

/-- A loop whose rounds enqueue items. -/
theorem run_forM_push {α : Type} {l : List α} {f : α → rt.M Unit} {g : α → List Item}
    (h : ∀ x ∈ l, ∀ s, (f x).run s = .ok () (s.push (g x))) :
    (forM l f).run s = .ok () (s.push (l.flatMap g)) := by
  induction l generalizing s with
  | nil =>
    rw [List.flatMap_nil, RuntimeState.push_nil]
    rfl
  | cons x l ih =>
    rw [List.forM_cons, run_bind_of_ok (h x List.mem_cons_self s),
      ih fun y hy => h y (List.mem_cons_of_mem x hy), RuntimeState.push_push, List.flatMap_cons]

@[simp] theorem run_enqueueKernels {stream : StreamId} {ks : List (List (Op DataAct))} :
    (rt.enqueueKernels call stream ks).run s =
      .ok () (s.push (ks.map fun ops => ⟨call, stream, .kernel ops⟩)) := by
  unfold enqueueKernels
  rw [run_forM_push fun ops _ s => run_enqueue, List.map_eq_flatMap]

@[simp] theorem run_nextForBarrier {gid : ℤ} :
    (rt.nextForBarrier gid).run s = .ok (s.epochs.peek gid) (s.advance gid 1) := rfl

@[simp] theorem run_nextPairForCollective {gid : ℤ} :
    (rt.nextPairForCollective gid).run s =
      .ok (s.epochs.peek gid, s.epochs.peek gid + 1) (s.advance gid 2) := rfl

theorem run_groupRanksRow {group : GroupDescriptor} :
    (rt.groupRanksRow group).run s =
      match s.registry.ranksDev group.handle with
      | some row => .ok row s
      | none => .error (.valueError
          "group has no device rank list (non-member or already unregistered)") s := by
  unfold groupRanksRow
  rw [run_bind_of_ok (EStateM.run_get s)]
  cases s.registry.ranksDev group.handle <;> rfl

theorem run_barrierOn {group : GroupDescriptor} {row : List ℕ} {tok : ℕ} (h : 0 < group.size) :
    (rt.barrierOn call group row tok).run s =
      .ok () (s.push [⟨call, .main, .barrier row tok⟩]) := by
  have hcheck : (pyAssert (0 < group.size) : rt.M Unit).run s = .ok () s := by
    rw [run_pyAssert, if_pos (decide_eq_true h)]
  unfold barrierOn
  rw [run_bind_of_ok hcheck, run_enqueue]

/-- The items of `_ingest_user_tensors`. -/
def ingestItems (call : ℕ) (current : StreamId) : List Item :=
  (if current ≠ .main then [⟨call, .main, .waitStream current⟩] else []) ++
    if current ≠ .copy then [⟨call, .copy, .waitStream current⟩] else []

@[simp] theorem run_ingestUserTensors {current : StreamId} :
    (rt.ingestUserTensors call current).run s = .ok () (s.push (ingestItems call current)) := by
  cases current <;> simp [ingestUserTensors, ingestItems, RuntimeState.push]

/-- The waits neither copy nor synchronise with peers. -/
theorem ingestItems_cmd {current : StreamId} {it : Item} (h : it ∈ ingestItems call current) :
    it.cmd = .waitStream current := by
  unfold ingestItems at h
  rcases List.mem_append.mp h with h | h
  · split at h
    · rw [List.mem_singleton.mp h]
    · cases h
  · split at h
    · rw [List.mem_singleton.mp h]
    · cases h

/-! ## A world of two ranks -/

section Pair

/-- Literals are ranks of a world of two. -/
instance neZero_two : NeZero 2 := ⟨Nat.succ_ne_zero 1⟩

/-- A rank of two, of which one group is registered. -/
def pairRuntime (config : Config) (autotune : Option AutotuneTable) (rank : Fin 2) : Runtime where
  config := config
  device := "cuda:0"
  rank := rank
  worldSize := 2
  numSms := 132
  tmaEnabled := false
  autotune := autotune
  sessionNonce := 1
  bufferPtrs _ := 4096
  numSms_pos := by decide
  rank_lt := rank.isLt

/-- The world as a rank list. -/
def pairRanks : RankList 2 := ⟨[0, 1], by decide, by decide⟩

/-- The descriptor of the world. -/
def pairGroup (rank : ℕ) : GroupDescriptor := .make rank 0 7 pairRanks

/-- The state in which the world has just been registered. -/
def pairState (rank : ℕ) : RuntimeState rank 2 where
  registry := Registry.empty.add 7 pairRanks rfl
  epochs := .empty
  items := []

/-- A contiguous tensor on the device. -/
def pairTensor (dataPtr nbytes : ℕ) : Tensor := ⟨dataPtr, nbytes, true, "cuda:0", true⟩

end Pair

end Runtime

end GroupFreeCollectives
