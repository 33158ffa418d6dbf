import GroupFreeCollectives.DataFlow
import GroupFreeCollectives.Kernels.FusedSpec

/-!
# The fused kernel under every interleaving

All members of a group have passed the pre-barrier of a fused call, and the programs of
their kernels run in any interleaving.  A receiver's wait for a chunk ends only after
every peer has published that chunk, because the cell it reads belongs to one channel,
chunk and producer and did not hold the value before the call.  So what a receiver
pulls was staged before (`stage_mem_of_pull`), the outputs are what the collective is
for (`fused_kernel_correct`), and since the phases of all kernels order every
publication before the waits for it, no reachable state is stuck.
-/

namespace GroupFreeCollectives

open TaskGraph Tiling

/-- A fused call of a group: what its members agree on, and the addresses of their
tensors. -/
structure FusedCall where
  groupRanks : List ℕ
  worldSize : ℕ
  inputPtr : ℕ → ℕ
  outputPtr : ℕ → ℕ
  commBufOffset : ℕ
  sliceBytes : ℕ
  maxChunksPerChannel : ℕ
  numChannels : ℕ
  chunkBytes : ℕ
  stepBase : ℕ
  alignment : ℕ
  groupRanks_nodup : groupRanks.Nodup
  groupRanks_lt : ∀ q ∈ groupRanks, q < worldSize
  alignment_pow : alignment.isPowerOfTwo

namespace FusedCall

variable (F : FusedCall)

/-- The launch of rank `r`. -/
def args (r : ℕ) : FusedLaunchArgs where
  call := 0
  groupRanks := F.groupRanks
  inputPtr := F.inputPtr r
  outputPtr := F.outputPtr r
  commBufOffset := F.commBufOffset
  selfGlobalRank := r
  selfLocalIndex := F.groupRanks.idxOf r
  sliceBytes := F.sliceBytes
  worldSize := F.worldSize
  maxChunksPerChannel := F.maxChunksPerChannel
  numChannels := F.numChannels
  chunkBytes := F.chunkBytes
  stepBase := F.stepBase
  alignment := F.alignment

/-- Every member has its kernel on the main stream. -/
def program (ops : ℕ → List (Op DataAct)) : Program := fun r =>
  if r ∈ F.groupRanks then [⟨0, .main, .kernel (ops r)⟩] else []

/-- The launches of all members pass their checks and enqueue these kernels. -/
def Launched (kind : Collective) (ops : ℕ → List (Op DataAct)) : Prop :=
  ∀ r ∈ F.groupRanks, (F.args r).launch kind = .ok (ops r)

/-- No cell of a step pad holds a value that is awaited there in this call. -/
def PadFresh {α : Type} (ops : ℕ → List (Op DataAct)) (m₀ : Memory α) : Prop :=
  ∀ r ∈ F.groupRanks, ∀ o ∈ ops r, ∀ cells v, o.act = .stepAwait cells v →
    ∀ c ∈ cells, m₀.stepPad r c ≠ v

variable {F} {kind : Collective} {ops : ℕ → List (Op DataAct)} {r q c k x : ℕ}

/-- The arguments of the kernel of rank `r`. -/
abbrev kargs (F : FusedCall) (r : ℕ) : FusedKernelArgs := (F.args r).kernelArgs

theorem Launched.valid (h : F.Launched kind ops) (hr : r ∈ F.groupRanks) : (F.kargs r).Valid :=
  (FusedLaunchArgs.launch_eq_ok_iff.mp (h r hr)).1.valid F.alignment_pow

theorem Launched.ops_eq (h : F.Launched kind ops) (hr : r ∈ F.groupRanks) :
    ops r = (F.kargs r).fusedKernel ((F.kargs r).stage kind)
      (kind.srcOffset (F.groupRanks.idxOf r) F.sliceBytes) := by
  rw [(FusedLaunchArgs.launch_eq_ok_iff.mp (h r hr)).2, FusedKernelArgs.kernel_eq]
  rfl

/-- The chunks are the same on all ranks. -/
theorem isChunk_of (h : (F.kargs r).IsChunk c k) : (F.kargs q).IsChunk c k :=
  ⟨h.channel, h.chunk⟩

theorem mem_peers_iff {y : ℕ × ℕ} (hr : r ∈ F.groupRanks) :
    y ∈ (F.kargs r).peers ↔ F.groupRanks[y.1]? = some y.2 ∧ y.2 ≠ r :=
  FusedKernelArgs.mem_peers_of_nodup F.groupRanks_nodup hr rfl

theorem mem_peers_idxOf (hr : r ∈ F.groupRanks) (hq : q ∈ F.groupRanks) (hne : q ≠ r) :
    (F.groupRanks.idxOf q, q) ∈ (F.kargs r).peers :=
  (mem_peers_iff hr).mpr ⟨List.getElem?_idxOf hq, hne⟩

/-! ## Tasks -/

/-- The task of an operation of rank `r`'s kernel. -/
def task (r : ℕ) (o : Op DataAct) : Task := ⟨r, 0, ⟨o.thread, o.phase, .data o.act⟩⟩

theorem isTask_task (h : F.Launched kind ops) (hr : r ∈ F.groupRanks)
    (hch : (F.kargs r).IsChunk c k) {o : Op DataAct}
    (ho : (F.kargs r).ChunkOp ((F.kargs r).stage kind)
      (kind.srcOffset (F.groupRanks.idxOf r) F.sliceBytes) c k o) :
    IsTask (F.program ops) (task r o) := by
  refine ⟨⟨0, .main, .kernel (ops r)⟩, ?_, List.mem_map.mpr ⟨o, ?_, rfl⟩⟩
  · show (F.program ops r)[0]? = _
    rw [program, if_pos hr]
    rfl
  · rw [h.ops_eq hr]
    exact (FusedKernelArgs.mem_fusedKernel_iff (h.valid hr)).mpr ⟨c, k, hch, ho⟩

/-- Every task belongs to a chunk of a member. -/
theorem Launched.task_cases (h : F.Launched kind ops) {t : Task}
    (ht : IsTask (F.program ops) t) :
    t.rank ∈ F.groupRanks ∧ ∃ c k o, (F.kargs t.rank).IsChunk c k ∧ t = task t.rank o ∧
      o ∈ ops t.rank ∧ (F.kargs t.rank).ChunkOp ((F.kargs t.rank).stage kind)
        (kind.srcOffset (F.groupRanks.idxOf t.rank) F.sliceBytes) c k o := by
  obtain ⟨r, i, o'⟩ := t
  obtain ⟨it, hit, ho'⟩ := ht
  by_cases hr : r ∈ F.groupRanks
  · rw [program, if_pos hr] at hit
    obtain ⟨hi, rfl⟩ : i = 0 ∧ it = ⟨0, .main, .kernel (ops r)⟩ := by
      cases i with
      | zero => exact ⟨rfl, (Option.some_inj.mp hit).symm⟩
      | succ i => simp at hit
    obtain ⟨o, ho, rfl⟩ := List.mem_map.mp ho'
    have ho₀ := ho
    rw [h.ops_eq hr] at ho
    obtain ⟨c, k, hch, hop⟩ := (FusedKernelArgs.mem_fusedKernel_iff (h.valid hr)).mp ho
    exact ⟨hr, c, k, o, hch, by rw [hi]; rfl, ho₀, hop⟩
  · rw [program, if_neg hr] at hit
    simp at hit

/-- The publication of chunk `k` of channel `c` by `q` for `r`. -/
def publishOp (F : FusedCall) (q r c k : ℕ) : Op DataAct :=
  ⟨2 * c, 2 * k + 1, .stepPublish r ((F.kargs q).cellOff c k q) (stepValue F.stepBase k)⟩

/-- The wait of `r` for chunk `k` of channel `c`. -/
def awaitOp (F : FusedCall) (r c k : ℕ) : Op DataAct :=
  ⟨2 * c + 1, 2 * k + 2, .stepAwait ((F.kargs r).peers.map fun y => (F.kargs r).cellOff c k y.2)
    (stepValue F.stepBase k)⟩

theorem Launched.isTask_publish (h : F.Launched kind ops) (hq : q ∈ F.groupRanks)
    (hr : r ∈ F.groupRanks) (hne : r ≠ q) (hch : (F.kargs q).IsChunk c k) :
    IsTask (F.program ops) (task q (F.publishOp q r c k)) :=
  isTask_task h hq hch (Or.inr (Or.inl ⟨_, mem_peers_idxOf hq hr hne, rfl⟩))

theorem Launched.isTask_await (h : F.Launched kind ops) (hr : r ∈ F.groupRanks)
    (hch : (F.kargs r).IsChunk c k) : IsTask (F.program ops) (task r (F.awaitOp r c k)) :=
  isTask_task h hr hch (Or.inr (Or.inr (Or.inl rfl)))

/-- **A cell has one publication**: that of its channel, chunk and producer. -/
theorem Launched.eq_publish (h : F.Launched kind ops) {w : Task}
    (hw : IsTask (F.program ops) w) (hq : q ∈ F.groupRanks) (hch : (F.kargs q).IsChunk c k)
    (hpub : PublishesStep r ((F.kargs q).cellOff c k q) w) :
    w = task q (F.publishOp q r c k) := by
  obtain ⟨hwr, c', k', o, hch', heq, -, hop⟩ := h.task_cases hw
  obtain ⟨v, hact⟩ := hpub
  rw [heq] at hact
  rcases hop with ⟨d, hd, rfl⟩ | ⟨y, hy, rfl⟩ | rfl | ⟨y, hy, j, hj, rfl⟩
  · -- staging never publishes
    rcases (FusedKernelArgs.mem_stage (h.valid hwr)).mp hd with ⟨_, _, _, _, rfl⟩ | ⟨_, _, rfl⟩ <;>
      cases hact
  · simp only [task, Act.data.injEq, DataAct.stepPublish.injEq] at hact
    obtain ⟨hyr, hcell, -⟩ := hact
    obtain ⟨rfl, rfl, hwq⟩ := (h.valid hq).cellOff_inj (isChunk_of hch') hch
      (F.groupRanks_lt _ hwr) (F.groupRanks_lt _ hq) hcell
    rw [heq, hyr, hwq]
    rfl
  · cases hact
  · cases hact

variable {α : Type} {m₀ : Memory α} {s : State Task (Memory α)}

/-- A wait that has ended was preceded by the publications of all peers. -/
theorem Launched.publish_mem_of_await (h : F.Launched kind ops) (hpad : F.PadFresh ops m₀)
    (hs : Reachable (device (F.program ops) α F.worldSize) m₀ s) (hr : r ∈ F.groupRanks)
    (hq : q ∈ F.groupRanks) (hne : q ≠ r) (hch : (F.kargs r).IsChunk c k)
    (ha : task r (F.awaitOp r c k) ∈ s.done) : task q (F.publishOp q r c k) ∈ s.done := by
  have hmem : F.awaitOp r c k ∈ ops r := by
    rw [h.ops_eq hr]
    exact (FusedKernelArgs.mem_fusedKernel_iff (h.valid hr)).mpr
      ⟨c, k, hch, Or.inr (Or.inr (Or.inl rfl))⟩
  have hcell : (F.kargs r).cellOff c k q ∈
      (F.kargs r).peers.map fun y => (F.kargs r).cellOff c k y.2 :=
    List.mem_map.mpr ⟨_, mem_peers_idxOf hr hq hne, rfl⟩
  obtain ⟨w, hw, hact⟩ := exists_stepPublish_of_stepAwait hs rfl hcell
    (hpad r hr _ hmem _ _ rfl _ hcell) ha
  rw [← h.eq_publish (r := r) (hs.task_of_mem hw) hq (isChunk_of hch) ⟨_, hact⟩]
  exact hw

/-- What a peer stages of a chunk, before it publishes the chunk. -/
theorem Launched.stage_mem_of_publish (h : F.Launched kind ops)
    (hs : Reachable (device (F.program ops) α F.worldSize) m₀ s) (hq : q ∈ F.groupRanks)
    (hch : (F.kargs q).IsChunk c k) {d : DataAct}
    (hd : d ∈ (F.kargs q).stage kind ((F.kargs q).baseByte c k) ((F.kargs q).thisChunk c k))
    (hp : task q (F.publishOp q r c k) ∈ s.done) :
    task q ⟨2 * c, 2 * k, d⟩ ∈ s.done :=
  hs.before_mem hp (isTask_task h hq hch (Or.inl ⟨d, hd, rfl⟩))
    (Before.of_phase (by show 2 * k < 2 * k + 1; omega))

/-! ## What is read was staged -/

/-- The bytes of the offset that is pulled belong to one of the staged slices. -/
theorem exists_slice (kind : Collective) (hr : r ∈ F.groupRanks) (q : ℕ) :
    ∃ t < (F.kargs q).numSlices kind,
      kind.srcOffset (F.groupRanks.idxOf r) F.sliceBytes = t * F.sliceBytes := by
  cases kind with
  | allGather => exact ⟨0, Nat.one_pos, (Nat.zero_mul _).symm⟩
  | all2All => exact ⟨_, List.idxOf_lt_length_of_mem hr, rfl⟩

/-- The pull of byte `j` of a chunk, by `r` from the member `q` in lane `i`. -/
def pullOp (F : FusedCall) (kind : Collective) (r i q c k j : ℕ) : Op DataAct :=
  ⟨2 * c + 1, 2 * k + 3, .copy
    (.comm q (F.commBufOffset + kind.srcOffset (F.groupRanks.idxOf r) F.sliceBytes +
      (F.kargs r).baseByte c k + j))
    (.output r 0 (i * F.sliceBytes + (F.kargs r).baseByte c k + j))⟩

/-- The staging of byte `j` of a chunk of slice `t` by `q`. -/
def stageOp (F : FusedCall) (q t c k j : ℕ) : Op DataAct :=
  ⟨2 * c, 2 * k, .copy
    (.input q 0 (t * F.sliceBytes + (F.kargs q).baseByte c k + j))
    (.comm q (F.commBufOffset + t * F.sliceBytes + (F.kargs q).baseByte c k + j))⟩

/-- The copy of byte `j` of a chunk from the own input to the own segment. -/
def selfOp (F : FusedCall) (kind : Collective) (r c k j : ℕ) : Op DataAct :=
  ⟨2 * c, 2 * k, .copy
    (.input r 0 (kind.srcOffset (F.groupRanks.idxOf r) F.sliceBytes +
      (F.kargs r).baseByte c k + j))
    (.output r 0 (F.groupRanks.idxOf r * F.sliceBytes + (F.kargs r).baseByte c k + j))⟩

/-- **The copies of a fused call.** -/
theorem Launched.copy_cases (h : F.Launched kind ops) {t : Task} {src dst : Cell}
    (ht : IsTask (F.program ops) t) (hact : t.op.act = .data (.copy src dst)) :
    t.rank ∈ F.groupRanks ∧ ∃ c k j, (F.kargs t.rank).IsChunk c k ∧
      j < (F.kargs t.rank).thisChunk c k ∧
      ((∃ l < (F.kargs t.rank).numSlices kind, t = task t.rank (F.stageOp t.rank l c k j)) ∨
        t = task t.rank (F.selfOp kind t.rank c k j) ∨
        ∃ y ∈ (F.kargs t.rank).peers, t = task t.rank (F.pullOp kind t.rank y.1 y.2 c k j)) := by
  obtain ⟨hr, c, k, o, hch, heq, -, hop⟩ := h.task_cases ht
  refine ⟨hr, c, k, ?_⟩
  rcases hop with ⟨d, hd, rfl⟩ | ⟨y, hy, rfl⟩ | rfl | ⟨y, hy, j, hj, rfl⟩
  · rcases (FusedKernelArgs.mem_stage (h.valid hr)).mp hd with ⟨l, hl, j, hj, rfl⟩ | ⟨j, hj, rfl⟩
    · exact ⟨j, hch, hj, Or.inl ⟨l, hl, heq⟩⟩
    · exact ⟨j, hch, hj, Or.inr (Or.inl heq)⟩
  · rw [heq] at hact
    cases hact
  · rw [heq] at hact
    cases hact
  · exact ⟨j, hch, hj, Or.inr (Or.inr ⟨y, hy, heq⟩)⟩

theorem Launched.isTask_self (h : F.Launched kind ops) (hr : r ∈ F.groupRanks)
    (hch : (F.kargs r).IsChunk c k) {j : ℕ} (hj : j < (F.kargs r).thisChunk c k) :
    IsTask (F.program ops) (task r (F.selfOp kind r c k j)) :=
  isTask_task h hr hch (Or.inl ⟨_, (FusedKernelArgs.mem_stage (h.valid hr)).mpr
    (Or.inr ⟨j, hj, rfl⟩), rfl⟩)

theorem Launched.isTask_pull (h : F.Launched kind ops) (hr : r ∈ F.groupRanks)
    (hch : (F.kargs r).IsChunk c k) {y : ℕ × ℕ} (hy : y ∈ (F.kargs r).peers) {j : ℕ}
    (hj : j < (F.kargs r).thisChunk c k) :
    IsTask (F.program ops) (task r (F.pullOp kind r y.1 y.2 c k j)) :=
  isTask_task h hr hch (Or.inr (Or.inr (Or.inr ⟨y, hy, j, hj, rfl⟩)))

/-- **No receiver reads before its peer has staged**: when a pull can fire, the sender
of the peer has staged exactly the byte it reads. -/
theorem Launched.stage_mem_of_pull (h : F.Launched kind ops) (hpad : F.PadFresh ops m₀)
    (hs : Reachable (device (F.program ops) α F.worldSize) m₀ s) (hr : r ∈ F.groupRanks)
    (hch : (F.kargs r).IsChunk c k) {y : ℕ × ℕ} (hy : y ∈ (F.kargs r).peers) {j : ℕ}
    (hj : j < (F.kargs r).thisChunk c k)
    (hen : Enabled (device (F.program ops) α F.worldSize) s
      (task r (F.pullOp kind r y.1 y.2 c k j))) :
    ∃ l < (F.kargs y.2).numSlices kind,
      kind.srcOffset (F.groupRanks.idxOf r) F.sliceBytes = l * F.sliceBytes ∧
      task y.2 (F.stageOp y.2 l c k j) ∈ s.done := by
  obtain ⟨hget, hne⟩ := (mem_peers_iff hr).mp hy
  have hq : y.2 ∈ F.groupRanks := List.mem_of_getElem? hget
  obtain ⟨l, hl, hoff⟩ := exists_slice kind hr y.2
  have ha : task r (F.awaitOp r c k) ∈ s.done :=
    hen.ready _ (h.isTask_await hr hch)
      (Before.of_phase (by show 2 * k + 2 < 2 * k + 3; omega))
  have hp := h.publish_mem_of_await hpad hs hr hq hne hch ha
  refine ⟨l, hl, hoff, h.stage_mem_of_publish hs hq (isChunk_of hch) ?_ hp⟩
  exact (FusedKernelArgs.mem_stage (h.valid hq)).mpr (Or.inl ⟨l, hl, j, hj, rfl⟩)

/-! ## Values -/

/-- What every stored cell holds: a byte of `comm_buf` is the input byte it was staged
from, and byte `b` of segment `i` of an output is the byte of member `i`'s input that
the collective is to deliver. -/
def value (F : FusedCall) (kind : Collective) (m₀ : Memory α) : Cell → α
  | .comm q x => m₀.byte (.input q 0 (x - F.commBufOffset))
  | .output r _ x => m₀.byte (.input (F.groupRanks.getD (x / F.sliceBytes) 0) 0
      (kind.srcOffset (F.groupRanks.idxOf r) F.sliceBytes + x % F.sliceBytes))
  | c => m₀.byte c

theorem value_output {i b : ℕ} (hq : F.groupRanks[i]? = some q) (hb : b < F.sliceBytes) :
    F.value kind m₀ (.output r 0 (i * F.sliceBytes + b)) =
      m₀.byte (.input q 0 (kind.srcOffset (F.groupRanks.idxOf r) F.sliceBytes + b)) := by
  have hpos : 0 < F.sliceBytes := by omega
  have hdiv : (i * F.sliceBytes + b) / F.sliceBytes = i := by
    rw [Nat.mul_comm, Nat.mul_add_div hpos, Nat.div_eq_of_lt hb, Nat.add_zero]
  have hmod : (i * F.sliceBytes + b) % F.sliceBytes = b := by
    rw [Nat.mul_add_mod_self_right, Nat.mod_eq_of_lt hb]
  show m₀.byte (.input (F.groupRanks.getD ((i * F.sliceBytes + b) / F.sliceBytes) 0) 0 _) = _
  rw [hdiv, hmod, List.getD_eq_getElem?_getD, hq]
  rfl

/-- Inputs are never stored. -/
theorem Launched.not_writes_input (h : F.Launched kind ops) {u : Task}
    (hu : IsTask (F.program ops) u) (y : ℕ) : ¬ u.op.act.writesByte (.input q 0 y) := by
  intro hw
  obtain ⟨src, hact⟩ := Act.exists_of_writesByte hw
  obtain ⟨-, c, k, j, -, -, ⟨l, -, heq⟩ | heq | ⟨z, -, heq⟩⟩ := h.copy_cases hu hact <;>
    rw [heq] at hact <;> cases hact

/-- Every copy of a fused call moves a value to where it belongs. -/
theorem Launched.byte_eq_value (h : F.Launched kind ops) (hpad : F.PadFresh ops m₀)
    (hs : Reachable (device (F.program ops) α F.worldSize) m₀ s) (cell : Cell)
    (hw : ∃ w ∈ s.done, w.op.act.writesByte cell) : s.mem.byte cell = F.value kind m₀ cell := by
  refine byte_eq_of_written (fun s t hs hen src dst hact => ?_) hs cell hw
  obtain ⟨hr, c, k, j, hch, hj, hcase⟩ := h.copy_cases hen.task hact
  have hlt : (F.kargs t.rank).baseByte c k + j < F.sliceBytes := (h.valid hr).chunk_lt hch hj
  rcases hcase with ⟨l, -, heq⟩ | heq | ⟨y, hy, heq⟩
  · rw [heq] at hact
    cases hact
    refine Or.inl ⟨fun u hu => h.not_writes_input hu _, ?_⟩
    show m₀.byte (.input _ 0 (_ - _)) = _
    rw [Nat.add_assoc, Nat.add_assoc, Nat.add_sub_cancel_left, ← Nat.add_assoc]
  · rw [heq] at hact
    cases hact
    refine Or.inl ⟨fun u hu => h.not_writes_input hu _, ?_⟩
    rw [Nat.add_assoc, value_output (List.getElem?_idxOf hr) hlt, ← Nat.add_assoc]
  · rw [heq] at hact hen
    cases hact
    obtain ⟨l, hl, hoff, hst⟩ := h.stage_mem_of_pull hpad hs hr hch hy hj hen
    refine Or.inr ⟨⟨_, hst, ?_⟩, ?_⟩
    · show Cell.comm _ _ = Cell.comm _ _
      rw [hoff]
      rfl
    · obtain ⟨hget, -⟩ := (mem_peers_iff hr).mp hy
      rw [Nat.add_assoc, value_output hget hlt]
      show _ = m₀.byte (.input _ 0 (_ - _))
      rw [Nat.add_assoc, Nat.add_assoc, Nat.add_sub_cancel_left]

/-- Every byte of every segment of an output is stored by a task of its rank. -/
theorem Launched.exists_writer (h : F.Launched kind ops) (hr : r ∈ F.groupRanks) {i b : ℕ}
    (hq : F.groupRanks[i]? = some q) (hb : b < F.sliceBytes) :
    ∃ w, IsTask (F.program ops) w ∧ w.op.act.writesByte (.output r 0 (i * F.sliceBytes + b)) := by
  obtain ⟨c, k, hch, j, hj, hbj⟩ := (h.valid hr).exists_chunk hb
  by_cases hqr : q = r
  · subst hqr
    have hi : F.groupRanks.idxOf q = i := by
      obtain ⟨hlt, hval⟩ := List.getElem?_eq_some_iff.mp hq
      rw [← hval, F.groupRanks_nodup.idxOf_getElem]
    refine ⟨_, h.isTask_self hr hch hj, ?_⟩
    show Cell.output q 0 _ = .output q 0 _
    rw [hi, hbj, Nat.add_assoc]
  · refine ⟨_, h.isTask_pull hr hch ((mem_peers_iff (y := (i, q)) hr).mpr ⟨hq, hqr⟩) hj, ?_⟩
    show Cell.output r 0 _ = .output r 0 _
    rw [hbj, Nat.add_assoc]

/-- Nothing is stored past the segments of an output. -/
theorem Launched.not_writes_output (h : F.Launched kind ops) {u : Task}
    (hu : IsTask (F.program ops) u) (hx : F.groupRanks.length * F.sliceBytes ≤ x) :
    ¬ u.op.act.writesByte (.output r 0 x) := by
  intro hw
  obtain ⟨src, hact⟩ := Act.exists_of_writesByte hw
  obtain ⟨hr, c, k, j, hch, hj, hcase⟩ := h.copy_cases hu hact
  have hlt : (F.kargs u.rank).baseByte c k + j < F.sliceBytes := (h.valid hr).chunk_lt hch hj
  have hseg : ∀ i < F.groupRanks.length,
      i * F.sliceBytes + ((F.kargs u.rank).baseByte c k + j) <
        F.groupRanks.length * F.sliceBytes := by
    intro i hi
    calc i * F.sliceBytes + ((F.kargs u.rank).baseByte c k + j)
        < i * F.sliceBytes + F.sliceBytes := Nat.add_lt_add_left hlt _
      _ = (i + 1) * F.sliceBytes := (Nat.succ_mul _ _).symm
      _ ≤ F.groupRanks.length * F.sliceBytes := Nat.mul_le_mul_right _ hi
  rcases hcase with ⟨l, -, heq⟩ | heq | ⟨y, hy, heq⟩
  · rw [heq] at hact
    cases hact
  · rw [heq] at hact
    cases hact
    have := hseg _ (List.idxOf_lt_length_of_mem hr)
    omega
  · rw [heq] at hact
    cases hact
    obtain ⟨hget, -⟩ := (mem_peers_iff hr).mp hy
    have := hseg _ (List.getElem?_eq_some_iff.mp hget).1
    omega

/-! ## Progress -/

/-- When every task of an earlier phase has fired, the cells of a wait hold its
value. -/
theorem Launched.await_guard (h : F.Launched kind ops)
    (hs : Reachable (device (F.program ops) α F.worldSize) m₀ s) (hr : r ∈ F.groupRanks)
    (hch : (F.kargs r).IsChunk c k)
    (hsmaller : ∀ u, IsTask (F.program ops) u → u.op.phase < 2 * k + 2 → u ∈ s.done) :
    (device (F.program ops) α F.worldSize).guard s.mem (task r (F.awaitOp r c k)) := by
  show ∀ cell ∈ (F.kargs r).peers.map fun y => (F.kargs r).cellOff c k y.2, s.mem.stepPad r cell = _
  intro cell hcell
  obtain ⟨y, hy, rfl⟩ := List.mem_map.mp hcell
  obtain ⟨hget, hne⟩ := (mem_peers_iff hr).mp hy
  have hq : y.2 ∈ F.groupRanks := List.mem_of_getElem? hget
  have hp : task y.2 (F.publishOp y.2 r c k) ∈ s.done :=
    hsmaller _ (h.isTask_publish hq hr hne.symm (isChunk_of hch))
      (by show 2 * k + 1 < 2 * k + 2; omega)
  exact stepPad_eq hs hp rfl fun u hu hpub =>
    h.eq_publish (hs.task_of_mem hu) hq (isChunk_of hch) hpub

theorem Launched.exists_enabled (h : F.Launched kind ops)
    (hs : Reachable (device (F.program ops) α F.worldSize) m₀ s)
    (hnot : ¬ Finished (device (F.program ops) α F.worldSize) s) :
    ∃ t, Enabled (device (F.program ops) α F.worldSize) s t := by
  refine TaskGraph.exists_enabled (InvImage.wf (fun t : Task => t.op.phase) Nat.lt_wfRel.wf)
    (fun u t hu ht hb => ?_) (fun t ht hfresh hsmaller => ?_) hnot
  · -- every rank has a single item, so program order is the order of phases
    obtain ⟨-, ⟨-, -, hlt⟩ | ⟨hlt, -⟩⟩ := hb
    · exact hlt
    · obtain ⟨-, -, -, o, -, heq, -, -⟩ := h.task_cases ht
      rw [heq] at hlt
      exact absurd hlt (Nat.not_lt_zero _)
  · obtain ⟨hr, c, k, o, hch, heq, -, hop⟩ := h.task_cases ht
    rw [heq] at hsmaller ⊢
    rcases hop with ⟨d, hd, rfl⟩ | ⟨y, hy, rfl⟩ | rfl | ⟨y, hy, j, hj, rfl⟩
    · rcases (FusedKernelArgs.mem_stage (h.valid hr)).mp hd with ⟨_, _, _, _, rfl⟩ | ⟨_, _, rfl⟩ <;>
        trivial
    · trivial
    · exact h.await_guard hs hr hch fun u hu hlt => hsmaller u hu hlt
    · trivial

/-! ## The theorem -/

/-- **The fused kernel is correct under every interleaving.**  In every reachable state,
(a) a copy from a peer's `comm_buf` can fire only after the peer has staged that byte in
this call; (b) when all programs have ended, byte `b` of segment `i` of an output is byte
`b` of member `i`'s input for `all_gather`, and byte `local_index * slice_bytes + b` of
it for `all2all`, and nothing outside the segments is ever written; (c) the state is not
stuck. -/
theorem fused_kernel_correct (h : F.Launched kind ops) (hpad : F.PadFresh ops m₀)
    (hs : Reachable (device (F.program ops) α F.worldSize) m₀ s) :
    (∀ t, Enabled (device (F.program ops) α F.worldSize) s t → ∀ q x dst,
      t.op.act = .data (.copy (.comm q x) dst) →
        ∃ w ∈ s.done, w.rank = q ∧ ∃ x', w.op.act = .data (.copy (.input q 0 x') (.comm q x))) ∧
    (Finished (device (F.program ops) α F.worldSize) s → ∀ r ∈ F.groupRanks, ∀ i q b,
      F.groupRanks[i]? = some q → b < F.sliceBytes →
        s.mem.byte (.output r 0 (i * F.sliceBytes + b)) =
          m₀.byte (.input q 0 (kind.srcOffset (F.groupRanks.idxOf r) F.sliceBytes + b))) ∧
    (∀ r x, F.groupRanks.length * F.sliceBytes ≤ x →
      s.mem.byte (.output r 0 x) = m₀.byte (.output r 0 x)) ∧
    ¬ Stuck (device (F.program ops) α F.worldSize) s := by
  refine ⟨fun t hen q x dst hact => ?_, fun hfin r hr i q b hq hb => ?_, fun r x hx => ?_,
    not_stuck_of_exists_enabled (h.exists_enabled hs)⟩
  · obtain ⟨hr, c, k, j, hch, hj, ⟨l, -, heq⟩ | heq | ⟨y, hy, heq⟩⟩ := h.copy_cases hen.task hact
    · rw [heq] at hact
      cases hact
    · rw [heq] at hact
      cases hact
    · rw [heq] at hact hen
      cases hact
      obtain ⟨l, -, hoff, hst⟩ := h.stage_mem_of_pull hpad hs hr hch hy hj hen
      refine ⟨_, hst, rfl, l * F.sliceBytes + (F.kargs y.2).baseByte c k + j, ?_⟩
      rw [hoff]
      rfl
  · obtain ⟨w, hw, hwr⟩ := h.exists_writer hr hq hb
    rw [h.byte_eq_value hpad hs _ ⟨w, hfin w hw, hwr⟩, value_output hq hb]
  · exact byte_eq_of_not_written hs fun u hu => h.not_writes_output hu hx

theorem padFresh_of (h : F.Launched kind ops)
    (hpad : ∀ r ∈ F.groupRanks, ∀ c k, (F.kargs r).IsChunk c k → ∀ cell,
      m₀.stepPad r cell ≠ stepValue F.stepBase k) : F.PadFresh ops m₀ := by
  intro r hr o ho cells v hact cell _
  rw [h.ops_eq hr] at ho
  obtain ⟨c, k, hch, hop⟩ := (FusedKernelArgs.mem_fusedKernel_iff (h.valid hr)).mp ho
  rcases hop with ⟨d, hd, rfl⟩ | ⟨y, hy, rfl⟩ | rfl | ⟨y, hy, j, hj, rfl⟩
  · rcases (FusedKernelArgs.mem_stage (h.valid hr)).mp hd with ⟨_, _, _, _, rfl⟩ | ⟨_, _, rfl⟩ <;>
      cases hact
  · cases hact
  · cases hact
    exact hpad r hr c k hch cell
  · cases hact

/-- Two members of a world of three with slices of 37 bytes, over two channels: the
second partition is shorter than the first and ends in a byte tail. -/
def sample : FusedCall where
  groupRanks := [2, 0]
  worldSize := 3
  inputPtr _ := 4096
  outputPtr _ := 8192
  commBufOffset := 0
  sliceBytes := 37
  maxChunksPerChannel := 2
  numChannels := 2
  chunkBytes := 16
  stepBase := 7
  alignment := 16
  groupRanks_nodup := by decide
  groupRanks_lt := by decide
  alignment_pow := ⟨4, rfl⟩

/-- The theorem at the start of an `all2all` of this call, with zeroed step pads. -/
theorem fused_kernel_correct_witness :
    ¬ Stuck (device (sample.program fun r => (sample.kargs r).kernel .all2All) Cell 3)
      ⟨[], ⟨id, fun _ _ => 0, fun _ _ => 0, fun _ _ => 0, fun _ _ => 0⟩⟩ := by
  have hl : sample.Launched .all2All fun r => (sample.kargs r).kernel .all2All := by
    intro r _
    refine FusedLaunchArgs.launch_eq_ok_iff.mpr ⟨⟨?_, ?_, ?_, ?_, ?_⟩, rfl⟩
    · show (0 : ℤ) < 37
      decide
    · show 0 < 2
      decide
    · show (0 : ℤ) < 2
      decide
    · show (0 : ℤ) < 16
      decide
    · show cdiv (alignUp (cdiv 37 2) 16) 16 ≤ 2
      decide +kernel
  refine (fused_kernel_correct hl (padFresh_of hl fun r hr c k hch cell => ?_) .init).2.2.2
  have hk : k < 2 := (hl.valid hr).chunk_lt_max hch
  show 0 ≠ (7 + (k + 1)) % 2 ^ 64
  omega

end FusedCall

end GroupFreeCollectives
