import GroupFreeCollectives.Lib.Positions
import GroupFreeCollectives.Runtime.Trace

/-!
# The order of a rank's two streams

The items of a rank are ordered by their streams, by `wait_stream`, and by events
(`HappensBefore`).  Between its calls a caller enqueues work of its own, on any stream.
Whatever it does, a call writes its communication buffer after the barriers and the pulls
of the calls before it, its barriers come after the staging they announce, and it touches
the caller's tensors after what the caller had enqueued before (`streams_are_ordered`).

What a call enqueues has one of a few forms (`Body`): items of the main stream only, with
the staging in front of the first barrier, or the chunks of the pipelined path.
-/

namespace GroupFreeCollectives

open Tiling

/-! ## Happens before -/

/-- The order that streams, stream waits and event waits generate. -/
def HappensBefore (its : List Item) : ℕ → ℕ → Prop :=
  Relation.TransGen fun i j =>
    i < j ∧ ∃ x y, its[i]? = some x ∧ its[j]? = some y ∧ x.precedes y

namespace HappensBefore

variable {its : List Item} {i j : ℕ} {x y : Item}

theorem of_precedes (hij : i < j) (hi : its[i]? = some x) (hj : its[j]? = some y)
    (h : x.precedes y) : HappensBefore its i j :=
  .single ⟨hij, x, y, hi, hj, h⟩

/-- Items of one stream execute in order. -/
theorem of_stream (hij : i < j) (hi : its[i]? = some x) (hj : its[j]? = some y)
    (h : x.stream = y.stream) : HappensBefore its i j :=
  of_precedes hij hi hj (Or.inl h)

/-- What is enqueued later changes nothing. -/
theorem append (h : HappensBefore its i j) (more : List Item) :
    HappensBefore (its ++ more) i j := by
  refine Relation.TransGen.mono (fun i j => ?_) i j h
  rintro ⟨hij, x, y, hi, hj, hxy⟩
  refine ⟨hij, x, y, ?_, ?_, hxy⟩
  · rw [List.getElem?_append_left (List.getElem?_eq_some_iff.mp hi).1, hi]
  · rw [List.getElem?_append_left (List.getElem?_eq_some_iff.mp hj).1, hj]

end HappensBefore

/-- An item of a list that is enqueued behind another. -/
theorem getElem?_behind {before its : List Item} {r : ℕ} {it : Item} (hr : its[r]? = some it) :
    (before ++ its)[before.length + r]? = some it := by
  rw [List.getElem?_append_right (Nat.le_add_right _ _), Nat.add_sub_cancel_left, hr]

/-! ## What an item does -/

/-- The item is a kernel that makes this copy. -/
def Item.Copies (it : Item) (src dst : Cell) : Prop :=
  ∃ ops, it.cmd = .kernel ops ∧ DataAct.copy src dst ∈ acts ops

/-- The item is a barrier. -/
def Item.isBarrier (it : Item) : Bool :=
  match it.cmd with
  | .barrier _ _ => true
  | _ => false

namespace Runtime

variable {rt : Runtime}

/-! ## Hosts -/

/-- What happens on the host of a rank: the caller enqueues an item of its own, or makes a
call. -/
inductive HostStep where
  | work (it : Item)
  | call (c : Call)

/-- The session after a step of its host. -/
def Session.step (x : Session rt) : HostStep → Session rt
  | .work it => ⟨x.state.push [it], x.isShutdown⟩
  | .call c => (x.run c).2

/-- The session after some steps of its host. -/
def Session.steps (x : Session rt) (hs : List HostStep) : Session rt := hs.foldl Session.step x

/-- The number of items enqueued so far, which is the position of the next one. -/
def Session.next (x : Session rt) : ℕ := x.state.items.length

/-- The stream that is current at a call with tensors. -/
def Call.current : Call → Option StreamId
  | .collective _ current _ (.data _) => some current
  | .p2p _ current _ _ => some current
  | _ => none

/-- The bytes of the own communication buffer that a chunk of the pipelined path holds. -/
def chunkHolds (kind : Collective) (groupSize sliceBytes : ℕ) (chunk : ℕ × ℕ) (b : ℕ) : Prop :=
  match kind with
  | .allGather => ∃ d < chunk.2, b = chunk.1 + d
  | .all2All => ∃ p < groupSize, ∃ d < chunk.2, b = p * sliceBytes + chunk.1 + d

variable (rt) in
/-- What the `k`-th barrier of a data path announces: everything the one-shot path stages,
or chunk `k` of the pipelined path.  The fused path announces its chunks by step values. -/
def pathAnnounces (kind : Collective) (groupSize sliceBytes : ℕ) (path : DataPath) (k b : ℕ) :
    Prop :=
  match path with
  | .oneShot _ => k = 0
  | .fused _ _ => False
  | .pipelined chunks => ∃ chunk,
      (layoutChunks sliceBytes chunks rt.config.alignment)[k]? = some chunk ∧
        chunkHolds kind groupSize sliceBytes chunk b

variable (rt) in
/-- What the `k`-th barrier of a call announces. -/
def announces (c : Call) (k b : ℕ) : Prop :=
  match c with
  | .collective _ _ group (.data c) => ∃ n path, c.entry rt group = .ok n ∧
      rt.plan (rt.policyFor c.kind group n) (rt.effectivePipelineChunks n c.pipelineChunks) n
        c.output.dataPtr = .ok path ∧ rt.pathAnnounces c.kind group.size n path k b
  | .p2p .. => k = 0
  | _ => False

/-! ## What a call can enqueue -/

/-- What a call enqueues after its waits for the caller's stream, if its barriers announce
`A`. -/
inductive Body (rt : Runtime) (call : ℕ) (A : ℕ → ℕ → Prop) : List Item → Prop
  | nothing : Body rt call A []
  /-- nothing is announced -/
  | main {its : List Item} (hmain : ∀ it ∈ its, it.stream = .main) (hA : ∀ k b, ¬ A k b) :
      Body rt call A its
  /-- the first barrier announces what has been staged -/
  | staged {pre rest : List Item} {row : List ℕ} {tok : ℕ}
      (hpre : ∀ it ∈ pre, it.stream = .main ∧ it.isBarrier = false)
      (hrest : ∀ it ∈ rest, it.stream = .main ∧ ∀ r c a dst, ¬ it.Copies (.input r c a) dst)
      (hA : ∀ k b, A k b → k = 0) : Body rt call A (pre ++ ⟨call, .main, .barrier row tok⟩ :: rest)
  /-- every chunk has a barrier -/
  | pipelined {a : CollectiveArgs} {layout : List (ℕ × ℕ)} {e : ℕ} (ha : a.call = call)
      (hcont : Contiguous 0 layout a.sliceBytes)
      (hA : ∀ k b, A k b → ∃ chunk, layout[k]? = some chunk ∧
        chunkHolds a.kind a.group.size a.sliceBytes chunk b) :
      Body rt call A (rt.pipelinedItems a layout e)

section Body

variable {a : CollectiveArgs} {s : RuntimeState rt.rank rt.worldSize} {A : ℕ → ℕ → Prop}

/-- The copy between the barriers reads communication buffers only. -/
theorem exists_comm_of_oneShotKernels {e : Engine} {src dst : Cell}
    (h : DataAct.copy src dst ∈ acts (rt.oneShotKernels a e).flatten) : ∃ q b, src = .comm q b := by
  have hgroup : ∀ {ranks : List ℕ} {off : ℕ} {out : ℕ → ℕ → ℕ → Cell} {n : ℕ},
      DataAct.copy src dst ∈ groupCopies ranks (fun _ peer b => .comm peer (off + b)) out n →
        ∃ q b, src = .comm q b := by
    rintro ranks off out n ⟨i, peer, -, b, -, heq⟩
    cases heq
    exact ⟨peer, off + b, rfl⟩
  cases e with
  | copyEngine =>
    unfold oneShotKernels at h
    rw [acts_copyEngine] at h
    exact hgroup h
  | tma =>
    unfold oneShotKernels at h
    rw [List.flatten_singleton,
      TmaLaunchArgs.acts_tmaKernel rt.numSms_pos (show 0 < defaultTileBytes by decide)] at h
    exact hgroup h
  | vec copySms =>
    unfold oneShotKernels at h
    rw [List.flatten_singleton] at h
    exact hgroup (PullKernelArgs.pullKernel_subset h)

/-- Kernels on the main stream, none of which reads an input. -/
theorem kernels_read_no_input {call : ℕ} {ks : List (List (Op DataAct))}
    (h : ∀ src dst, DataAct.copy src dst ∈ acts ks.flatten → ∃ q b, src = .comm q b) {it : Item}
    (hit : it ∈ ks.map fun ops => (⟨call, .main, .kernel ops⟩ : Item)) :
    it.stream = .main ∧ ∀ r c a dst, ¬ it.Copies (.input r c a) dst := by
  obtain ⟨ops, hops, rfl⟩ := List.mem_map.mp hit
  refine ⟨rfl, ?_⟩
  rintro r c a dst ⟨ops', heq, hmem⟩
  cases heq
  obtain ⟨q, b, heq⟩ := h _ _ (mem_acts_flatten.mpr ⟨ops, hops, hmem⟩)
  cases heq

/-- A barrier copies nothing. -/
theorem barrier_reads_no_input {call tok : ℕ} {row : List ℕ} (r c a : ℕ) (dst : Cell) :
    ¬ (⟨call, .main, .barrier row tok⟩ : Item).Copies (.input r c a) dst := by
  rintro ⟨ops, heq, -⟩
  cases heq

/-- A one-shot path stages before its first barrier. -/
theorem Body.oneShot {e : ℕ} {rest : List Item}
    (hrest : ∀ it ∈ rest, it.stream = .main ∧ ∀ r c a dst, ¬ it.Copies (.input r c a) dst)
    (hA : ∀ k b, A k b → k = 0) : Body rt a.call A (rt.oneShotPrefix a e ++ rest) := by
  show Body rt a.call A ([⟨a.call, .main, .kernel (rt.stage a)⟩] ++
    ⟨a.call, .main, .barrier a.row (rt.token a.group.groupId e)⟩ :: rest)
  refine .staged (fun it hit => ?_) hrest hA
  rw [List.mem_singleton.mp hit]
  exact ⟨rfl, rfl⟩

/-- **What a data path enqueues**, whether its launch passes or not. -/
theorem exists_body_of_perform {path : DataPath} (hG : 0 < a.group.size) (hrow : 0 < a.row.length)
    (hready : rt.Ready a.sliceBytes a.output.dataPtr path)
    (hA : ∀ k b, A k b → rt.pathAnnounces a.kind a.group.size a.sliceBytes path k b) :
    ∃ body, (endState ((rt.perform a path).run s)).items = s.items ++ body ∧
      Body rt a.call A body := by
  cases path with
  | oneShot e =>
    show ∃ body, (endState ((rt.oneShot a e).run s)).items = s.items ++ body ∧ _
    rw [run_oneShot hG]
    by_cases hl : Launches a.sliceBytes (.oneShot e)
    · rw [launchOneShot_eq hrow hready hl]
      refine ⟨_, rfl, ?_⟩
      rw [List.append_assoc]
      refine .oneShot (fun it hit => ?_) hA
      rcases List.mem_append.mp hit with hit | hit
      · exact kernels_read_no_input (fun _ _ => exists_comm_of_oneShotKernels) hit
      · rw [List.mem_singleton.mp hit]
        exact ⟨rfl, barrier_reads_no_input⟩
    · obtain ⟨err, herr⟩ := launchOneShot_error hl
      rw [herr]
      refine ⟨_, rfl, ?_⟩
      rw [← List.append_nil (rt.oneShotPrefix a _)]
      exact .oneShot (by simp) hA
  | fused numChannels chunkBytes =>
    show ∃ body, (endState ((rt.fusedPath a numChannels chunkBytes).run s)).items = _ ∧ _
    rw [run_fusedPath hG]
    cases (rt.fusedArgs a numChannels chunkBytes
      (rt.token a.group.groupId (s.epochs.peek a.group.groupId + 1))).launch a.kind with
    | ok ops => exact ⟨_, rfl, .main (by simp [barrierItem]) hA⟩
    | error err => exact ⟨_, rfl, .main (by simp [barrierItem]) hA⟩
  | pipelined chunks =>
    show ∃ body, (endState ((rt.pipelined a chunks).run s)).items = _ ∧ _
    rw [run_pipelined hG hrow hready.1.le hready.2.1 hready.2.2]
    exact ⟨_, rfl, .pipelined rfl
      (layoutChunks_contiguous rt.config.alignment_pow hready.1.le hready.2.2).1 hA⟩

end Body

/-! ## Positions in the pipelined path -/

section Pipelined

variable {a : CollectiveArgs} {layout : List (ℕ × ℕ)} {chunk : ℕ × ℕ} {e k q r b : ℕ} {it : Item}

variable (rt) in
/-- What chunk `k` enqueues. -/
def pipelinedChunk (a : CollectiveArgs) (e : ℕ) (x : (ℕ × ℕ) × ℕ) : List Item :=
  rt.chunkItems a x.2 x.1.1 x.1.2 (e + x.2) (rt.chunkPull a x.1.1 x.1.2)

variable (rt) in
/-- Where chunk `k` starts. -/
def chunkStart (a : CollectiveArgs) (layout : List (ℕ × ℕ)) (e k : ℕ) : ℕ :=
  2 + Positions.partStart (rt.pipelinedChunk a e) layout.zipIdx k

theorem pipelinedItems_eq : rt.pipelinedItems a layout e =
    [⟨a.call, .main, .record 0⟩, ⟨a.call, .copy, .wait 0⟩] ++
      layout.zipIdx.flatMap (rt.pipelinedChunk a e) ++
        [rt.barrierItem a (e + layout.length)] := rfl

theorem zipIdx_getElem?_eq (hk : layout[k]? = some chunk) :
    layout.zipIdx[k]? = some (chunk, k) := by
  simp [hk]

/-- An item of chunk `k`. -/
theorem getElem?_pipelinedItems (hk : layout[k]? = some chunk)
    (hq : (rt.pipelinedChunk a e (chunk, k))[q]? = some it) :
    (rt.pipelinedItems a layout e)[rt.chunkStart a layout e k + q]? = some it := by
  have h := Positions.getElem?_flatMap (zipIdx_getElem?_eq hk) hq
  have hlt := (List.getElem?_eq_some_iff.mp h).1
  rw [pipelinedItems_eq, List.append_assoc, chunkStart, Nat.add_assoc, Nat.add_comm 2]
  show (layout.zipIdx.flatMap (rt.pipelinedChunk a e) ++ [rt.barrierItem a (e + layout.length)])[
    Positions.partStart (rt.pipelinedChunk a e) layout.zipIdx k + q]? = some it
  rw [List.getElem?_append_left hlt, h]

/-- The items of the pipelined path. -/
theorem pipelinedItems_cases (h : (rt.pipelinedItems a layout e)[r]? = some it) :
    (r = 0 ∧ it = ⟨a.call, .main, .record 0⟩) ∨ (r = 1 ∧ it = ⟨a.call, .copy, .wait 0⟩) ∨
      (∃ k chunk q, layout[k]? = some chunk ∧
        (rt.pipelinedChunk a e (chunk, k))[q]? = some it ∧ r = rt.chunkStart a layout e k + q) ∨
      r = 2 + (layout.zipIdx.flatMap (rt.pipelinedChunk a e)).length ∧
        it = rt.barrierItem a (e + layout.length) := by
  rw [pipelinedItems_eq, List.append_assoc] at h
  match r with
  | 0 => exact Or.inl ⟨rfl, (Option.some_inj.mp h).symm⟩
  | 1 => exact Or.inr (Or.inl ⟨rfl, (Option.some_inj.mp h).symm⟩)
  | r + 2 =>
    refine Or.inr (Or.inr ?_)
    replace h : (layout.zipIdx.flatMap (rt.pipelinedChunk a e) ++
      [rt.barrierItem a (e + layout.length)])[r]? = some it := h
    by_cases hr : r < (layout.zipIdx.flatMap (rt.pipelinedChunk a e)).length
    · rw [List.getElem?_append_left hr] at h
      obtain ⟨k, ⟨chunk, k'⟩, q, hn, hq, rfl⟩ := Positions.exists_of_getElem?_flatMap h
      rw [List.getElem?_zipIdx] at hn
      obtain ⟨chunk, hchunk, heq⟩ := Option.map_eq_some_iff.mp hn
      cases heq
      rw [Nat.zero_add] at hq
      refine Or.inl ⟨k, chunk, q, hchunk, hq, ?_⟩
      rw [chunkStart]
      omega
    · rw [List.getElem?_append_right (Nat.le_of_not_lt hr)] at h
      have hlt := (List.getElem?_eq_some_iff.mp h).1
      rw [List.length_singleton] at hlt
      have hr' : r = (layout.zipIdx.flatMap (rt.pipelinedChunk a e)).length := by omega
      subst hr'
      rw [Nat.sub_self] at h
      exact Or.inr ⟨Nat.add_comm _ _, (Option.some_inj.mp h).symm⟩

/-! ### One chunk -/

/-- The items of a chunk: its staging, on the copy stream, and four more. -/
theorem pipelinedChunk_cases (h : (rt.pipelinedChunk a e (chunk, k))[q]? = some it) :
    (q < (rt.stageChunk a chunk.1 chunk.2).length ∧
      ∃ ops ∈ rt.stageChunk a chunk.1 chunk.2, it = ⟨a.call, .copy, .kernel ops⟩) ∨
      ∃ q', q = (rt.stageChunk a chunk.1 chunk.2).length + q' ∧
        [(⟨a.call, .copy, .record (k + 1)⟩ : Item), ⟨a.call, .main, .wait (k + 1)⟩,
          rt.barrierItem a (e + k),
          ⟨a.call, .main, .kernel (rt.chunkPull a chunk.1 chunk.2)⟩][q']? = some it := by
  have hlen : (kernelItems a .copy (rt.stageChunk a chunk.1 chunk.2)).length =
      (rt.stageChunk a chunk.1 chunk.2).length := List.length_map _
  unfold pipelinedChunk chunkItems at h
  by_cases hq : q < (rt.stageChunk a chunk.1 chunk.2).length
  · rw [List.getElem?_append_left (by rwa [hlen])] at h
    obtain ⟨ops, hops, rfl⟩ := List.mem_map.mp (List.mem_of_getElem? h)
    exact Or.inl ⟨hq, ops, hops, rfl⟩
  · rw [List.getElem?_append_right (by rw [hlen]; exact Nat.le_of_not_lt hq), hlen] at h
    exact Or.inr ⟨_, by omega, h⟩

theorem pipelinedChunk_getElem? {q' : ℕ}
    (h : [(⟨a.call, .copy, .record (k + 1)⟩ : Item), ⟨a.call, .main, .wait (k + 1)⟩,
      rt.barrierItem a (e + k), ⟨a.call, .main, .kernel (rt.chunkPull a chunk.1 chunk.2)⟩][q']? =
        some it) :
    (rt.pipelinedChunk a e (chunk, k))[(rt.stageChunk a chunk.1 chunk.2).length + q']? =
      some it := by
  have hlen : (kernelItems a .copy (rt.stageChunk a chunk.1 chunk.2)).length =
      (rt.stageChunk a chunk.1 chunk.2).length := List.length_map _
  unfold pipelinedChunk chunkItems
  rw [← hlen, List.getElem?_append_right (Nat.le_add_right _ _), Nat.add_sub_cancel_left]
  exact h

/-- The pull of a chunk reads communication buffers only. -/
theorem exists_comm_of_chunkPull {off size : ℕ} {src dst : Cell}
    (h : DataAct.copy src dst ∈ acts (rt.chunkPull a off size)) : ∃ q b, src = .comm q b := by
  obtain ⟨i, peer, -, b, -, heq⟩ := PullKernelArgs.pullKernel_subset h
  cases heq
  exact ⟨_, _, rfl⟩

/-- The staging of a chunk copies the bytes that the chunk holds, from the input. -/
theorem of_mem_stageChunk {ops : List (Op DataAct)} {src dst : Cell}
    (hops : ops ∈ rt.stageChunk a chunk.1 chunk.2) (h : DataAct.copy src dst ∈ acts ops) :
    ∃ b, chunkHolds a.kind a.group.size a.sliceBytes chunk b ∧ src = .input rt.rank a.call b ∧
      dst = .comm rt.rank b := by
  rcases a with ⟨call, kind, input, output, group, row, n⟩
  unfold stageChunk at hops
  cases kind with
  | allGather =>
    rw [List.mem_singleton.mp hops, acts_copyOps] at h
    obtain ⟨d, hd, heq⟩ := h
    cases heq
    exact ⟨_, ⟨d, hd, rfl⟩, rfl, rfl⟩
  | all2All =>
    obtain ⟨p, hp, rfl⟩ := List.mem_map.mp hops
    rw [acts_copyOps] at h
    obtain ⟨d, hd, heq⟩ := h
    cases heq
    exact ⟨_, ⟨p, List.mem_range.mp hp, d, hd, rfl⟩, rfl, rfl⟩

/-- No byte is in two chunks. -/
theorem eq_of_chunkHolds {kind : Collective} {G n k' : ℕ} {chunk' : ℕ × ℕ}
    (hcont : Contiguous 0 layout n) (hk : layout[k]? = some chunk) (hk' : layout[k']? = some chunk')
    (hb : chunkHolds kind G n chunk b) (hb' : chunkHolds kind G n chunk' b) : k = k' := by
  cases kind with
  | allGather =>
    obtain ⟨d, hd, rfl⟩ := hb
    obtain ⟨d', hd', heq⟩ := hb'
    exact hcont.eq_of_mem_runs (x := chunk.1 + d) hk hk' (by omega) (by omega)
  | all2All =>
    -- where a byte lies in its slice says in which chunk it is
    have hmod : ∀ {chunk : ℕ × ℕ} {k p d : ℕ}, layout[k]? = some chunk → d < chunk.2 →
        (p * n + chunk.1 + d) % n = chunk.1 + d := by
      intro chunk k p d hk hd
      obtain ⟨-, -, hle⟩ := hcont.bounds (List.mem_of_getElem? hk)
      rw [Nat.add_assoc, Nat.mul_comm, Nat.mul_add_mod, Nat.mod_eq_of_lt (by omega)]
    obtain ⟨p, -, d, hd, rfl⟩ := hb
    obtain ⟨p', -, d', hd', heq⟩ := hb'
    have hsame := congrArg (· % n) heq
    rw [hmod hk hd, hmod hk' hd'] at hsame
    exact hcont.eq_of_mem_runs (x := chunk.1 + d) hk hk' (by omega) (by omega)

/-! ### Counting barriers -/

theorem countP_kernelItems (stream : StreamId) (ks : List (List (Op DataAct))) :
    (kernelItems a stream ks).countP Item.isBarrier = 0 := by
  refine List.countP_eq_zero.mpr fun it hit => ?_
  obtain ⟨ops, -, rfl⟩ := List.mem_map.mp hit
  exact Bool.false_ne_true

theorem countP_pipelinedChunk (x : (ℕ × ℕ) × ℕ) :
    (rt.pipelinedChunk a e x).countP Item.isBarrier = 1 := by
  unfold pipelinedChunk chunkItems
  rw [List.countP_append, countP_kernelItems]
  rfl

/-- Every chunk has one barrier. -/
theorem countP_flatMap_pipelinedChunk (l : List ((ℕ × ℕ) × ℕ)) :
    (l.flatMap (rt.pipelinedChunk a e)).countP Item.isBarrier = l.length := by
  induction l with
  | nil => rfl
  | cons x l ih =>
    rw [List.flatMap_cons, List.countP_append, ih, countP_pipelinedChunk, List.length_cons,
      Nat.add_comm]

/-- The barriers before an item of chunk `k`. -/
theorem countP_take_pipelinedItems (hk : layout[k]? = some chunk)
    (hq : q ≤ (rt.pipelinedChunk a e (chunk, k)).length) :
    ((rt.pipelinedItems a layout e).take (rt.chunkStart a layout e k + q)).countP Item.isBarrier =
      k + ((rt.pipelinedChunk a e (chunk, k)).take q).countP Item.isBarrier := by
  have hlt : k < layout.length := (List.getElem?_eq_some_iff.mp hk).1
  have htake := Positions.take_flatMap (zipIdx_getElem?_eq hk) hq
  have hle : Positions.partStart (rt.pipelinedChunk a e) layout.zipIdx k + q ≤
      (layout.zipIdx.flatMap (rt.pipelinedChunk a e)).length := by
    have hlen := congrArg List.length (Positions.flatMap_eq_of_getElem?
      (g := rt.pipelinedChunk a e) (zipIdx_getElem?_eq hk))
    simp only [List.length_append] at hlen
    unfold Positions.partStart
    omega
  rw [pipelinedItems_eq, List.append_assoc, chunkStart, Nat.add_assoc, Nat.add_comm 2]
  show (⟨a.call, .main, .record 0⟩ :: ⟨a.call, .copy, .wait 0⟩ ::
    (layout.zipIdx.flatMap (rt.pipelinedChunk a e) ++ [rt.barrierItem a (e + layout.length)]).take
      (Positions.partStart (rt.pipelinedChunk a e) layout.zipIdx k + q) : List Item).countP _ = _
  rw [List.take_append_of_le_length hle, htake]
  show ((layout.zipIdx.take k).flatMap (rt.pipelinedChunk a e) ++ _).countP _ = _
  rw [List.countP_append, countP_flatMap_pipelinedChunk, List.length_take, List.length_zipIdx,
    Nat.min_eq_left hlt.le]

/-- A barrier among the items of chunk `k` has `k` barriers before it. -/
theorem barrier_of_pipelinedChunk (hk : layout[k]? = some chunk)
    (hq : (rt.pipelinedChunk a e (chunk, k))[q]? = some it) (hit : it.isBarrier = true) :
    q = (rt.stageChunk a chunk.1 chunk.2).length + 2 ∧
      ((rt.pipelinedItems a layout e).take (rt.chunkStart a layout e k + q)).countP
        Item.isBarrier = k := by
  have hq' : q = (rt.stageChunk a chunk.1 chunk.2).length + 2 := by
    rcases pipelinedChunk_cases hq with ⟨-, ops, -, rfl⟩ | ⟨q', rfl, h⟩
    · cases hit
    · match q' with
      | 0 | 1 | 3 =>
        cases h
        cases hit
      | 2 => rfl
  refine ⟨hq', ?_⟩
  have hzero : ((rt.pipelinedChunk a e (chunk, k)).take q).countP Item.isBarrier = 0 := by
    have hlen : (kernelItems a .copy (rt.stageChunk a chunk.1 chunk.2)).length =
        (rt.stageChunk a chunk.1 chunk.2).length := List.length_map _
    unfold pipelinedChunk chunkItems
    rw [hq', ← hlen, List.take_length_add_append, List.countP_append, countP_kernelItems]
    rfl
  rw [countP_take_pipelinedItems hk (List.getElem?_eq_some_iff.mp hq).1.le, hzero, Nat.add_zero]

/-- The barrier of chunk `k` is the one with `k` barriers before it. -/
theorem barrier_of_pipelinedItems (h : (rt.pipelinedItems a layout e)[r]? = some it)
    (hit : it.isBarrier = true)
    (hcount : ((rt.pipelinedItems a layout e).take r).countP Item.isBarrier = k)
    (hk : layout[k]? = some chunk) :
    r = rt.chunkStart a layout e k + ((rt.stageChunk a chunk.1 chunk.2).length + 2) := by
  rcases pipelinedItems_cases h with ⟨-, rfl⟩ | ⟨-, rfl⟩ | ⟨k', chunk', q, hk', hq, rfl⟩ | ⟨rfl, -⟩
  · cases hit
  · cases hit
  · obtain ⟨hq', hcount'⟩ := barrier_of_pipelinedChunk hk' hq hit
    obtain rfl : k' = k := hcount'.symm.trans hcount
    obtain rfl : chunk' = chunk := Option.some_inj.mp (hk'.symm.trans hk)
    rw [hq']
  · -- the last barrier comes after all chunks
    have hall : (rt.pipelinedItems a layout e).take
        (2 + (layout.zipIdx.flatMap (rt.pipelinedChunk a e)).length) =
          [⟨a.call, .main, .record 0⟩, ⟨a.call, .copy, .wait 0⟩] ++
            layout.zipIdx.flatMap (rt.pipelinedChunk a e) := by
      rw [pipelinedItems_eq]
      exact List.take_left' (by rw [List.length_append]; rfl)
    rw [hall, List.countP_append, countP_flatMap_pipelinedChunk, List.length_zipIdx] at hcount
    replace hcount : 0 + layout.length = k := hcount
    have hlt := (List.getElem?_eq_some_iff.mp hk).1
    omega

/-- An input byte that lies in chunk `k` is staged by the kernels that open the chunk. -/
theorem exists_stage_of_copies {r₀ c a₀ : ℕ} (hcont : Contiguous 0 layout a.sliceBytes)
    (hk : layout[k]? = some chunk) (hb : chunkHolds a.kind a.group.size a.sliceBytes chunk b)
    (hr : (rt.pipelinedItems a layout e)[r]? = some it)
    (hit : it.Copies (.input r₀ c a₀) (.comm rt.rank b)) :
    ∃ q, q < (rt.stageChunk a chunk.1 chunk.2).length ∧ r = rt.chunkStart a layout e k + q ∧
      it.stream = .copy := by
  obtain ⟨ops, hops, hmem⟩ := hit
  rcases pipelinedItems_cases hr with
    ⟨-, rfl⟩ | ⟨-, rfl⟩ | ⟨k', chunk', q, hk', hq, rfl⟩ | ⟨-, rfl⟩
  · cases hops
  · cases hops
  · rcases pipelinedChunk_cases hq with ⟨hlt, ops', hops', rfl⟩ | ⟨q', -, h⟩
    · cases hops
      obtain ⟨b', hb', -, hdst⟩ := of_mem_stageChunk hops' hmem
      cases hdst
      obtain rfl := eq_of_chunkHolds hcont hk hk' hb hb'
      obtain rfl : chunk = chunk' := Option.some_inj.mp (hk.symm.trans hk')
      exact ⟨q, hlt, rfl, rfl⟩
    · match q' with
      | 0 | 1 | 2 =>
        cases h
        cases hops
      | 3 =>
        cases h
        cases hops
        obtain ⟨q, b, hsrc⟩ := exists_comm_of_chunkPull hmem
        cases hsrc
  · cases hops

end Pipelined

/-! ## The order within a call and behind earlier items -/

section Order

variable {call i r r' k b : ℕ} {A : ℕ → ℕ → Prop} {body before : List Item} {it x : Item}

/-- The items of a call are on the runtime's streams. -/
theorem Body.stream_cases (hb : Body rt call A body) (hit : it ∈ body) :
    it.stream = .main ∨ it.stream = .copy := by
  cases hb with
  | nothing => cases hit
  | main hmain hA => exact Or.inl (hmain it hit)
  | staged hpre hrest hA =>
    rcases List.mem_append.mp hit with hit | hit
    · exact Or.inl (hpre it hit).1
    · rcases List.mem_cons.mp hit with rfl | hit
      · exact Or.inl rfl
      · exact Or.inl (hrest it hit).1
  | pipelined ha hcont hA =>
    obtain ⟨r, hr⟩ := List.mem_iff_getElem?.mp hit
    rcases pipelinedItems_cases hr with ⟨-, rfl⟩ | ⟨-, rfl⟩ | ⟨k, chunk, q, hk, hq, -⟩ | ⟨-, rfl⟩
    · exact Or.inl rfl
    · exact Or.inr rfl
    · rcases pipelinedChunk_cases hq with ⟨-, ops, -, rfl⟩ | ⟨q', -, h⟩
      · exact Or.inr rfl
      · match q' with
        | 0 =>
          cases h
          exact Or.inr rfl
        | 1 | 2 | 3 =>
          cases h
          exact Or.inl rfl
    · exact Or.inl rfl

/-- Barriers, and kernels that read a communication buffer, are on the main stream. -/
theorem Body.stream_eq_main (hb : Body rt call A body) (hit : it ∈ body)
    (h : it.isBarrier = true ∨ ∃ q c dst, it.Copies (.comm q c) dst) : it.stream = .main := by
  cases hb with
  | nothing => cases hit
  | main hmain hA => exact hmain it hit
  | staged hpre hrest hA =>
    rcases List.mem_append.mp hit with hit | hit
    · exact (hpre it hit).1
    · rcases List.mem_cons.mp hit with rfl | hit
      · rfl
      · exact (hrest it hit).1
  | pipelined ha hcont hA =>
    -- on the copy stream there are stagings, a record and a wait
    obtain ⟨r, hr⟩ := List.mem_iff_getElem?.mp hit
    rcases pipelinedItems_cases hr with ⟨-, rfl⟩ | ⟨-, rfl⟩ | ⟨k, chunk, q, hk, hq, -⟩ | ⟨-, rfl⟩
    · rfl
    · rcases h with h | ⟨q, c, dst, ops, h, -⟩ <;> cases h
    · rcases pipelinedChunk_cases hq with ⟨-, ops, hops, rfl⟩ | ⟨q', -, h'⟩
      · rcases h with h | ⟨q, c, dst, ops', heq, h⟩
        · cases h
        · cases heq
          obtain ⟨b, -, hsrc, -⟩ := of_mem_stageChunk hops h
          cases hsrc
      · match q' with
        | 0 =>
          cases h'
          rcases h with h | ⟨q, c, dst, ops, h, -⟩ <;> cases h
        | 1 | 2 | 3 =>
          cases h'
          rfl
    · rfl

/-- **A kernel of a call comes after every earlier item of the main stream**: the copy
stream is forked off it. -/
theorem Body.after_main (hb : Body rt call A body) (hi : before[i]? = some x)
    (hx : x.stream = .main) (hr : body[r]? = some it) {ops : List (Op DataAct)}
    (hit : it.cmd = .kernel ops) : HappensBefore (before ++ body) i (before.length + r) := by
  have hlt := (List.getElem?_eq_some_iff.mp hi).1
  have hi' : (before ++ body)[i]? = some x := by rw [List.getElem?_append_left hlt, hi]
  by_cases hmain : it.stream = .main
  · exact .of_stream (by omega) hi' (getElem?_behind hr) (hx.trans hmain.symm)
  · cases hb with
    | nothing => simp at hr
    | main hall hA => exact absurd (hall it (List.mem_of_getElem? hr)) hmain
    | staged hpre hrest hA =>
      refine absurd ?_ hmain
      rcases List.mem_append.mp (List.mem_of_getElem? hr) with hm | hm
      · exact (hpre it hm).1
      · rcases List.mem_cons.mp hm with rfl | hm
        · rfl
        · exact (hrest it hm).1
    | @pipelined a layout e ha hcont hA =>
      have hcopy : it.stream = .copy :=
        ((Body.pipelined ha hcont hA).stream_cases (List.mem_of_getElem? hr)).resolve_left hmain
      have hge : 2 ≤ r := by
        rcases pipelinedItems_cases hr with
          ⟨-, rfl⟩ | ⟨-, rfl⟩ | ⟨k, chunk, q, -, -, rfl⟩ | ⟨rfl, -⟩
        · cases hit
        · cases hit
        · unfold chunkStart
          omega
        · omega
      have hrecord : (rt.pipelinedItems a layout e)[0]? = some ⟨a.call, .main, .record 0⟩ := rfl
      have hwait : (rt.pipelinedItems a layout e)[1]? = some ⟨a.call, .copy, .wait 0⟩ := rfl
      have hfork : HappensBefore (before ++ rt.pipelinedItems a layout e) i (before.length + 0) :=
        .of_stream (by omega) hi' (getElem?_behind hrecord) hx
      have hevent : HappensBefore (before ++ rt.pipelinedItems a layout e) (before.length + 0)
          (before.length + 1) :=
        .of_precedes (by omega) (getElem?_behind hrecord) (getElem?_behind hwait)
          (Or.inr (Or.inr ⟨rfl, 0, rfl, rfl⟩))
      have hstream : HappensBefore (before ++ rt.pipelinedItems a layout e) (before.length + 1)
          (before.length + r) :=
        .of_stream (by omega) (getElem?_behind hwait) (getElem?_behind hr) hcopy.symm
      exact (hfork.trans hevent).trans hstream

/-- **A barrier comes after the staging that it announces.** -/
theorem Body.announced (hb : Body rt call A body) (before : List Item) {r₀ c a₀ : ℕ} {y : Item}
    (hi : body[r]? = some x) (hx : x.Copies (.input r₀ c a₀) (.comm rt.rank b))
    (hj : body[r']? = some y) (hy : y.isBarrier = true)
    (hcount : (body.take r').countP Item.isBarrier = k) (hA' : A k b) :
    HappensBefore (before ++ body) (before.length + r) (before.length + r') := by
  have hmain := hb.stream_eq_main (List.mem_of_getElem? hj) (Or.inl hy)
  cases hb with
  | nothing => simp at hi
  | main hall hA => exact absurd hA' (hA k b)
  | @staged pre rest row tok hpre hrest hA =>
    have hlt : r < pre.length := by
      by_contra hge
      rw [List.getElem?_append_right (Nat.le_of_not_lt hge)] at hi
      rcases List.mem_cons.mp (List.mem_of_getElem? hi) with rfl | hmem
      · exact barrier_reads_no_input _ _ _ _ hx
      · exact (hrest x hmem).2 _ _ _ _ hx
    have hge : pre.length ≤ r' := by
      by_contra hlt'
      rw [List.getElem?_append_left (Nat.lt_of_not_le hlt')] at hj
      rw [(hpre y (List.mem_of_getElem? hj)).2] at hy
      cases hy
    rw [List.getElem?_append_left hlt] at hi
    refine .of_stream (by omega) (getElem?_behind ?_) (getElem?_behind hj)
      ((hpre x (List.mem_of_getElem? hi)).1.trans hmain.symm)
    rw [List.getElem?_append_left hlt, hi]
  | @pipelined a layout e ha hcont hA =>
    obtain ⟨chunk, hk, hb⟩ := hA k b hA'
    obtain rfl := barrier_of_pipelinedItems hj hy hcount hk
    obtain ⟨q, hq, rfl, hcopy⟩ := exists_stage_of_copies hcont hk hb hi hx
    have hrecord : (rt.pipelinedItems a layout e)[rt.chunkStart a layout e k +
        ((rt.stageChunk a chunk.1 chunk.2).length + 0)]? = some ⟨a.call, .copy, .record (k + 1)⟩ :=
      getElem?_pipelinedItems hk (pipelinedChunk_getElem? rfl)
    have hwait : (rt.pipelinedItems a layout e)[rt.chunkStart a layout e k +
        ((rt.stageChunk a chunk.1 chunk.2).length + 1)]? = some ⟨a.call, .main, .wait (k + 1)⟩ :=
      getElem?_pipelinedItems hk (pipelinedChunk_getElem? rfl)
    have hstream : HappensBefore (before ++ rt.pipelinedItems a layout e)
        (before.length + (rt.chunkStart a layout e k + q))
        (before.length + (rt.chunkStart a layout e k +
          ((rt.stageChunk a chunk.1 chunk.2).length + 0))) :=
      .of_stream (by omega) (getElem?_behind hi) (getElem?_behind hrecord) hcopy
    have hevent : HappensBefore (before ++ rt.pipelinedItems a layout e)
        (before.length + (rt.chunkStart a layout e k +
          ((rt.stageChunk a chunk.1 chunk.2).length + 0)))
        (before.length + (rt.chunkStart a layout e k +
          ((rt.stageChunk a chunk.1 chunk.2).length + 1))) :=
      .of_precedes (by omega) (getElem?_behind hrecord) (getElem?_behind hwait)
        (Or.inr (Or.inr ⟨rfl, k + 1, rfl, rfl⟩))
    exact (hstream.trans hevent).trans
      (HappensBefore.of_stream (by omega) (getElem?_behind hwait) (getElem?_behind hj) hmain.symm)

end Order

/-! ## What a call enqueues -/

section Calls

variable {x : Session rt} {c : Call}

variable (rt) in
/-- What a call can enqueue: nothing, a bare barrier, or the waits for the caller's stream
with a body behind them. -/
def Enqueues (c : Call) (new : List Item) : Prop :=
  new = [] ∨ (∃ call row tok, new = [⟨call, .main, .barrier row tok⟩]) ∨
    ∃ call current body, c.current = some current ∧ new = ingestItems call current ++ body ∧
      Body rt call (rt.announces c) body

/-- Behind its pre-barrier a p2p call reads communication buffers only. -/
theorem p2pSuffix_reads_no_input {call n : ℕ} {a : P2pArgs} {row : List ℕ} {tok : ℕ}
    {ks : List (List (Op DataAct))} (hks : rt.launchP2p call a n = .ok ks) :
    ∀ it ∈ rt.p2pSuffix call a n row tok ks,
      it.stream = .main ∧ ∀ r c b dst, ¬ it.Copies (.input r c b) dst := by
  intro it hit
  unfold p2pSuffix at hit
  rcases List.mem_append.mp hit with hit | hit
  · rcases List.mem_append.mp hit with hit | hit
    · refine kernels_read_no_input (fun src dst h => ?_) hit
      have hcopy := (acts_launchP2p hks).subset h
      unfold p2pCopies at hcopy
      split at hcopy
      · obtain ⟨b, -, heq⟩ := hcopy
        cases heq
        exact ⟨_, _, rfl⟩
      · obtain ⟨b, -, heq⟩ := hcopy
        cases heq
        exact ⟨_, _, rfl⟩
      · cases hcopy
    · rw [List.mem_singleton.mp hit]
      exact ⟨rfl, barrier_reads_no_input⟩
  · split at hit
    · rw [List.mem_singleton.mp hit]
      refine ⟨rfl, ?_⟩
      rintro r c b dst ⟨ops, heq, h⟩
      cases heq
      rw [p2pCopyOut, acts_copyOps] at h
      obtain ⟨b, -, heq⟩ := h
      cases heq
    · cases hit

/-- A p2p call stages before its first barrier. -/
theorem exists_body_of_p2pPrefix {call : ℕ} {A : ℕ → ℕ → Prop} (current : StreamId) (a : P2pArgs)
    (n : ℕ) (row : List ℕ) (tok : ℕ) {rest : List Item}
    (hrest : ∀ it ∈ rest, it.stream = .main ∧ ∀ r c b dst, ¬ it.Copies (.input r c b) dst)
    (hA : ∀ k b, A k b → k = 0) :
    ∃ body, rt.p2pPrefix call current a n row tok ++ rest = ingestItems call current ++ body ∧
      Body rt call A body := by
  have hpre : ∀ it ∈ (if a.role = .sender then
      [(⟨call, .main, .kernel (rt.p2pStage call n)⟩ : Item)] else []),
      it.stream = .main ∧ it.isBarrier = false := by
    intro it hit
    split at hit
    · rw [List.mem_singleton.mp hit]
      exact ⟨rfl, rfl⟩
    · cases hit
  refine ⟨_ ++ ⟨call, .main, .barrier row tok⟩ :: rest, ?_, .staged hpre hrest hA⟩
  unfold p2pPrefix
  simp only [List.append_assoc]
  rfl

theorem exists_enqueues_barrier {call : ℕ} {current : StreamId} {group : GroupDescriptor} :
    ∃ new, (x.run (.collective call current group .barrier)).2.state.items =
      x.state.items ++ new ∧ rt.Enqueues (.collective call current group .barrier) new := by
  rw [run_collective_eq]
  show ∃ new, (endState ((rt.barrier call group).run x.state)).items = _ ∧ _
  rw [run_barrier]
  cases rt.barrierEntry group with
  | error e => exact ⟨[], (List.append_nil _).symm, Or.inl rfl⟩
  | ok _ =>
    dsimp only
    cases x.state.registry.ranksDev group.handle with
    | none => exact ⟨[], (List.append_nil _).symm, Or.inl rfl⟩
    | some row => exact ⟨_, rfl, Or.inr (Or.inl ⟨call, row, _, rfl⟩)⟩

theorem exists_enqueues_data {call : ℕ} {current : StreamId} {group : GroupDescriptor}
    {d : DataCall} : ∃ new, (x.run (.collective call current group (.data d))).2.state.items =
      x.state.items ++ new ∧ rt.Enqueues (.collective call current group (.data d)) new := by
  rw [run_collective_eq]
  show ∃ new, (endState ((d.submit rt call current group).run x.state)).items = _ ∧ _
  rw [run_submit]
  cases hentry : d.entry rt group with
  | error e => exact ⟨[], (List.append_nil _).symm, Or.inl rfl⟩
  | ok n =>
    have hwait : rt.Enqueues (.collective call current group (.data d))
        (ingestItems call current) :=
      Or.inr (Or.inr ⟨call, current, [], rfl, (List.append_nil _).symm, .nothing⟩)
    have hchecked := entryChecked_of_entry hentry
    dsimp only
    cases hrow : x.state.registry.ranksDev group.handle with
    | none => exact ⟨_, rfl, hwait⟩
    | some row =>
      dsimp only
      cases hplan : rt.plan (rt.policyFor d.kind group n)
          (rt.effectivePipelineChunks n d.pipelineChunks) n d.output.dataPtr with
      | error e => exact ⟨_, rfl, hwait⟩
      | ok path =>
        have hA : ∀ k b, rt.announces (.collective call current group (.data d)) k b →
            rt.pathAnnounces d.kind group.size n path k b := by
          rintro k b ⟨n', path', hentry', hplan', h⟩
          obtain rfl : n = n' := Except.ok.inj (hentry.symm.trans hentry')
          obtain rfl : path = path' := Except.ok.inj (hplan.symm.trans hplan')
          exact h
        obtain ⟨body, hitems, hbody⟩ := exists_body_of_perform
          (a := ⟨call, d.kind, d.input, d.output, group, row, n⟩)
          (s := x.state.push (ingestItems call current)) hchecked.size_pos
          (ranksDev_length_pos hrow) (ready_of_plan hchecked.slice_le hplan) hA
        refine ⟨ingestItems call current ++ body, ?_,
          Or.inr (Or.inr ⟨call, current, body, rfl, rfl, hbody⟩)⟩
        dsimp only
        rw [hitems, RuntimeState.push_items, List.append_assoc]

theorem exists_enqueues_p2p {call : ℕ} {current : StreamId} {d : P2pCall}
    {gathered : List (ℤ × List ℤ)} : ∃ new, (x.run (.p2p call current d gathered)).2.state.items =
      x.state.items ++ new ∧ rt.Enqueues (.p2p call current d gathered) new := by
  rw [run_p2p_eq, P2pCall.submit_eq]
  show ∃ new, (endState (((require (d.peer ≠ rt.rank) d.peerMsg : rt.M Unit) >>= fun _ =>
    rt.p2pProtocol call current (d.args rt.rank) gathered).run x.state)).items = _ ∧ _
  generalize d.args rt.rank = a
  rw [EStateM.run_bind, run_require]
  by_cases hpeer : decide (d.peer ≠ rt.rank) = true
  case neg =>
    rw [if_neg hpeer]
    exact ⟨[], (List.append_nil _).symm, Or.inl rfl⟩
  rw [if_pos hpeer]
  dsimp only
  rw [run_p2pProtocol]
  cases rt.p2pEntry a with
  | error e => exact ⟨[], (List.append_nil _).symm, Or.inl rfl⟩
  | ok n =>
    -- the registration enqueues nothing
    have hframe : (endState ((rt.registerGroup [a.srcRank, a.dstRank] none gathered).run
        x.state)).items = x.state.items := registerGroup_frame.2
    dsimp only
    cases hreg : (rt.registerGroup [a.srcRank, a.dstRank] none gathered).run x.state with
    | error e s =>
      rw [hreg] at hframe
      exact ⟨[], hframe.trans (List.append_nil _).symm, Or.inl rfl⟩
    | ok g s =>
      rw [hreg] at hframe
      replace hframe : s.items = x.state.items := hframe
      dsimp only
      by_cases hli : 0 ≤ g.localIndex
      case neg =>
        rw [if_neg hli]
        exact ⟨[], hframe.trans (List.append_nil _).symm, Or.inl rfl⟩
      rw [if_pos hli, run_p2pLocked (size_pos_of_member hli), ← hframe]
      cases s.registry.ranksDev g.handle with
      | none =>
        exact ⟨_, rfl, Or.inr (Or.inr ⟨call, current, [], rfl, (List.append_nil _).symm, .nothing⟩)⟩
      | some row =>
        dsimp only
        have hA : ∀ k b, rt.announces (.p2p call current d gathered) k b → k = 0 := fun k b h => h
        cases hks : rt.launchP2p call a n with
        | error e =>
          have hrest : ∀ it ∈ ([] : List Item),
              it.stream = .main ∧ ∀ r c b dst, ¬ it.Copies (.input r c b) dst := by simp
          obtain ⟨body, heq, hbody⟩ := exists_body_of_p2pPrefix current a n row
            (rt.token g.groupId (s.epochs.peek g.groupId)) hrest hA
          rw [List.append_nil] at heq
          exact ⟨_, rfl, Or.inr (Or.inr ⟨call, current, body, rfl, heq, hbody⟩)⟩
        | ok ks =>
          obtain ⟨body, heq, hbody⟩ := exists_body_of_p2pPrefix current a n row
            (rt.token g.groupId (s.epochs.peek g.groupId)) (p2pSuffix_reads_no_input hks) hA
          exact ⟨_, rfl, Or.inr (Or.inr ⟨call, current, body, rfl, heq, hbody⟩)⟩

/-- **What a call enqueues**, whether it returns or raises. -/
theorem exists_enqueues (x : Session rt) (c : Call) :
    ∃ new, (x.run c).2.state.items = x.state.items ++ new ∧ rt.Enqueues c new := by
  have hnone : x.state.items = x.state.items ++ [] := (List.append_nil _).symm
  cases c with
  | register ranks groupId gathered =>
    rw [run_register_eq]
    exact ⟨[], registerGroup_frame.2.trans hnone, Or.inl rfl⟩
  | unregister group =>
    rw [Session.run_eq rfl]
    exact ⟨[], hnone, Or.inl rfl⟩
  | collective call current group c =>
    cases c with
    | barrier => exact exists_enqueues_barrier
    | data d => exact exists_enqueues_data
  | p2p call current d gathered => exact exists_enqueues_p2p
  | shutdown =>
    refine ⟨[], ?_, Or.inl rfl⟩
    unfold Session.run
    split
    case isTrue => exact hnone
    case isFalse => exact hnone

theorem items_run (x : Session rt) (c : Call) :
    (x.run c).2.state.items = x.state.items ++ x.newItems c := by
  obtain ⟨new, hnew, -⟩ := exists_enqueues x c
  rw [newItems_eq hnew, hnew]

theorem enqueues_newItems (x : Session rt) (c : Call) : rt.Enqueues c (x.newItems c) := by
  obtain ⟨new, hnew, h⟩ := exists_enqueues x c
  rwa [newItems_eq hnew]

/-- Both streams wait for the caller's one. -/
theorem exists_waitStream (call : ℕ) {current stream : StreamId}
    (hs : stream = .main ∨ stream = .copy) (hne : current ≠ stream) :
    ∃ w : ℕ, (ingestItems call current)[w]? = some ⟨call, stream, .waitStream current⟩ := by
  unfold ingestItems
  rcases hs with rfl | rfl
  · rw [if_pos hne]
    exact ⟨0, rfl⟩
  · rw [if_pos hne]
    split
    · exact ⟨1, rfl⟩
    · exact ⟨0, rfl⟩

/-! ## Barriers, pulls and kernels of calls -/

variable {new : List Item} {r : ℕ} {it : Item}

/-- A kernel of a call stands behind the waits. -/
theorem Enqueues.of_kernel (h : rt.Enqueues c new) (hr : new[r]? = some it)
    {ops : List (Op DataAct)} (hit : it.cmd = .kernel ops) :
    ∃ call current body r', c.current = some current ∧ new = ingestItems call current ++ body ∧
      Body rt call (rt.announces c) body ∧ body[r']? = some it ∧
      r = (ingestItems call current).length + r' := by
  rcases h with rfl | ⟨call, row, tok, rfl⟩ | ⟨call, current, body, hcur, rfl, hbody⟩
  · simp at hr
  · rw [List.mem_singleton.mp (List.mem_of_getElem? hr)] at hit
    cases hit
  · by_cases hlt : r < (ingestItems call current).length
    · rw [List.getElem?_append_left hlt] at hr
      rw [ingestItems_cmd (List.mem_of_getElem? hr)] at hit
      cases hit
    · rw [List.getElem?_append_right (Nat.le_of_not_lt hlt)] at hr
      exact ⟨call, current, body, _, hcur, rfl, hbody, hr, by omega⟩

/-- Barriers and pulls of a call are on the main stream. -/
theorem Enqueues.stream_eq_main (h : rt.Enqueues c new) (hit : it ∈ new)
    (hsync : it.isBarrier = true ∨ ∃ q b dst, it.Copies (.comm q b) dst) : it.stream = .main := by
  rcases h with rfl | ⟨call, row, tok, rfl⟩ | ⟨call, current, body, -, rfl, hbody⟩
  · cases hit
  · rw [List.mem_singleton.mp hit]
  · rcases List.mem_append.mp hit with hit | hit
    · have hcmd := ingestItems_cmd hit
      rcases hsync with hsync | ⟨q, b, dst, ops, hops, -⟩
      · unfold Item.isBarrier at hsync
        rw [hcmd] at hsync
        cases hsync
      · rw [hcmd] at hops
        cases hops
    · exact hbody.stream_eq_main hit hsync

end Calls

/-! ## Sequences of calls -/

section Sequences

variable {h h' : List HostStep} {c : Call} {x : Session rt}

theorem Session.steps_append (x : Session rt) (h h' : List HostStep) :
    x.steps (h ++ h') = (x.steps h).steps h' := List.foldl_append

/-- A host only adds items. -/
theorem Session.exists_steps (x : Session rt) (h : List HostStep) :
    ∃ more, (x.steps h).state.items = x.state.items ++ more := by
  induction h generalizing x with
  | nil => exact ⟨[], (List.append_nil _).symm⟩
  | cons st h ih =>
    have hstep : ∃ new, (x.step st).state.items = x.state.items ++ new := by
      cases st with
      | work it => exact ⟨[it], rfl⟩
      | call c => exact ⟨_, items_run x c⟩
    obtain ⟨new, hnew⟩ := hstep
    obtain ⟨more, hmore⟩ := ih (x.step st)
    refine ⟨new ++ more, ?_⟩
    rw [← List.append_assoc, ← hnew]
    exact hmore

/-- The items of a call among those of the whole sequence. -/
theorem exists_items_steps (x : Session rt) (c : Call) (h' : List HostStep) :
    ∃ more, (x.steps (.call c :: h')).state.items = x.state.items ++ x.newItems c ++ more := by
  obtain ⟨more, hmore⟩ := (x.run c).2.exists_steps h'
  rw [items_run] at hmore
  exact ⟨more, hmore⟩

variable (rt) in
/-- What the order of a rank's streams is for: of a call `c` that is made after `h`, among
the items `its` of the rank. -/
structure Ordered (h : List HostStep) (c : Call) (its : List Item) : Prop where
  /-- the barriers and pulls of an earlier call come before all writes of the own
  communication buffer -/
  comm : ∀ h₁ c₁ h₂, h = h₁ ++ .call c₁ :: h₂ → ∀ (i r : ℕ) (it it' : Item),
    (((Session.initial : Session rt).steps h₁).newItems c₁)[i]? = some it →
    (it.isBarrier = true ∨ ∃ q b dst, it.Copies (.comm q b) dst) →
    (((Session.initial : Session rt).steps h).newItems c)[r]? = some it' →
    (∃ src b, it'.Copies src (.comm rt.rank b)) →
    HappensBefore its (((Session.initial : Session rt).steps h₁).next + i)
      (((Session.initial : Session rt).steps h).next + r)
  /-- what a barrier announces has been staged before it -/
  announced : ∀ (k b r r' : ℕ) (it it' : Item), rt.announces c k b →
    (((Session.initial : Session rt).steps h).newItems c)[r]? = some it →
    (∃ k' b', it.Copies (.input rt.rank k' b') (.comm rt.rank b)) →
    (((Session.initial : Session rt).steps h).newItems c)[r']? = some it' →
    it'.isBarrier = true →
    ((((Session.initial : Session rt).steps h).newItems c).take r').countP Item.isBarrier = k →
    HappensBefore its (((Session.initial : Session rt).steps h).next + r)
      (((Session.initial : Session rt).steps h).next + r')
  /-- what was on the caller's stream comes before all that is done to the caller's
  tensors -/
  tensors : ∀ (i r : ℕ) (it it' : Item),
    ((Session.initial : Session rt).steps h).state.items[i]? = some it →
    c.current = some it.stream →
    (((Session.initial : Session rt).steps h).newItems c)[r]? = some it' →
    (∃ src dst, it'.Copies src dst ∧
      ((∃ k b, src = .input rt.rank k b) ∨ ∃ k b, dst = .output rt.rank k b)) →
    HappensBefore its i (((Session.initial : Session rt).steps h).next + r)

/-- A kernel of a call comes after every earlier item of the main stream. -/
theorem kernel_after_main {i r : ℕ} {it it' : Item} {ops : List (Op DataAct)}
    (hi : x.state.items[i]? = some it) (hmain : it.stream = .main)
    (hr : (x.newItems c)[r]? = some it') (hops : it'.cmd = .kernel ops) :
    HappensBefore (x.state.items ++ x.newItems c) i (x.next + r) := by
  obtain ⟨call, current, body, r', -, hnew, hbody, hr', rfl⟩ :=
    (enqueues_newItems x c).of_kernel hr hops
  have hlt := (List.getElem?_eq_some_iff.mp hi).1
  have hi' : (x.state.items ++ ingestItems call current)[i]? = some it := by
    rw [List.getElem?_append_left hlt, hi]
  have hafter := hbody.after_main hi' hmain hr' hops
  rw [List.length_append, List.append_assoc, ← hnew, Nat.add_assoc] at hafter
  exact hafter

/-- A kernel of a call comes after what was on the caller's stream. -/
theorem kernel_after_current {i r : ℕ} {it it' : Item} {ops : List (Op DataAct)}
    (hi : x.state.items[i]? = some it) (hcur : c.current = some it.stream)
    (hr : (x.newItems c)[r]? = some it') (hops : it'.cmd = .kernel ops) :
    HappensBefore (x.state.items ++ x.newItems c) i (x.next + r) := by
  have hlt : i < x.next := (List.getElem?_eq_some_iff.mp hi).1
  have hi' : (x.state.items ++ x.newItems c)[i]? = some it := by
    rw [List.getElem?_append_left hlt, hi]
  obtain ⟨call, current, body, r', hcur', hnew, hbody, hr', rfl⟩ :=
    (enqueues_newItems x c).of_kernel hr hops
  obtain rfl : current = it.stream := Option.some_inj.mp (hcur'.symm.trans hcur)
  by_cases hsame : it.stream = it'.stream
  · exact .of_stream (by omega) hi' (getElem?_behind hr) hsame
  · obtain ⟨w, hw⟩ := exists_waitStream call
      (hbody.stream_cases (List.mem_of_getElem? hr')) hsame
    have hwlt := (List.getElem?_eq_some_iff.mp hw).1
    have hw' : (x.newItems c)[w]? = some ⟨call, it'.stream, .waitStream it.stream⟩ := by
      rw [hnew, List.getElem?_append_left hwlt, hw]
    have hwait : HappensBefore (x.state.items ++ x.newItems c) i (x.next + w) :=
      .of_precedes (by omega) hi' (getElem?_behind hw') (Or.inr (Or.inl rfl))
    exact hwait.trans
      (HappensBefore.of_stream (by omega) (getElem?_behind hw') (getElem?_behind hr) rfl)

/-- A barrier of a call comes after the staging that it announces. -/
theorem barrier_after_staging {k b r r' k' b' : ℕ} {it it' : Item} (hA : rt.announces c k b)
    (hr : (x.newItems c)[r]? = some it)
    (hcopy : it.Copies (.input rt.rank k' b') (.comm rt.rank b))
    (hr' : (x.newItems c)[r']? = some it') (hbar : it'.isBarrier = true)
    (hcount : ((x.newItems c).take r').countP Item.isBarrier = k) :
    HappensBefore (x.state.items ++ x.newItems c) (x.next + r) (x.next + r') := by
  obtain ⟨ops, hops, -⟩ := id hcopy
  obtain ⟨call, current, body, q, -, hnew, hbody, hq, rfl⟩ :=
    (enqueues_newItems x c).of_kernel hr hops
  rw [hnew] at hr' hcount
  have hzero : (ingestItems call current).countP Item.isBarrier = 0 := by
    refine List.countP_eq_zero.mpr fun it hit => ?_
    unfold Item.isBarrier
    rw [ingestItems_cmd hit]
    exact Bool.false_ne_true
  -- the waits are no barriers
  have hge : (ingestItems call current).length ≤ r' := by
    by_contra hlt
    rw [List.getElem?_append_left (Nat.lt_of_not_le hlt)] at hr'
    exact List.countP_eq_zero.mp hzero it' (List.mem_of_getElem? hr') hbar
  obtain ⟨q', rfl⟩ := Nat.exists_eq_add_of_le hge
  rw [List.getElem?_append_right hge, Nat.add_sub_cancel_left] at hr'
  rw [List.take_length_add_append, List.countP_append, hzero, Nat.zero_add] at hcount
  have hbefore := hbody.announced (x.state.items ++ ingestItems call current) hq hcopy hr' hbar
    hcount hA
  rw [List.length_append, List.append_assoc, ← hnew, Nat.add_assoc, Nat.add_assoc] at hbefore
  exact hbefore

/-- **A rank's streams are ordered**, whatever calls are made and whatever else is enqueued
before and after, and whatever stream is current at each call. -/
theorem streams_are_ordered (h h' : List HostStep) (c : Call) : rt.Ordered h c
    ((Session.initial : Session rt).steps (h ++ .call c :: h')).state.items := by
  rw [Session.steps_append]
  obtain ⟨more, hmore⟩ := exists_items_steps ((Session.initial : Session rt).steps h) c h'
  rw [hmore]
  refine ⟨?_, ?_, ?_⟩
  · rintro h₁ c₁ h₂ rfl i r it it' hi hsync hr ⟨src, b, ops, hops, -⟩
    have hmain := (enqueues_newItems _ c₁).stream_eq_main (List.mem_of_getElem? hi) hsync
    obtain ⟨more', hmore'⟩ := exists_items_steps ((Session.initial : Session rt).steps h₁) c₁ h₂
    rw [← Session.steps_append] at hmore'
    refine (kernel_after_main ?_ hmain hr hops).append more
    have hlt := (List.getElem?_eq_some_iff.mp hi).1
    rw [hmore', List.append_assoc]
    exact getElem?_behind (by rw [List.getElem?_append_left hlt, hi])
  · rintro k b r r' it it' hA hr ⟨k', b', hcopy⟩ hr' hbar hcount
    exact (barrier_after_staging hA hr hcopy hr' hbar hcount).append more
  · rintro i r it it' hi hcur hr ⟨src, dst, ⟨ops, hops, -⟩, -⟩
    exact (kernel_after_current hi hcur hr hops).append more

end Sequences

end Runtime

end GroupFreeCollectives
