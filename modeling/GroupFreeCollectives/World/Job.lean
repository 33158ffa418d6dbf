import GroupFreeCollectives.Runtime.Paths
import GroupFreeCollectives.World.FusedPart

/-!
# Jobs

A job is a call that passes its checks, with the data path that it has decided on: what a
rank does for an operation.  `Job.items` is what it enqueues.  Every valid job is a `Part`
in its operation: all but the pipelined path are sandwiches.
-/

namespace GroupFreeCollectives

open Tiling

/-- A call of a rank, with what it has decided on. -/
inductive Job where
  | barrier (call : ℕ) (groupId : ℤ) (ranks : List ℕ)
  | collective (current : StreamId) (a : CollectiveArgs) (path : DataPath)
  | p2p (call : ℕ) (current : StreamId) (a : P2pArgs) (n : ℕ) (groupId : ℤ)
      (ks : List (List (Op DataAct)))

/-- The rank is a member of a group of the world. -/
structure Member (rt : Runtime) (ranks : List ℕ) : Prop where
  nodup : ranks.Nodup
  lt : ∀ q ∈ ranks, q < rt.worldSize
  mem : rt.rank ∈ ranks

namespace Runtime

variable (rt : Runtime)

/-- What the copy between the barriers of a p2p call reads and stores, on the rank that
copies. -/
def p2pCells (call : ℕ) (a : P2pArgs) : Option ((ℕ → Cell) × (ℕ → Cell)) :=
  match a.protocol, a.role with
  | .put, .sender => some (fun b => .comm rt.rank b, fun b => .comm a.dstRank.toNat b)
  | .get, .receiver => some (fun b => .comm a.srcRank.toNat b, fun b => .output rt.rank call b)
  | _, _ => none

/-- The kernels of the copy of a p2p call: those that the runtime picks, a vector kernel of any
width with any number of programs, or the copy engine. -/
inductive P2pLaunch (call : ℕ) (a : P2pArgs) (n : ℕ) : List (List (Op DataAct)) → Prop
  | runtime {ks : List (List (Op DataAct))} (h : rt.launchP2p call a n = .ok ks) :
      P2pLaunch call a n ks
  | vector {src dst : ℕ → Cell} {vec : ℕ} {numSms : ℤ} {ops : List (Op DataAct)}
      (hcells : rt.p2pCells call a = some (src, dst))
      (h : launchPullCopy src dst n vec numSms = .ok ops) : P2pLaunch call a n [ops]
  | copyEngine {src dst : ℕ → Cell} (hcells : rt.p2pCells call a = some (src, dst)) :
      P2pLaunch call a n (launchP2pCopyEngine src dst n)

variable {rt} {call n : ℕ} {a : P2pArgs}

theorem p2pCopies_eq {src dst : ℕ → Cell} (h : rt.p2pCells call a = some (src, dst)) :
    rt.p2pCopies call a n = copies src dst n := by
  unfold p2pCells at h
  unfold p2pCopies
  cases hp : a.protocol <;> cases hr : a.role <;> simp only [hp, hr] at h ⊢ <;> cases h <;> rfl

/-- **Every such copy moves the same bytes.** -/
theorem P2pLaunch.acts_eq {ks : List (List (Op DataAct))} (h : rt.P2pLaunch call a n ks) :
    acts ks.flatten = rt.p2pCopies call a n := by
  cases h with
  | runtime h => exact acts_launchP2p h
  | vector hcells h => rw [List.flatten_singleton, acts_launchPullCopy h, p2pCopies_eq hcells]
  | copyEngine hcells => rw [p2pCopies_eq hcells, launchP2pCopyEngine, acts_cudaMemcpyAsync]

end Runtime

namespace Job

/-- The number of the call, which names its tensors. -/
def call : Job → ℕ
  | .barrier call _ _ => call
  | .collective _ a _ => a.call
  | .p2p call _ _ _ _ _ => call

/-- What the members agree on. -/
def request : Job → Request
  | .barrier _ gid ranks => ⟨gid, ranks, .barrier⟩
  | .collective _ a path => ⟨a.group.groupId, a.row, .collective a.kind a.sliceBytes path.pathKind⟩
  | .p2p _ _ a n gid _ => ⟨gid, [a.srcRank.toNat, a.dstRank.toNat],
      .p2p a.protocol a.srcRank.toNat a.dstRank.toNat n⟩

/-- The operation of a job that takes its epochs from `e` on. -/
def operation (j : Job) (e : ℕ) : Operation := ⟨j.request, e⟩

variable (rt : Runtime)

/-- What a job enqueues. -/
def items (e : ℕ) : Job → List Item
  | .barrier call gid ranks => [⟨call, .main, .barrier ranks (rt.token gid e)⟩]
  | .collective current a path => Runtime.ingestItems a.call current ++ rt.pathItems a e path
  | .p2p call current a n gid ks =>
    rt.p2pPrefix call current a n [a.srcRank.toNat, a.dstRank.toNat] (rt.token gid e) ++
      rt.p2pSuffix call a n [a.srcRank.toNat, a.dstRank.toNat] (rt.token gid (e + 1)) ks

/-- What the checks of a call that returns have established. -/
inductive Valid : Job → Prop
  | barrier {call : ℕ} {gid : ℤ} {ranks : List ℕ} (member : Member rt ranks) :
      Valid (.barrier call gid ranks)
  | collective {current : StreamId} {a : CollectiveArgs} {path : DataPath}
      (member : Member rt a.row) (row : a.row = a.group.ranks)
      (index : a.selfLocalIndex = a.row.idxOf rt.rank)
      (checked : rt.EntryChecked a.kind a.input a.output a.group a.sliceBytes)
      (ready : rt.Ready a.sliceBytes a.output.dataPtr path)
      (launches : Runtime.Launches a.sliceBytes path) : Valid (.collective current a path)
  | p2p {call : ℕ} {current : StreamId} {a : P2pArgs} {n : ℕ} {gid : ℤ}
      {ks : List (List (Op DataAct))} (member : Member rt [a.srcRank.toNat, a.dstRank.toNat])
      (sender : a.role = .sender → rt.rank = a.srcRank.toNat)
      (receiver : a.role = .receiver → rt.rank = a.dstRank.toNat)
      (launched : rt.P2pLaunch call a n ks) : Valid (.p2p call current a n gid ks)

end Job

/-! ## Waits for the caller's stream -/

theorem plainly_ingestItems (call : ℕ) (current : StreamId) :
    Sandwich.Plainly (Runtime.ingestItems call current) :=
  fun _ hit => ⟨current, Runtime.ingestItems_cmd hit⟩

/-- What the kernels among items do is what their operations do. -/
theorem mem_itemActs_iff {its : List Item} {d : DataAct} :
    d ∈ itemActs its ↔ ∃ m op, HasOp its m op ∧ op.act = d := by
  unfold itemActs
  rw [List.mem_flatMap]
  constructor
  · rintro ⟨it, hit, hd⟩
    obtain ⟨m, hm⟩ := List.mem_iff_getElem?.mp hit
    split at hd
    case h_1 ops hops =>
      obtain ⟨op, hop, rfl⟩ := List.mem_map.mp hd
      exact ⟨m, op, ⟨it, ops, hm, hops, hop⟩, rfl⟩
    case h_2 => simp at hd
  · rintro ⟨m, op, ⟨it, ops, hm, hops, hop⟩, rfl⟩
    refine ⟨it, List.mem_of_getElem? hm, ?_⟩
    rw [hops]
    exact List.mem_map_of_mem hop

namespace Runtime

variable {rt : Runtime} {a : CollectiveArgs} {current : StreamId} {e : ℕ} {d : DataAct}
  {x : ℕ × ℕ} {pairs : List (ℕ × ℕ)}

/-! ## Stagings and pulls -/

theorem IsStaging.form {o : Operation} (h : IsStaging rt a d)
    (ho : o.work.origin rt.rank = rt.rank) :
    ∃ src dst, d = .copy src dst ∧ CopyForm o rt.rank a.call src dst := by
  obtain ⟨b, -, rfl⟩ := h
  exact ⟨_, _, rfl, .stage ho⟩

/-- A staging touches no buffer but the own one. -/
theorem IsStaging.not_touches (h : IsStaging rt a d) {q : ℕ} (hq : q ≠ rt.rank) :
    ¬ Touches q d := by
  obtain ⟨b, -, rfl⟩ := h
  rintro ⟨src, dst, x, heq, h | h⟩
  · cases heq
    cases h
  · cases heq
    cases h
    exact hq rfl

/-- The pull of a byte reads the buffer of the member in its lane. -/
theorem exists_pullCopy_eq (hx : x.1 < a.row.length) : ∃ q, a.row[x.1]? = some q ∧
    rt.pullCopy a x = .copy (.comm q (a.kind.srcOffset a.selfLocalIndex a.sliceBytes + x.2))
      (.output rt.rank a.call (x.1 * a.sliceBytes + x.2)) := by
  refine ⟨a.row[x.1], List.getElem?_eq_getElem hx, ?_⟩
  rw [pullCopy, List.getD_eq_getElem _ _ hx]

/-- **The outputs of a path whose pulls take every byte once.** -/
theorem delivers_of_splits {its : List Item} (hsplits : Splits rt a pairs (itemActs its))
    (htakes : TakesAll pairs a.row.length a.sliceBytes)
    (hindex : a.selfLocalIndex = a.row.idxOf rt.rank) :
    Delivers rt.rank a.call a.row a.kind a.sliceBytes its where
  outputs := by
    intro m op h src y hact
    have hmem : op.act ∈ itemActs its := mem_itemActs_iff.mpr ⟨m, op, h, rfl⟩
    cases hp : op.act.isPull with
    | false =>
      obtain ⟨b, -, heq⟩ := hsplits.staging _ hmem hp
      rw [hact] at heq
      cases heq
    | true =>
      obtain ⟨x, hx, heq⟩ := hsplits.exists_pull hmem hp
      obtain ⟨hi, hb⟩ := (htakes.mem_iff x.1 x.2).mp hx
      obtain ⟨q, hq, hpull⟩ := @exists_pullCopy_eq rt a x hi
      rw [hact, hpull, hindex] at heq
      cases heq
      exact ⟨x.1, q, x.2, hq, hb, rfl, Or.inl rfl⟩
  covers := by
    intro i q b hq hb
    have hi : i < a.row.length := (List.getElem?_eq_some_iff.mp hq).1
    have hmem : rt.pullCopy a (i, b) ∈ itemActs its := by
      refine (List.mem_filter (p := DataAct.isPull)).mp ?_ |>.1
      rw [hsplits.pulls]
      exact List.mem_map_of_mem ((htakes.mem_iff i b).mpr ⟨hi, hb⟩)
    obtain ⟨m, op, h, hact⟩ := mem_itemActs_iff.mp hmem
    exact ⟨m, op, _, h, hact⟩

/-! ## The one-shot path -/

/-- A member's slice is within what the others stage for it. -/
theorem selfLocalIndex_lt (hmem : Member rt a.row)
    (hindex : a.selfLocalIndex = a.row.idxOf rt.rank) :
    a.selfLocalIndex < a.row.length := by
  rw [hindex]
  exact List.idxOf_lt_length_of_mem hmem.mem

theorem plain_oneShot {eng : Engine} (hmem : Member rt a.row) (hrow : a.row = a.group.ranks)
    (hindex : a.selfLocalIndex = a.row.idxOf rt.rank)
    (htakes : TakesAll (rt.pathPairs a (.oneShot eng)) a.row.length a.sliceBytes) :
    Plain rt.config rt.sessionNonce rt.rank a.call
      ((Job.collective current a (.oneShot eng)).operation e)
      ((Job.collective current a (.oneShot eng)).items rt e) := by
  have hitems : (Job.collective current a (.oneShot eng)).items rt e =
      sandwich (ingestItems a.call current) a.call a.row (rt.token a.group.groupId (e + 0))
        (rt.token a.group.groupId (e + 1)) [rt.stage a] (rt.oneShotKernels a eng) [] := by
    simp [Job.items, pathItems, oneShotPrefix, barrierItem, kernelItems, sandwich, mains]
  have hstage : ∀ op ∈ [rt.stage a].flatten, IsStaging rt a op.act := by
    intro op hop
    rw [List.flatten_singleton] at hop
    exact mem_stage_iff.mp (List.mem_map_of_mem hop)
  have hpull : ∀ op ∈ (rt.oneShotKernels a eng).flatten, ∃ i q b, a.row[i]? = some q ∧
      b < a.sliceBytes ∧ op.act = .copy
        (.comm q (a.kind.srcOffset a.selfLocalIndex a.sliceBytes + b))
        (.output rt.rank a.call (i * a.sliceBytes + b)) := by
    intro op hop
    have hact := List.mem_map_of_mem (f := Op.act) hop
    rw [map_act_oneShotKernels hrow] at hact
    obtain ⟨x, hx, heq⟩ := List.mem_map.mp hact
    obtain ⟨hi, hb⟩ := (htakes.mem_iff x.1 x.2).mp hx
    obtain ⟨q, hq, hpull⟩ := @exists_pullCopy_eq rt a x hi
    exact ⟨x.1, q, x.2, hq, hb, by rw [← heq, hpull]⟩
  rw [hitems]
  refine Sandwich.plain (plainly_ingestItems _ _) hmem.mem rfl rfl ?_ ?_ ?_ ?_ (by simp) ?_
  · rintro op (hop | hop | hop)
    · exact (hstage op hop).form rfl
    · obtain ⟨i, q, b, hq, -, hact⟩ := hpull op hop
      exact ⟨_, _, hact, .pull (List.mem_of_getElem? hq)⟩
    · simp at hop
  · rintro op (hop | hop) q hq
    · exact (hstage op hop).not_touches hq
    · simp at hop
  · intro op hop q x dst hact
    obtain ⟨b, -, heq⟩ := hstage op hop
    rw [hact] at heq
    cases heq
  · intro op hop q x dst hact
    obtain ⟨i, q', b, hq', hb, heq⟩ := hpull op hop
    rw [hact] at heq
    cases heq
    exact ⟨q, List.mem_of_getElem? hq', rfl, rfl,
      srcOffset_add_lt (selfLocalIndex_lt hmem hindex) hb⟩
  · rintro k q x ⟨rfl, rfl, hx⟩
    have hstaged : IsStaging rt a (.copy (.input rt.rank a.call x) (.comm rt.rank x)) := by
      refine ⟨x, ?_, rfl⟩
      rw [a.group.size_eq, ← hrow]
      exact hx
    obtain ⟨op, hop, hact⟩ := List.mem_map.mp (mem_stage_iff.mpr hstaged)
    exact Or.inl ⟨rfl, op, by rwa [List.flatten_singleton], _, hact⟩

/-! ## The pipelined path -/

section Pipelined

variable {layout : List (ℕ × ℕ)} {chunk : ℕ × ℕ} {k m : ℕ} {op : Op DataAct}

/-- The last barrier of the pipelined path. -/
theorem getElem?_pipelinedItems_last : (rt.pipelinedItems a layout e)[
    2 + (layout.zipIdx.flatMap (rt.pipelinedChunk a e)).length]? =
      some (rt.barrierItem a (e + layout.length)) := by
  have hlen : ([⟨a.call, .main, .record 0⟩, ⟨a.call, .copy, .wait 0⟩] ++
      layout.zipIdx.flatMap (rt.pipelinedChunk a e) : List Item).length =
        2 + (layout.zipIdx.flatMap (rt.pipelinedChunk a e)).length := List.length_append
  rw [pipelinedItems_eq, ← hlen, List.getElem?_concat_length]

/-- Four items behind the staging of a chunk. -/
theorem getElem?_pipelined_tail {it : Item} {q : ℕ} (hk : layout[k]? = some chunk)
    (h : [(⟨a.call, .copy, .record (k + 1)⟩ : Item), ⟨a.call, .main, .wait (k + 1)⟩,
      rt.barrierItem a (e + k), ⟨a.call, .main, .kernel (rt.chunkPull a chunk.1 chunk.2)⟩][q]? =
        some it) :
    (rt.pipelinedItems a layout e)[rt.chunkStart a layout e k +
      ((rt.stageChunk a chunk.1 chunk.2).length + q)]? = some it :=
  getElem?_pipelinedItems hk (pipelinedChunk_getElem? h)

/-- **An operation of the pipelined path stages or pulls a byte of a chunk.** -/
theorem hasOp_pipelined_cases (h : HasOp (rt.pipelinedItems a layout e) m op) :
    ∃ k chunk, layout[k]? = some chunk ∧
      ((∃ q b it, m = rt.chunkStart a layout e k + q ∧
          q < (rt.stageChunk a chunk.1 chunk.2).length ∧
          (rt.pipelinedItems a layout e)[m]? = some it ∧ it.stream = .copy ∧ it.cmd.ops ≠ [] ∧
          chunkHolds a.kind a.group.size a.sliceBytes chunk b ∧
          op.act = .copy (.input rt.rank a.call b) (.comm rt.rank b)) ∨
        m = rt.chunkStart a layout e k + ((rt.stageChunk a chunk.1 chunk.2).length + 3) ∧
          op ∈ rt.chunkPull a chunk.1 chunk.2 ∧
            ∃ x ∈ rt.chunkPairs a chunk, op.act = rt.pullCopy a x) := by
  obtain ⟨it, ops, hm, hit, hop⟩ := h
  rcases pipelinedItems_cases hm with ⟨-, rfl⟩ | ⟨-, rfl⟩ | ⟨k, chunk, q, hk, hq, rfl⟩ | ⟨-, rfl⟩
  · cases hit
  · cases hit
  · refine ⟨k, chunk, hk, ?_⟩
    rcases pipelinedChunk_cases hq with ⟨hlt, ops', hops, rfl⟩ | ⟨q', rfl, hq'⟩
    · cases hit
      have hmem : op.act ∈ (rt.stageChunk a chunk.1 chunk.2).flatten.map Op.act :=
        List.mem_map_of_mem (List.mem_flatten.mpr ⟨ops, hops, hop⟩)
      obtain ⟨b, hb, hact⟩ := (mem_stageChunk_iff chunk).mp hmem
      exact Or.inl ⟨q, b, _, rfl, hlt, hm, rfl, ops_kernel_ne_nil hop, hb, hact⟩
    · match q' with
      | 0 | 1 | 2 =>
        cases hq'
        cases hit
      | 3 =>
        cases hq'
        cases hit
        have hmem : op.act ∈ (rt.chunkPull a chunk.1 chunk.2).map Op.act := List.mem_map_of_mem hop
        rw [map_act_chunkPull] at hmem
        obtain ⟨x, hx, hact⟩ := List.mem_map.mp hmem
        exact Or.inr ⟨rfl, hop, x, hx, hact.symm⟩
  · cases hit

/-- What a chunk holds is staged. -/
theorem exists_pipelined_stage {b : ℕ} (hk : layout[k]? = some chunk)
    (hb : chunkHolds a.kind a.group.size a.sliceBytes chunk b) : ∃ q ops op,
      q < (rt.stageChunk a chunk.1 chunk.2).length ∧
      (rt.pipelinedItems a layout e)[rt.chunkStart a layout e k + q]? =
        some ⟨a.call, .copy, .kernel ops⟩ ∧
      op ∈ ops ∧ op.act = .copy (.input rt.rank a.call b) (.comm rt.rank b) := by
  obtain ⟨op, hop, hact⟩ := List.mem_map.mp ((mem_stageChunk_iff chunk).mpr ⟨b, hb, rfl⟩)
  obtain ⟨ops, hops, hop⟩ := List.mem_flatten.mp hop
  obtain ⟨q, hq⟩ := List.mem_iff_getElem?.mp hops
  have hlt := (List.getElem?_eq_some_iff.mp hq).1
  refine ⟨q, ops, op, hlt, getElem?_pipelinedItems hk ?_, hop, hact⟩
  have hlen : (kernelItems a .copy (rt.stageChunk a chunk.1 chunk.2)).length =
      (rt.stageChunk a chunk.1 chunk.2).length := List.length_map _
  unfold pipelinedChunk chunkItems
  rw [List.getElem?_append_left (by rwa [hlen]), kernelItems, List.getElem?_map, hq]
  rfl

/-- The staging of a chunk ends before its event, which the main stream waits for. -/
theorem leads_pipelined_stage {q : ℕ} {it : Item} (hk : layout[k]? = some chunk)
    (hq : q < (rt.stageChunk a chunk.1 chunk.2).length)
    (hm : (rt.pipelinedItems a layout e)[rt.chunkStart a layout e k + q]? = some it)
    (hcopy : it.stream = .copy) (hops : it.cmd.ops ≠ []) :
    Leads (rt.pipelinedItems a layout e) (rt.chunkStart a layout e k + q)
      (rt.chunkStart a layout e k + ((rt.stageChunk a chunk.1 chunk.2).length + 1)) := by
  have hrecord := @getElem?_pipelined_tail rt a e layout chunk k _ 0 hk rfl
  have hwait := @getElem?_pipelined_tail rt a e layout chunk k _ 1 hk rfl
  have hstream : Leads (rt.pipelinedItems a layout e) (rt.chunkStart a layout e k + q)
      (rt.chunkStart a layout e k + ((rt.stageChunk a chunk.1 chunk.2).length + 0)) :=
    .of_stream (by omega) hm hrecord hcopy hops
  exact hstream.trans (Leads.of_event (by omega) hrecord hwait rfl rfl rfl)

/-- The copy stream is forked off the main stream. -/
theorem leads_pipelined_fork {it : Item} (hge : 2 ≤ m)
    (hm : (rt.pipelinedItems a layout e)[m]? = some it) (hcopy : it.stream = .copy) :
    Leads (rt.pipelinedItems a layout e) 0 m := by
  have hrecord : (rt.pipelinedItems a layout e)[0]? = some ⟨a.call, .main, .record 0⟩ := rfl
  have hwait : (rt.pipelinedItems a layout e)[1]? = some ⟨a.call, .copy, .wait 0⟩ := rfl
  have hevent : Leads (rt.pipelinedItems a layout e) 0 1 :=
    .of_event Nat.one_pos hrecord hwait rfl rfl rfl
  exact hevent.trans (Leads.of_stream hge hwait hm hcopy.symm (List.cons_ne_nil _ _))

/-- The pull of a chunk reads what the members stage of the chunk. -/
theorem chunkPairs_holds (hmem : Member rt a.row)
    (hindex : a.selfLocalIndex = a.row.idxOf rt.rank) (hx : x ∈ rt.chunkPairs a chunk) :
    x.1 < a.row.length ∧ chunkHolds a.kind a.row.length a.sliceBytes chunk
      (a.kind.srcOffset a.selfLocalIndex a.sliceBytes + x.2) := by
  have hself := selfLocalIndex_lt hmem hindex
  obtain ⟨⟨i, d⟩, hid, rfl⟩ := List.mem_map.mp hx
  obtain ⟨hi, hd⟩ := ((takesAll_chunkPairs (by omega) chunk).mem_iff i d).mp hid
  refine ⟨hi, ?_⟩
  cases a.kind with
  | allGather => exact ⟨d, hd, Nat.zero_add _⟩
  | all2All => exact ⟨a.selfLocalIndex, hself, d, hd, (Nat.add_assoc ..).symm⟩

/-- A pull comes after the barrier of its chunk. -/
theorem afterToken_pipelined (hmem : Member rt a.row) (hk : layout[k]? = some chunk) :
    AfterToken (rt.pipelinedItems a layout e) (rt.token a.group.groupId (e + k))
      (rt.chunkStart a layout e k + ((rt.stageChunk a chunk.1 chunk.2).length + 3)) :=
  .of_stream (by omega) (@getElem?_pipelined_tail rt a e layout chunk k _ 2 hk rfl) rfl hmem.mem
    (@getElem?_pipelined_tail rt a e layout chunk k _ 3 hk rfl) rfl

/-- The staging of a chunk comes before the barrier of the chunk. -/
theorem beforeToken_pipelined {q : ℕ} {it : Item} (hk : layout[k]? = some chunk)
    (hq : q < (rt.stageChunk a chunk.1 chunk.2).length)
    (hm : (rt.pipelinedItems a layout e)[rt.chunkStart a layout e k + q]? = some it)
    (hcopy : it.stream = .copy) (hops : it.cmd.ops ≠ []) :
    BeforeToken (rt.pipelinedItems a layout e) (rt.chunkStart a layout e k + q)
      (rt.token a.group.groupId (e + k)) := by
  have hwait := @getElem?_pipelined_tail rt a e layout chunk k _ 1 hk rfl
  have hbarrier := @getElem?_pipelined_tail rt a e layout chunk k _ 2 hk rfl
  refine ⟨_, ⟨_, _, hbarrier, rfl⟩, (leads_pipelined_stage hk hq hm hcopy hops).trans ?_⟩
  exact Leads.of_stream (by omega) hwait hbarrier rfl (List.cons_ne_nil _ _)

/-- A pull comes before the last barrier. -/
theorem beforeToken_pipelined_last (hk : layout[k]? = some chunk)
    (hop : op ∈ rt.chunkPull a chunk.1 chunk.2) :
    BeforeToken (rt.pipelinedItems a layout e)
      (rt.chunkStart a layout e k + ((rt.stageChunk a chunk.1 chunk.2).length + 3))
      (rt.token a.group.groupId (e + layout.length)) := by
  have hpull := @getElem?_pipelined_tail rt a e layout chunk k _ 3 hk rfl
  have hlt := (List.getElem?_eq_some_iff.mp hpull).1
  have hne : rt.chunkStart a layout e k + ((rt.stageChunk a chunk.1 chunk.2).length + 3) ≠
      2 + (layout.zipIdx.flatMap (rt.pipelinedChunk a e)).length := by
    intro heq
    rw [heq, getElem?_pipelinedItems_last] at hpull
    cases hpull
  rw [pipelinedItems_eq, List.length_append, List.length_append] at hlt
  simp only [List.length_cons, List.length_nil] at hlt
  exact .of_stream (by omega) getElem?_pipelinedItems_last rfl hpull (ops_kernel_ne_nil hop) rfl

/-- The barriers of the pipelined path are on the main stream. -/
theorem barrier_main_pipelined {it : Item} {row : List ℕ} {tok : ℕ}
    (hit : it ∈ rt.pipelinedItems a layout e) (hcmd : it.cmd = .barrier row tok) :
    it.stream = .main ∧ row = a.row := by
  obtain ⟨m, hm⟩ := List.mem_iff_getElem?.mp hit
  rcases pipelinedItems_cases hm with ⟨-, rfl⟩ | ⟨-, rfl⟩ | ⟨k, chunk, q, -, hq, -⟩ | ⟨-, rfl⟩
  · cases hcmd
  · cases hcmd
  · rcases pipelinedChunk_cases hq with ⟨-, ops, -, rfl⟩ | ⟨q', -, hq'⟩
    · cases hcmd
    · match q' with
      | 0 | 1 | 3 =>
        cases hq'
        cases hcmd
      | 2 =>
        cases hq'
        cases hcmd
        exact ⟨rfl, rfl⟩
  · cases hcmd
    exact ⟨rfl, rfl⟩

/-- A staging is forked off the main stream by the record in front of all chunks. -/
theorem forked_pipelined (h : HasOp (rt.pipelinedItems a layout e) m op) :
    OnMain (rt.pipelinedItems a layout e) m ∨ ∃ i, OnMain (rt.pipelinedItems a layout e) i ∧
      Leads (rt.pipelinedItems a layout e) i m := by
  obtain ⟨k, chunk, hk, ⟨q, b, it, rfl, -, hm, hcopy, -⟩ | ⟨rfl, hop, -⟩⟩ :=
    hasOp_pipelined_cases h
  · exact Or.inr ⟨0, ⟨_, rfl, rfl, List.cons_ne_nil _ _⟩, leads_pipelined_fork
      (by unfold chunkStart; omega) hm hcopy⟩
  · exact Or.inl ⟨_, getElem?_pipelined_tail hk rfl, rfl, ops_kernel_ne_nil hop⟩

/-- It is joined again by the wait of its chunk. -/
theorem joined_pipelined (h : HasOp (rt.pipelinedItems a layout e) m op) :
    OnMain (rt.pipelinedItems a layout e) m ∨ ∃ i, OnMain (rt.pipelinedItems a layout e) i ∧
      Leads (rt.pipelinedItems a layout e) m i := by
  obtain ⟨k, chunk, hk, ⟨q, b, it, rfl, hq, hm, hcopy, hops, -⟩ | ⟨rfl, hop, -⟩⟩ :=
    hasOp_pipelined_cases h
  · exact Or.inr ⟨_, ⟨_, @getElem?_pipelined_tail rt a e _ chunk k _ 1 hk rfl, rfl,
      List.cons_ne_nil _ _⟩, leads_pipelined_stage hk hq hm hcopy hops⟩
  · exact Or.inl ⟨_, getElem?_pipelined_tail hk rfl, rfl, ops_kernel_ne_nil hop⟩

/-- An operation of the pipelined path stages a byte of the own buffer, or pulls a byte that
its chunk holds behind the barrier of the chunk. -/
theorem pipelined_act_cases (hmem : Member rt a.row)
    (hindex : a.selfLocalIndex = a.row.idxOf rt.rank)
    (h : HasOp (rt.pipelinedItems a layout e) m op) :
    (∃ b, op.act = .copy (.input rt.rank a.call b) (.comm rt.rank b)) ∨
      ∃ k chunk q b y, layout[k]? = some chunk ∧ q ∈ a.row ∧
        chunkHolds a.kind a.row.length a.sliceBytes chunk b ∧
        op.act = .copy (.comm q b) (.output rt.rank a.call y) ∧
        AfterToken (rt.pipelinedItems a layout e) (rt.token a.group.groupId (e + k)) m ∧
        BeforeToken (rt.pipelinedItems a layout e) m
          (rt.token a.group.groupId (e + layout.length)) := by
  obtain ⟨k, chunk, hk, ⟨_, b, _, -, -, -, -, -, -, hact⟩ | ⟨rfl, hop, x, hx, hact⟩⟩ :=
    hasOp_pipelined_cases h
  · exact Or.inl ⟨b, hact⟩
  · obtain ⟨hi, hholds⟩ := chunkPairs_holds hmem hindex hx
    obtain ⟨q, hq, hpull⟩ := @exists_pullCopy_eq rt a x hi
    exact Or.inr ⟨k, chunk, q, _, _, hk, List.mem_of_getElem? hq, hholds, hact.trans hpull,
      afterToken_pipelined hmem hk, beforeToken_pipelined_last hk hop⟩

/-- **The pipelined path**: what a pull reads was staged before the barrier of its chunk. -/
theorem plain_pipelined {chunks : ℕ} (hmem : Member rt a.row) (hrow : a.row = a.group.ranks)
    (hindex : a.selfLocalIndex = a.row.idxOf rt.rank) :
    Plain rt.config rt.sessionNonce rt.rank a.call
      ((Job.collective current a (.pipelined chunks)).operation e)
      (rt.pathItems a e (.pipelined chunks)) := by
  have hsize : a.group.size = a.row.length := by rw [a.group.size_eq, hrow]
  have htokens : barrierTokens (rt.pathItems a e (.pipelined chunks)) =
      ((Job.collective current a (.pipelined chunks)).operation e).tokens rt.sessionNonce
        rt.config.alignment := barrierTokens_pathItems _
  have hoffset : ∀ f < (layoutChunks a.sliceBytes chunks rt.config.alignment).length + 1,
      rt.token a.group.groupId (e + f) ∈ ((Job.collective current a (.pipelined chunks)).operation
        e).tokens rt.sessionNonce rt.config.alignment :=
    fun f hf => List.mem_map.mpr ⟨f, List.mem_range.mpr hf, rfl⟩
  refine ⟨⟨hmem.mem, fun it hit row tok => barrier_main_pipelined hit, htokens,
    fun m op => forked_pipelined, fun m op => joined_pipelined, fun m op h src dst hact => ?_,
    fun m op h q hq htouch => ?_⟩, fun m op h q x dst hact => ?_, ?_, fun m op h => ?_⟩
  · rcases pipelined_act_cases hmem hindex h with
      ⟨b, hact'⟩ | ⟨k, chunk, q, b, y, -, hq, -, hact', -⟩
    · rw [hact] at hact'
      cases hact'
      exact .stage rfl
    · rw [hact] at hact'
      cases hact'
      exact .pull hq
  · rcases pipelined_act_cases hmem hindex h with
      ⟨b, hact⟩ | ⟨k, chunk, q', b, y, hk, -, -, -, hafter, hbefore⟩
    · obtain ⟨src, dst, x, heq, hx | hx⟩ := htouch
      · rw [hact] at heq
        cases heq
        cases hx
      · rw [hact] at heq
        cases heq
        cases hx
        exact absurd rfl hq
    · have hlt := (List.getElem?_eq_some_iff.mp hk).1
      exact ⟨⟨_, hoffset k (by omega), hafter⟩, _, hoffset _ (Nat.lt_succ_self _), hbefore⟩
  · rcases pipelined_act_cases hmem hindex h with
      ⟨b, hact'⟩ | ⟨k, chunk, q', b, y, hk, hq', hholds, hact', hafter, -⟩
    · rw [hact] at hact'
      cases hact'
    · have hlt := (List.getElem?_eq_some_iff.mp hk).1
      rw [hact] at hact'
      cases hact'
      exact ⟨k, List.mem_range.mpr (by omega), q, hq', ⟨rfl, chunk, hk, hholds⟩, hafter⟩
  · rintro k q x ⟨rfl, chunk, hk, hholds⟩
    obtain ⟨q, ops, op, hq, hm, hop, hact⟩ := @exists_pipelined_stage rt a e _ chunk k x hk
      (by rwa [hsize])
    exact ⟨_, op, _, ⟨_, ops, hm, rfl, hop⟩, hact,
      beforeToken_pipelined hk hq hm rfl (ops_kernel_ne_nil hop)⟩
  · rcases pipelined_act_cases hmem hindex h with ⟨b, hact⟩ | ⟨k, chunk, q, b, y, -, -, -, hact, -⟩
    · exact ⟨_, _, hact⟩
    · exact ⟨_, _, hact⟩

end Pipelined

/-! ## p2p transfers -/

section P2p

variable {call n : ℕ} {a : P2pArgs} {gid : ℤ} {ks : List (List (Op DataAct))} {op : Op DataAct}

/-- What the copy between the barriers of a transfer does. -/
theorem p2p_copy_cases (hks : rt.P2pLaunch call a n ks) (hop : op ∈ ks.flatten) :
    ∃ b < n, (a.protocol = .put ∧ a.role = .sender ∧
        op.act = .copy (.comm rt.rank b) (.comm a.dstRank.toNat b)) ∨
      a.protocol = .get ∧ a.role = .receiver ∧
        op.act = .copy (.comm a.srcRank.toNat b) (.output rt.rank call b) := by
  have hmem : op.act ∈ rt.p2pCopies call a n := by
    rw [← hks.acts_eq]
    exact ⟨op, hop, rfl⟩
  rcases a with ⟨srcRank, dstRank, tensor, role, protocol, nbytes⟩
  cases protocol <;> cases role
  · obtain ⟨b, hb, hact⟩ := hmem
    exact ⟨b, hb, Or.inl ⟨rfl, rfl, hact⟩⟩
  · exact absurd hmem (Set.notMem_empty _)
  · exact absurd hmem (Set.notMem_empty _)
  · obtain ⟨b, hb, hact⟩ := hmem
    exact ⟨b, hb, Or.inr ⟨rfl, rfl, hact⟩⟩

/-- The sender of a `put` stores every byte in the receiver's buffer. -/
theorem exists_put {b : ℕ} (hks : rt.P2pLaunch call a n ks) (hput : a.protocol = .put)
    (hrole : a.role = .sender) (hb : b < n) : ∃ op ∈ ks.flatten,
      op.act = .copy (.comm rt.rank b) (.comm a.dstRank.toNat b) := by
  have hmem : DataAct.copy (.comm rt.rank b) (.comm a.dstRank.toNat b) ∈ acts ks.flatten := by
    rw [hks.acts_eq]
    unfold p2pCopies
    rw [hput, hrole]
    exact ⟨b, hb, rfl⟩
  exact hmem

theorem mem_copyOps_iff {src dst : ℕ → Cell} {d : DataAct} :
    d ∈ (copyOps src dst n).map Op.act ↔ ∃ b < n, d = .copy (src b) (dst b) := by
  rw [mem_map_act_iff, acts_copyOps]
  rfl

/-- A p2p call enqueues a sandwich. -/
theorem p2p_items_eq : (Job.p2p call current a n gid ks).items rt e =
    sandwich (ingestItems call current) call [a.srcRank.toNat, a.dstRank.toNat]
      (rt.token gid (e + 0)) (rt.token gid (e + 1))
      (if a.role = .sender then [rt.p2pStage call n] else []) ks
      (if a.protocol = .put ∧ a.role = .receiver then [rt.p2pCopyOut call n] else []) := by
  simp only [Job.items, p2pPrefix, p2pSuffix, sandwich, mains]
  split <;> split <;> simp

/-- What the staging of a p2p call does. -/
theorem p2p_stage_cases
    (hop : op ∈ (if a.role = .sender then [rt.p2pStage call n] else []).flatten) :
    a.role = .sender ∧ ∃ b < n, op.act = .copy (.input rt.rank call b) (.comm rt.rank b) := by
  split at hop
  case isTrue hrole =>
    rw [List.flatten_singleton] at hop
    exact ⟨hrole, mem_copyOps_iff.mp (List.mem_map_of_mem hop)⟩
  case isFalse => simp at hop

/-- What the copy-out of a p2p call does. -/
theorem p2p_out_cases (hop : op ∈ (if a.protocol = .put ∧ a.role = .receiver then
      [rt.p2pCopyOut call n] else []).flatten) :
    a.protocol = .put ∧ a.role = .receiver ∧
      ∃ b < n, op.act = .copy (.comm rt.rank b) (.output rt.rank call b) := by
  split at hop
  case isTrue h =>
    rw [List.flatten_singleton] at hop
    exact ⟨h.1, h.2, mem_copyOps_iff.mp (List.mem_map_of_mem hop)⟩
  case isFalse => simp at hop

variable (hmem : Member rt [a.srcRank.toNat, a.dstRank.toNat])
  (hsender : a.role = .sender → rt.rank = a.srcRank.toNat)
  (hreceiver : a.role = .receiver → rt.rank = a.dstRank.toNat)
include hmem hsender hreceiver

theorem role_eq_sender_iff : a.role = .sender ↔ rt.rank = a.srcRank.toNat := by
  refine ⟨hsender, fun h => ?_⟩
  cases hrole : a.role with
  | sender => rfl
  | receiver =>
    have hne : a.srcRank.toNat ≠ a.dstRank.toNat := by simpa using hmem.nodup
    exact absurd (h.symm.trans (hreceiver hrole)) hne

omit hreceiver in
/-- The copies of a p2p call have the forms of its operation. -/
theorem p2p_copy_form (hks : rt.P2pLaunch call a n ks)
    (hop : op ∈ (if a.role = .sender then [rt.p2pStage call n] else []).flatten ∨
      op ∈ ks.flatten ∨ op ∈ (if a.protocol = .put ∧ a.role = .receiver then
        [rt.p2pCopyOut call n] else []).flatten) :
    ∃ src dst, op.act = .copy src dst ∧
      CopyForm ((Job.p2p call current a n gid ks).operation e) rt.rank call src dst := by
  have hne : a.srcRank.toNat ≠ a.dstRank.toNat := by simpa using hmem.nodup
  have horigin : (Work.p2p a.protocol a.srcRank.toNat a.dstRank.toNat n).origin a.srcRank.toNat =
      a.srcRank.toNat := by
    cases a.protocol <;> rfl
  rcases hop with hop | hop | hop
  · obtain ⟨hrole, b, -, hact⟩ := p2p_stage_cases hop
    refine ⟨_, _, hact, .stage ?_⟩
    rw [hsender hrole]
    exact horigin
  · obtain ⟨b, -, ⟨hput, hrole, hact⟩ | ⟨-, -, hact⟩⟩ := p2p_copy_cases hks hop
    · refine ⟨_, _, hact, .put ?_ ?_ ?_ ?_⟩
      · exact List.mem_cons_of_mem _ List.mem_cons_self
      · rw [hsender hrole]
        exact hne.symm
      · rw [hsender hrole]
        exact horigin
      · show (Work.p2p a.protocol a.srcRank.toNat a.dstRank.toNat n).origin _ = _
        rw [hput, hsender hrole]
        rfl
    · exact ⟨_, _, hact, .pull List.mem_cons_self⟩
  · obtain ⟨-, -, b, -, hact⟩ := p2p_out_cases hop
    exact ⟨_, _, hact, .pull hmem.mem⟩

omit hmem hsender hreceiver in
/-- The staging and the copy-out touch the own buffer only. -/
theorem p2p_own_buffer {q : ℕ}
    (hop : op ∈ (if a.role = .sender then [rt.p2pStage call n] else []).flatten ∨
      op ∈ (if a.protocol = .put ∧ a.role = .receiver then [rt.p2pCopyOut call n]
        else []).flatten) (hq : q ≠ rt.rank) : ¬ Touches q op.act := by
  rintro ⟨src, dst, x, hact', h⟩
  rcases hop with hop | hop
  · obtain ⟨-, b, -, hact⟩ := p2p_stage_cases hop
    rw [hact] at hact'
    cases hact'
    rcases h with h | h <;> cases h
    exact hq rfl
  · obtain ⟨-, -, b, -, hact⟩ := p2p_out_cases hop
    rw [hact] at hact'
    cases hact'
    rcases h with h | h <;> cases h
    exact hq rfl

omit hmem hreceiver in
/-- The copy between the barriers reads what the sender has announced by the first barrier. -/
theorem p2p_copy_announced {q x : ℕ} {dst : Cell} (hks : rt.P2pLaunch call a n ks)
    (hop : op ∈ ks.flatten) (hact : op.act = .copy (.comm q x) dst) :
    (Work.p2p a.protocol a.srcRank.toNat a.dstRank.toNat n).Announces rt.config.alignment 2 0 q x
      a.srcRank.toNat := by
  obtain ⟨b, hb, ⟨hput, hrole, hact'⟩ | ⟨hget, -, hact'⟩⟩ := p2p_copy_cases hks hop
  · rw [hact] at hact'
    cases hact'
    rw [hput]
    exact ⟨rfl, hb, Or.inl ⟨rfl, hsender hrole⟩⟩
  · rw [hact] at hact'
    cases hact'
    rw [hget]
    exact ⟨rfl, rfl, rfl, hb⟩

omit hmem hsender hreceiver in
/-- Only the sender announces something: its own buffer by the first barrier, and the
receiver's by the second barrier of a `put`. -/
theorem p2p_announces_cases {k q x w : ℕ}
    (h : (Work.p2p a.protocol a.srcRank.toNat a.dstRank.toNat n).Announces rt.config.alignment 2
      k q x w) :
    w = a.srcRank.toNat ∧ x < n ∧ (k = 0 ∧ q = a.srcRank.toNat ∨
      a.protocol = .put ∧ k = 1 ∧ q = a.dstRank.toNat) := by
  cases hp : a.protocol with
  | put =>
    rw [hp] at h
    obtain ⟨hw, hx, h | h⟩ := h
    · exact ⟨hw, hx, Or.inl h⟩
    · exact ⟨hw, hx, Or.inr ⟨rfl, h⟩⟩
  | get =>
    rw [hp] at h
    obtain ⟨hk, hq, hw, hx⟩ := h
    exact ⟨hw, hx, Or.inl ⟨hk, hq⟩⟩

theorem plain_p2p (hks : rt.P2pLaunch call a n ks) :
    Plain rt.config rt.sessionNonce rt.rank call
      ((Job.p2p call current a n gid ks).operation e)
      ((Job.p2p call current a n gid ks).items rt e) := by
  rw [p2p_items_eq]
  refine Sandwich.plain (plainly_ingestItems _ _) hmem.mem rfl rfl
    (fun op hop => p2p_copy_form hmem hsender hks hop)
    (fun op hop q hq => p2p_own_buffer hop hq) ?_ ?_ ?_ ?_
  · intro op hop q x dst hact'
    obtain ⟨-, b, -, hact⟩ := p2p_stage_cases hop
    rw [hact] at hact'
    cases hact'
  · intro op hop q x dst hact
    exact ⟨a.srcRank.toNat, List.mem_cons_self, p2p_copy_announced hsender hks hop hact⟩
  · intro op hop q x dst hact'
    obtain ⟨hput, hrole, b, hb, hact⟩ := p2p_out_cases hop
    rw [hact] at hact'
    cases hact'
    refine ⟨a.srcRank.toNat, List.mem_cons_self, ?_⟩
    show (Work.p2p a.protocol a.srcRank.toNat a.dstRank.toNat n).Announces _ _ _ _ _ _
    rw [hput]
    exact ⟨rfl, hb, Or.inr ⟨rfl, hreceiver hrole⟩⟩
  · intro k q x hann
    obtain ⟨hw, hx, h⟩ := p2p_announces_cases hann
    have hrole := (role_eq_sender_iff hmem hsender hreceiver).mpr hw
    rcases h with ⟨rfl, rfl⟩ | ⟨hput, rfl, rfl⟩
    · obtain ⟨op, hop, hact⟩ := List.mem_map.mp (mem_copyOps_iff.mpr ⟨x, hx, rfl⟩ :
        DataAct.copy (.input rt.rank call x) (.comm rt.rank x) ∈ (rt.p2pStage call n).map Op.act)
      refine Or.inl ⟨rfl, op, ?_, _, by rw [hact, hw]⟩
      rw [if_pos hrole, List.flatten_singleton]
      exact hop
    · obtain ⟨op, hop, hact⟩ := exists_put hks hput hrole hx
      exact Or.inr ⟨rfl, op, hop, _, hact⟩

omit hreceiver in
/-- **What the receiver's part stores to the output**: the bytes of the sender, which a `get`
takes from the sender's buffer and a `put` from the own one. -/
theorem transfers_p2p (hks : rt.P2pLaunch call a n ks) (hrank : rt.rank = a.dstRank.toNat) :
    Transfers rt.rank call a.srcRank.toNat n ((Job.p2p call current a n gid ks).operation e)
      ((Job.p2p call current a n gid ks).items rt e) := by
  have hne : a.srcRank.toNat ≠ a.dstRank.toNat := by simpa using hmem.nodup
  have hrole : a.role = .receiver := by
    cases hr : a.role with
    | receiver => rfl
    | sender => exact absurd ((hsender hr).symm.trans hrank) hne
  rw [p2p_items_eq]
  constructor
  · intro m op hop src y hact'
    obtain ⟨-, ⟨hop, -⟩ | ⟨hop, -⟩ | ⟨hop, -⟩⟩ := Sandwich.hasOp_cases (plainly_ingestItems _ _) hop
    · obtain ⟨-, b, -, hact⟩ := p2p_stage_cases hop
      rw [hact] at hact'
      cases hact'
    · obtain ⟨b, hb, ⟨-, -, hact⟩ | ⟨hget, -, hact⟩⟩ := p2p_copy_cases hks hop
      · rw [hact] at hact'
        cases hact'
      · rw [hact] at hact'
        cases hact'
        refine ⟨hb, _, rfl, ?_⟩
        show (Work.p2p a.protocol _ _ n).origin a.srcRank.toNat = _
        rw [hget]
        rfl
    · obtain ⟨hput, -, b, hb, hact⟩ := p2p_out_cases hop
      rw [hact] at hact'
      cases hact'
      refine ⟨hb, _, rfl, ?_⟩
      show (Work.p2p a.protocol _ _ n).origin rt.rank = _
      rw [hput]
      rfl
  · intro b hb
    cases hp : a.protocol with
    | get =>
      have hcopy : DataAct.copy (.comm a.srcRank.toNat b) (.output rt.rank call b) ∈
          acts ks.flatten := by
        rw [hks.acts_eq]
        unfold p2pCopies
        rw [hp, hrole]
        exact ⟨b, hb, rfl⟩
      obtain ⟨op, hop, hact⟩ := hcopy
      obtain ⟨m, -, -, hmid⟩ := Sandwich.exists_hasOp_middle hop
      exact ⟨m, op, _, hmid, hact⟩
    | put =>
      obtain ⟨op, hop, hact⟩ := List.mem_map.mp (mem_copyOps_iff.mpr ⟨b, hb, rfl⟩ :
        DataAct.copy (.comm rt.rank b) (.output rt.rank call b) ∈
          (rt.p2pCopyOut call n).map Op.act)
      have hmem : op ∈ [rt.p2pCopyOut call n].flatten := by rwa [List.flatten_singleton]
      obtain ⟨m, hend⟩ := Sandwich.exists_hasOp_end hmem
      have hout : (if Protocol.put = .put ∧ a.role = .receiver then [rt.p2pCopyOut call n]
          else []) =
          [rt.p2pCopyOut call n] := if_pos ⟨rfl, hrole⟩
      rw [hout]
      exact ⟨m, op, _, hend, hact⟩

end P2p

/-! ## Bare barriers and the fused path -/

theorem plain_barrier {call : ℕ} {gid : ℤ} {ranks : List ℕ} (hmem : Member rt ranks) :
    Plain rt.config rt.sessionNonce rt.rank call ((Job.barrier call gid ranks).operation e)
      ((Job.barrier call gid ranks).items rt e) := by
  -- there is no kernel
  have hnone : ∀ m op, ¬ HasOp ((Job.barrier call gid ranks).items rt e) m op := by
    rintro m op ⟨it, ops, hm, hit, -⟩
    rw [List.mem_singleton.mp (List.mem_of_getElem? hm)] at hit
    cases hit
  refine ⟨⟨hmem.mem, fun it hit row tok hcmd => ?_, rfl, fun m op h => absurd h (hnone m op),
    fun m op h => absurd h (hnone m op), fun m op h => absurd h (hnone m op),
    fun m op h => absurd h (hnone m op)⟩, fun m op h => absurd h (hnone m op),
    fun k q x hann => absurd hann id, fun m op h => absurd h (hnone m op)⟩
  rw [List.mem_singleton.mp hit] at hcmd ⊢
  cases hcmd
  exact ⟨rfl, rfl⟩

/-- The operation of a call on the fused path. -/
def fusedWork (a : CollectiveArgs) (numChannels chunkBytes : ℤ) (current : StreamId) (e : ℕ) :
    FusedWork ((Job.collective current a (.fused numChannels chunkBytes)).operation e) :=
  ⟨a.kind, a.sliceBytes, numChannels, chunkBytes, rfl⟩

theorem fusedPart {numChannels chunkBytes : ℤ} (hmem : Member rt a.row)
    (hindex : a.selfLocalIndex = a.row.idxOf rt.rank)
    (hready : rt.Ready a.sliceBytes a.output.dataPtr (.fused numChannels chunkBytes))
    (hslice : 0 < a.sliceBytes) :
    FusedPart rt.config rt.sessionNonce rt.worldSize (fusedWork a numChannels chunkBytes current e)
      rt.rank a.call ((Job.collective current a (.fused numChannels chunkBytes)).items rt e) := by
  obtain ⟨hchannels, hchunk, -, -, hbound⟩ := hready
  have hrow : 0 < a.row.length := List.length_pos_of_mem hmem.mem
  have hchecked : (rt.fusedArgs a numChannels chunkBytes
      (rt.token a.group.groupId (e + 1))).Checked :=
    ⟨Int.natCast_pos.mpr hslice, hrow, hchannels, hchunk, hbound⟩
  have hvalid := hchecked.valid rt.config.alignment_pow
  have hargs : (rt.fusedArgs a numChannels chunkBytes
      (rt.token a.group.groupId (e + 1))).kernelArgs =
        (fusedWork a numChannels chunkBytes current e).args rt.config rt.sessionNonce rt.worldSize
          rt.rank a.call (pickVecBytes a.input.dataPtr a.output.dataPtr a.sliceBytes) := by
    unfold FusedLaunchArgs.kernelArgs fusedArgs
    dsimp only
    rw [hindex]
    rfl
  have hgeometry : ((fusedWork a numChannels chunkBytes current e).geometry rt.config
      rt.sessionNonce rt.worldSize).Valid :=
    ⟨hvalid.partitionBytes_pos, hvalid.chunkBytes_pos, hvalid.blockElts_pos, Nat.one_pos,
      hvalid.sliceBytes_le, hvalid.numChunks_le⟩
  have hv : 0 < pickVecBytes a.input.dataPtr a.output.dataPtr (a.sliceBytes : ℤ) :=
    (isVecWidth_vecWidthBytes _).pos
  have hitems : (Job.collective current a (.fused numChannels chunkBytes)).items rt e =
      sandwich (ingestItems a.call current) a.call a.row (rt.token a.group.groupId (e + 0))
        (rt.token a.group.groupId (e + 2)) []
        [((fusedWork a numChannels chunkBytes current e).args rt.config rt.sessionNonce
          rt.worldSize rt.rank a.call
          (pickVecBytes a.input.dataPtr a.output.dataPtr a.sliceBytes)).kernel a.kind] [] := by
    rw [← hargs]
    simp [Job.items, pathItems, barrierItem, sandwich, mains, fusedKernelOps]
  rw [hitems]
  exact FusedPart.of_sandwich (plainly_ingestItems a.call current) hgeometry hv hmem.nodup hmem.mem

end Runtime

/-- **Every valid job is a part** in its operation. -/
theorem Job.Valid.isPart {rt : Runtime} {j : Job} (h : j.Valid rt) (e : ℕ) :
    IsPart rt.config rt.sessionNonce rt.worldSize (j.operation e) rt.rank j.call
      (j.items rt e) := by
  cases h with
  | barrier hmem =>
    refine ⟨Or.inl ⟨⟨fun F => nomatch F.work_eq⟩, Runtime.plain_barrier hmem⟩,
      fun kind n path hwork => ?_, fun protocol src n hwork => ?_⟩
    · cases hwork
    · cases hwork
  | @p2p call current a n gid ks hmem hsender hreceiver hks =>
    refine ⟨Or.inl ⟨⟨fun F => nomatch F.work_eq⟩, Runtime.plain_p2p hmem hsender hreceiver hks⟩,
      fun kind n path hwork => ?_, fun protocol src m hwork => ?_⟩
    · cases hwork
    · have hwork : Work.p2p a.protocol a.srcRank.toNat a.dstRank.toNat n =
          .p2p protocol src rt.rank m := hwork
      injection hwork with _ hsrc hdst hn
      rw [← hsrc, ← hn]
      exact Runtime.transfers_p2p hmem hsender hks hdst.symm
  | @collective current a path hmem hrow hindex hchecked hready hlaunch =>
    by_cases hfused : ∃ k s, path = .fused k s
    · obtain ⟨k, s, rfl⟩ := hfused
      have hpart : FusedPart rt.config rt.sessionNonce rt.worldSize
          (Runtime.fusedWork a k s current e) rt.rank a.call _ :=
        Runtime.fusedPart hmem hindex hready hlaunch
      refine ⟨Or.inr ⟨_, hpart⟩, fun kind n path hwork => ?_, fun protocol src n hwork => ?_⟩
      · cases hwork
        exact hpart.delivers
      · cases hwork
    · have hnot : ∀ k s, path ≠ .fused k s := fun k s heq => hfused ⟨k, s, heq⟩
      have hlen : 0 < a.row.length := List.length_pos_of_mem hmem.mem
      have htakes : TakesAll (rt.pathPairs a path) a.row.length a.sliceBytes := by
        refine Runtime.takesAll_pathPairs hrow hlen hready (fun copySms heq => ?_) hnot
        rw [heq] at hlaunch
        exact hlaunch.2
      have hempty : IsEmpty (FusedWork ((Job.collective current a path).operation e)) := by
        refine ⟨fun F => ?_⟩
        injection F.work_eq with _ _ hpath
        cases path with
        | fused k s => exact hnot k s rfl
        | _ => simp [DataPath.pathKind] at hpath
      refine ⟨Or.inl ⟨hempty, ?_⟩, fun kind n path' hwork => ?_, fun protocol src n hwork => ?_⟩
      · cases path with
        | oneShot eng => exact Runtime.plain_oneShot hmem hrow hindex htakes
        | fused k s => exact absurd rfl (hnot k s)
        | pipelined chunks =>
          exact (Runtime.plain_pipelined hmem hrow hindex).behind
            (plainly_ingestItems a.call current)
      · cases hwork
        refine Runtime.delivers_of_splits ?_ htakes hindex
        show Runtime.Splits rt a _
          (itemActs (Runtime.ingestItems a.call current ++ rt.pathItems a e path))
        rw [Runtime.itemActs_append, Runtime.itemActs_ingestItems, List.nil_append]
        exact Runtime.splits_pathItems e hrow hready hnot
      · cases hwork

end GroupFreeCollectives
