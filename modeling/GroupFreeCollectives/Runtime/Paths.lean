import GroupFreeCollectives.Kernels.Exact
import GroupFreeCollectives.Runtime.StreamOrder

/-!
# What the data paths compute

The one-shot engines and the pipelined path stage the same bytes and pull the same bytes:
what a call enqueues on them `Computes` its collective, whatever the order in which its
copies execute.  The pulls of a path are those of a list of pairs (`pathPairs`) that takes
every byte of every member once.
-/

namespace GroupFreeCollectives

open Tiling

/-! ## Copies in some order -/

/-- The copy reads a communication buffer. -/
def DataAct.isPull : DataAct → Bool
  | .copy (.comm _ _) _ => true
  | _ => false

/-- The copy stores to the cell. -/
def DataAct.writes (c : Cell) : DataAct → Bool
  | .copy _ dst => dst = c
  | _ => false

/-- What the kernels among items do, in the order in which they are enqueued. -/
def itemActs (its : List Item) : List DataAct :=
  its.flatMap fun it =>
    match it.cmd with
    | .kernel ops => ops.map Op.act
    | _ => []

/-- Copies of a call in some order, among other things that leave its tensors alone: every
pull finds in the buffer what the owner has staged for the call. -/
inductive CopyRun {α : Type} (call : ℕ) : Memory α → List DataAct → Memory α → Prop
  | nil (m : Memory α) : CopyRun call m [] m
  | other {m m' m'' : Memory α} {l : List DataAct}
      (hinput : ∀ r b, m'.byte (.input r call b) = m.byte (.input r call b))
      (houtput : ∀ r b, m'.byte (.output r call b) = m.byte (.output r call b))
      (run : CopyRun call m' l m'') : CopyRun call m l m''
  | act {m m' : Memory α} {d : DataAct} {l : List DataAct}
      (held : ∀ q b dst, d = .copy (.comm q b) dst →
        m.byte (.comm q b) = m.byte (.input q call b))
      (run : CopyRun call (d.effect m) l m') : CopyRun call m (d :: l) m'

section CopyRun

variable {α : Type} {call r : ℕ} {m m' : Memory α} {l : List DataAct}

theorem byte_effect_of_writes_eq_false {d : DataAct} {c : Cell} (h : d.writes c = false) :
    (d.effect m).byte c = m.byte c := by
  cases d with
  | copy src dst => exact Function.update_of_ne (fun hc => of_decide_eq_false h hc.symm) _ _
  | stepPublish q cell v => rfl
  | stepAwait cells v => rfl

/-- **What copies leave in the output**, if every output byte has one source. -/
theorem CopyRun.output_eq (h : CopyRun call m l m') (r j : ℕ) (src : ℕ → ℕ × ℕ)
    (hin : ∀ d ∈ l, ∀ q b, d.writes (.input q call b) = false)
    (hsrc : ∀ c j, DataAct.copy c (.output r call j) ∈ l → c = .comm (src j).1 (src j).2)
    (hj : m.byte (.output r call j) = m.byte (.input (src j).1 call (src j).2) ∨
      ∃ c, DataAct.copy c (.output r call j) ∈ l) :
    m'.byte (.output r call j) = m'.byte (.input (src j).1 call (src j).2) ∧
      ∀ q b, m'.byte (.input q call b) = m.byte (.input q call b) := by
  induction h with
  | nil m => exact ⟨hj.resolve_right (by simp), fun q b => rfl⟩
  | other hinput houtput run ih =>
    obtain ⟨hout, hkeep⟩ := ih hin hsrc (hj.imp_left fun h => by rw [houtput, hinput, h])
    exact ⟨hout, fun q b => (hkeep q b).trans (hinput q b)⟩
  | @act m m' d l held run ih =>
    have hinput : ∀ q b, (d.effect m).byte (.input q call b) = m.byte (.input q call b) :=
      fun q b => byte_effect_of_writes_eq_false (hin d List.mem_cons_self q b)
    have hnext : (d.effect m).byte (.output r call j) =
        (d.effect m).byte (.input (src j).1 call (src j).2) ∨
          ∃ c, DataAct.copy c (.output r call j) ∈ l := by
      cases hw : d.writes (.output r call j) with
      | true =>
        -- this copy stores the byte
        obtain ⟨c, rfl⟩ : ∃ c, d = .copy c (.output r call j) := by
          cases d with
          | copy c dst => exact ⟨c, by rw [of_decide_eq_true hw]⟩
          | stepPublish q cell v => cases hw
          | stepAwait cells v => cases hw
        obtain rfl := hsrc c j List.mem_cons_self
        refine Or.inl ?_
        rw [hinput, ← held _ _ _ rfl]
        exact Function.update_self ..
      | false =>
        rcases hj with hj | ⟨c, hc⟩
        · exact Or.inl (by rw [byte_effect_of_writes_eq_false hw, hinput, hj])
        · rcases List.mem_cons.mp hc with rfl | hc
          · exact absurd hw (by simp [DataAct.writes])
          · exact Or.inr ⟨c, hc⟩
    obtain ⟨hout, hkeep⟩ := ih (fun d hd => hin d (List.mem_cons_of_mem _ hd))
      (fun c j hc => hsrc c j (List.mem_cons_of_mem _ hc)) hnext
    exact ⟨hout, fun q b => (hkeep q b).trans (hinput q b)⟩

/-- Staging copies, in any order, leave every byte where it belongs. -/
theorem byte_foldl_stage
    (hl : ∀ d ∈ l, ∃ b, d = .copy (.input r call b) (.comm r b)) {b : ℕ}
    (hb : m.byte (.comm r b) = m.byte (.input r call b) ∨
      DataAct.copy (.input r call b) (.comm r b) ∈ l) :
    (l.foldl DataAct.effect m).byte (.comm r b) = m.byte (.input r call b) := by
  induction l generalizing m with
  | nil => exact hb.resolve_right (by simp)
  | cons d l ih =>
    obtain ⟨b', rfl⟩ := hl d List.mem_cons_self
    have hinput : ((DataAct.copy (.input r call b') (.comm r b')).effect m).byte (.input r call b) =
        m.byte (.input r call b) := byte_effect_of_writes_eq_false rfl
    rw [List.foldl_cons, ← hinput]
    refine ih (fun d hd => hl d (List.mem_cons_of_mem _ hd)) ?_
    rw [hinput]
    by_cases hbb : b = b'
    · subst hbb
      exact Or.inl (Function.update_self ..)
    · rcases hb with hb | hb
      · refine Or.inl ((byte_effect_of_writes_eq_false ?_).trans hb)
        simpa [DataAct.writes] using Ne.symm hbb
      · rcases List.mem_cons.mp hb with heq | hb
        · cases heq
          exact absurd rfl hbb
        · exact Or.inr hb

end CopyRun

namespace Runtime

variable {rt : Runtime}

/-! ## The pulls of a path -/

section Pairs

variable {a : CollectiveArgs}

variable (rt) in
/-- The copy of a byte of the slice that the member in a lane has for this rank. -/
def pullCopy (a : CollectiveArgs) (x : ℕ × ℕ) : DataAct :=
  .copy (.comm (a.row.getD x.1 0) (a.kind.srcOffset a.selfLocalIndex a.sliceBytes + x.2))
    (.output rt.rank a.call (x.1 * a.sliceBytes + x.2))

variable (rt) in
/-- The lanes and the bytes that the pull of a chunk takes. -/
def chunkPairs (a : CollectiveArgs) (chunk : ℕ × ℕ) : List (ℕ × ℕ) :=
  ((rt.chunkPullArgs a chunk.1 chunk.2).kernelArgs chunk.2).pairs.map fun x =>
    (x.1, chunk.1 + x.2)

variable (rt) in
/-- The lanes and the bytes that a path takes. -/
def pathPairs (a : CollectiveArgs) : DataPath → List (ℕ × ℕ)
  | .oneShot .copyEngine => copyEnginePairs a.group.ranks.length a.selfLocalIndex a.sliceBytes
  | .oneShot .tma => (rt.tmaArgs a).pairs
  | .oneShot (.vec copySms) => ((rt.oneShotPullArgs a copySms).kernelArgs a.sliceBytes).pairs
  | .fused _ _ => []
  | .pipelined chunks =>
    (layoutChunks a.sliceBytes chunks rt.config.alignment).flatMap (rt.chunkPairs a)

/-- The width of a one-shot pull divides the slice. -/
theorem oneShotVec_dvd : dtypeForVec (rt.oneShotVec a) ∣ a.sliceBytes := vecFor_dvd ..

/-- The width of the pull of a chunk divides the chunk. -/
theorem chunkVec_dvd (off size : ℕ) : dtypeForVec (rt.chunkVec a off size) ∣ size := by
  unfold chunkVec
  split <;> exact vecFor_dvd ..

theorem map_act_oneShotKernels (hrow : a.row = a.group.ranks) (e : Engine) :
    (rt.oneShotKernels a e).flatten.map Op.act =
      (rt.pathPairs a (.oneShot e)).map (rt.pullCopy a) := by
  cases e with
  | copyEngine =>
    unfold oneShotKernels pathPairs
    rw [map_act_copyEngine]
    refine List.map_congr_left fun x _ => ?_
    rw [pullCopy, hrow, Nat.zero_add]
  | tma =>
    unfold oneShotKernels pathPairs
    rw [List.flatten_singleton, TmaLaunchArgs.map_act_tmaKernel]
    refine List.map_congr_left fun x _ => ?_
    show DataAct.copy (.comm _ (0 + _ + x.2)) _ = _
    rw [Nat.zero_add]
    rfl
  | vec copySms =>
    have htail : ((rt.oneShotPullArgs a copySms).kernelArgs a.sliceBytes).hasTail = false :=
      decide_eq_false (not_not.mpr (Nat.mod_eq_zero_of_dvd oneShotVec_dvd))
    unfold oneShotKernels pathPairs
    rw [List.flatten_singleton, oneShotPull, PullKernelArgs.map_act_pullKernel htail]
    refine List.map_congr_left fun x _ => ?_
    show DataAct.copy (.comm _ (0 + _ + x.2)) (.output _ _ (0 + x.1 * a.sliceBytes + x.2)) = _
    rw [Nat.zero_add, Nat.zero_add]
    rfl

theorem map_act_chunkPull (chunk : ℕ × ℕ) :
    (rt.chunkPull a chunk.1 chunk.2).map Op.act = (rt.chunkPairs a chunk).map (rt.pullCopy a) := by
  have htail : ((rt.chunkPullArgs a chunk.1 chunk.2).kernelArgs chunk.2).hasTail = false :=
    decide_eq_false (not_not.mpr (Nat.mod_eq_zero_of_dvd (chunkVec_dvd chunk.1 chunk.2)))
  rw [chunkPull, PullKernelArgs.map_act_pullKernel htail, chunkPairs, List.map_map]
  refine List.map_congr_left fun x _ => ?_
  show DataAct.copy (.comm _ (chunk.1 + _ + x.2))
    (.output _ _ (chunk.1 + x.1 * a.sliceBytes + x.2)) = _
  rw [Nat.add_comm chunk.1, Nat.add_comm chunk.1, Nat.add_assoc, Nat.add_assoc]
  rfl

theorem takesAll_chunkPairs (hrow : 0 < a.row.length) (chunk : ℕ × ℕ) :
    TakesAll ((rt.chunkPullArgs a chunk.1 chunk.2).kernelArgs chunk.2).pairs a.row.length
      chunk.2 :=
  PullKernelArgs.takesAll_pairs (dtypeForVec_pos _) (lt_max_of_lt_right Nat.one_pos)
    (PullLaunchArgs.grid_pos hrow (Int.natCast_pos.mpr rt.copySms_pos)) (chunkVec_dvd _ _)

/-- **The chunks take every byte once.** -/
theorem takesAll_chunks {layout : List (ℕ × ℕ)} {n : ℕ} (hrow : 0 < a.row.length)
    (hcont : Contiguous 0 layout n) :
    TakesAll (layout.flatMap (rt.chunkPairs a)) a.row.length n := by
  have hmem : ∀ {chunk : ℕ × ℕ} {i b : ℕ}, (i, b) ∈ rt.chunkPairs a chunk ↔
      i < a.row.length ∧ chunk.1 ≤ b ∧ b < chunk.1 + chunk.2 := by
    intro chunk i b
    unfold chunkPairs
    constructor
    · intro h
      obtain ⟨⟨i', d⟩, hx, heq⟩ := List.mem_map.mp h
      cases heq
      obtain ⟨hi, hd⟩ := ((takesAll_chunkPairs hrow chunk).mem_iff i' d).mp hx
      omega
    · rintro ⟨hi, hle, hlt⟩
      refine List.mem_map.mpr ⟨(i, b - chunk.1),
        ((takesAll_chunkPairs hrow chunk).mem_iff _ _).mpr ⟨hi, by omega⟩, ?_⟩
      show (i, chunk.1 + (b - chunk.1)) = (i, b)
      rw [Nat.add_sub_cancel' hle]
  constructor
  · refine nodup_flatMap_of_disjoint hcont.nodup (fun chunk _ => ?_) ?_
    · refine (takesAll_chunkPairs hrow chunk).nodup.map fun x y h => ?_
      obtain ⟨h1, h2⟩ := Prod.mk.inj h
      exact Prod.ext h1 (Nat.add_left_cancel h2)
    · rintro chunk hchunk chunk' hchunk' ⟨i, b⟩ hb hb'
      obtain ⟨k, hk⟩ := List.mem_iff_getElem?.mp hchunk
      obtain ⟨k', hk'⟩ := List.mem_iff_getElem?.mp hchunk'
      obtain rfl := hcont.eq_of_mem_runs hk hk' (hmem.mp hb).2 (hmem.mp hb').2
      exact Option.some_inj.mp (hk.symm.trans hk')
  · intro i b
    rw [List.mem_flatMap]
    constructor
    · rintro ⟨chunk, hchunk, h⟩
      obtain ⟨hi, -, hlt⟩ := hmem.mp h
      have := hcont.bounds hchunk
      exact ⟨hi, by omega⟩
    · rintro ⟨hi, hb⟩
      obtain ⟨k, chunk, hk, hle, hlt⟩ := hcont.exists_run (Nat.zero_le b) hb
      exact ⟨chunk, List.mem_of_getElem? hk, hmem.mpr ⟨hi, hle, hlt⟩⟩

/-- **Every path but the fused one takes every byte of every member once.** -/
theorem takesAll_pathPairs {path : DataPath} (hrow : a.row = a.group.ranks)
    (hlen : 0 < a.row.length) (hready : rt.Ready a.sliceBytes a.output.dataPtr path)
    (hsms : ∀ copySms, path = .oneShot (.vec copySms) → 0 < copySms)
    (hfused : ∀ k s, path ≠ .fused k s) :
    TakesAll (rt.pathPairs a path) a.row.length a.sliceBytes := by
  cases path with
  | oneShot e =>
    cases e with
    | copyEngine =>
      rw [hrow]
      exact takesAll_copyEngine ..
    | tma => exact TmaLaunchArgs.takesAll_pairs rt.numSms_pos (show 0 < defaultTileBytes by decide)
    | vec copySms =>
      exact PullKernelArgs.takesAll_pairs (dtypeForVec_pos _) (lt_max_of_lt_right Nat.one_pos)
        (PullLaunchArgs.grid_pos hlen (hsms copySms rfl)) oneShotVec_dvd
  | fused k s => exact absurd rfl (hfused k s)
  | pipelined chunks =>
    exact takesAll_chunks hlen
      (layoutChunks_contiguous rt.config.alignment_pow hready.1.le hready.2.2).1

end Pairs

/-! ## What a path enqueues -/

section Acts

variable {a : CollectiveArgs} {d : DataAct}

@[simp] theorem itemActs_append (its its' : List Item) :
    itemActs (its ++ its') = itemActs its ++ itemActs its' := List.flatMap_append

theorem itemActs_kernelItems (stream : StreamId) (ks : List (List (Op DataAct))) :
    itemActs (kernelItems a stream ks) = ks.flatten.map Op.act := by
  induction ks with
  | nil => rfl
  | cons ops ks ih =>
    rw [List.flatten_cons, List.map_append, ← ih]
    rfl

theorem itemActs_ingestItems (call : ℕ) (current : StreamId) :
    itemActs (ingestItems call current) = [] := by
  cases current <;> rfl

theorem itemActs_oneShot {epoch : ℕ} {e : Engine} (hrow : a.row = a.group.ranks) :
    itemActs (rt.pathItems a epoch (.oneShot e)) =
      (rt.stage a).map Op.act ++ (rt.pathPairs a (.oneShot e)).map (rt.pullCopy a) := by
  unfold pathItems oneShotPrefix
  rw [itemActs_append, itemActs_append, itemActs_kernelItems, map_act_oneShotKernels hrow]
  simp [itemActs, barrierItem]

/-- What the kernels of a chunk do. -/
theorem itemActs_pipelinedChunk {epoch : ℕ} (x : (ℕ × ℕ) × ℕ) :
    itemActs (rt.pipelinedChunk a epoch x) =
      (rt.stageChunk a x.1.1 x.1.2).flatten.map Op.act ++
        (rt.chunkPairs a x.1).map (rt.pullCopy a) := by
  unfold pipelinedChunk chunkItems
  rw [itemActs_append, itemActs_kernelItems, ← map_act_chunkPull]
  simp [itemActs, barrierItem]

theorem itemActs_pipelined {epoch chunks : ℕ} :
    itemActs (rt.pathItems a epoch (.pipelined chunks)) =
      (layoutChunks a.sliceBytes chunks rt.config.alignment).flatMap fun chunk =>
        (rt.stageChunk a chunk.1 chunk.2).flatten.map Op.act ++
          (rt.chunkPairs a chunk).map (rt.pullCopy a) := by
  have hchunks : ∀ l : List ((ℕ × ℕ) × ℕ), itemActs (l.flatMap (rt.pipelinedChunk a epoch)) =
      (l.map Prod.fst).flatMap fun chunk =>
        (rt.stageChunk a chunk.1 chunk.2).flatten.map Op.act ++
          (rt.chunkPairs a chunk).map (rt.pullCopy a) := by
    intro l
    induction l with
    | nil => rfl
    | cons x l ih =>
      rw [List.flatMap_cons, itemActs_append, ih, itemActs_pipelinedChunk, List.map_cons,
        List.flatMap_cons]
  show itemActs (rt.pipelinedItems a _ epoch) = _
  rw [pipelinedItems_eq, itemActs_append, itemActs_append, hchunks, List.zipIdx_map_fst]
  simp [itemActs, barrierItem]

/-- A copy that stages a byte of the call. -/
def IsStaging (rt : Runtime) (a : CollectiveArgs) (d : DataAct) : Prop :=
  ∃ b < a.kind.stagedBytes a.group.size a.sliceBytes,
    d = .copy (.input rt.rank a.call b) (.comm rt.rank b)

theorem mem_map_act_iff {ops : List (Op DataAct)} : d ∈ ops.map Op.act ↔ d ∈ acts ops := by
  simp [acts]

theorem mem_stage_iff : d ∈ (rt.stage a).map Op.act ↔ IsStaging rt a d := by
  rw [mem_map_act_iff, stage, acts_copyOps]
  rfl

/-- A chunk stages the bytes that it holds. -/
theorem mem_stageChunk_iff (chunk : ℕ × ℕ) :
    d ∈ (rt.stageChunk a chunk.1 chunk.2).flatten.map Op.act ↔
      ∃ b, chunkHolds a.kind a.group.size a.sliceBytes chunk b ∧
        d = .copy (.input rt.rank a.call b) (.comm rt.rank b) := by
  rw [mem_map_act_iff, mem_acts_flatten]
  rcases a with ⟨call, kind, input, output, group, row, n⟩
  unfold stageChunk chunkHolds
  dsimp only
  cases kind with
  | allGather =>
    constructor
    · rintro ⟨ops, hops, h⟩
      rw [List.mem_singleton.mp hops, acts_copyOps] at h
      obtain ⟨t, ht, rfl⟩ := h
      exact ⟨_, ⟨t, ht, rfl⟩, rfl⟩
    · rintro ⟨_, ⟨t, ht, rfl⟩, rfl⟩
      refine ⟨_, List.mem_singleton_self _, ?_⟩
      rw [acts_copyOps]
      exact ⟨t, ht, rfl⟩
  | all2All =>
    constructor
    · rintro ⟨ops, hops, h⟩
      obtain ⟨p, hp, rfl⟩ := List.mem_map.mp hops
      rw [acts_copyOps] at h
      obtain ⟨t, ht, rfl⟩ := h
      exact ⟨_, ⟨p, List.mem_range.mp hp, t, ht, rfl⟩, rfl⟩
    · rintro ⟨_, ⟨p, hp, t, ht, rfl⟩, rfl⟩
      refine ⟨_, List.mem_map.mpr ⟨p, List.mem_range.mpr hp, rfl⟩, ?_⟩
      rw [acts_copyOps]
      exact ⟨t, ht, rfl⟩

/-- The chunks hold what is staged. -/
theorem exists_chunkHolds_iff {kind : Collective} {G n b : ℕ} {layout : List (ℕ × ℕ)}
    (hcont : Contiguous 0 layout n) :
    (∃ chunk ∈ layout, chunkHolds kind G n chunk b) ↔ b < kind.stagedBytes G n := by
  cases kind with
  | allGather =>
    constructor
    · rintro ⟨chunk, hchunk, t, ht, rfl⟩
      have := hcont.bounds hchunk
      show chunk.1 + t < n
      omega
    · intro hb
      obtain ⟨k, chunk, hk, hle, hlt⟩ := hcont.exists_run (Nat.zero_le b) hb
      exact ⟨chunk, List.mem_of_getElem? hk, b - chunk.1, by omega, by omega⟩
  | all2All =>
    constructor
    · rintro ⟨chunk, hchunk, p, hp, t, ht, rfl⟩
      have := hcont.bounds hchunk
      show p * n + chunk.1 + t < n * G
      calc p * n + chunk.1 + t < (p + 1) * n := by
            rw [Nat.succ_mul]
            omega
        _ ≤ G * n := Nat.mul_le_mul_right n hp
        _ = n * G := Nat.mul_comm _ _
    · intro hb
      replace hb : b < n * G := hb
      have hn : 0 < n := Nat.pos_of_mul_pos_right (by omega : 0 < n * G)
      have hdm := Nat.div_add_mod b n
      have hcomm : n * (b / n) = b / n * n := Nat.mul_comm _ _
      obtain ⟨k, chunk, hk, hle, hlt⟩ := hcont.exists_run (Nat.zero_le _) (Nat.mod_lt b hn)
      exact ⟨chunk, List.mem_of_getElem? hk, b / n, Nat.div_lt_of_lt_mul hb, b % n - chunk.1,
        by omega, by omega⟩

/-- **The chunks stage what the one-shot path stages.** -/
theorem mem_stageChunks_iff {layout : List (ℕ × ℕ)} (hcont : Contiguous 0 layout a.sliceBytes) :
    (∃ chunk ∈ layout, d ∈ (rt.stageChunk a chunk.1 chunk.2).flatten.map Op.act) ↔
      IsStaging rt a d := by
  constructor
  · rintro ⟨chunk, hchunk, h⟩
    obtain ⟨b, hb, rfl⟩ := (mem_stageChunk_iff chunk).mp h
    exact ⟨b, (exists_chunkHolds_iff hcont).mp ⟨chunk, hchunk, hb⟩, rfl⟩
  · rintro ⟨b, hb, rfl⟩
    obtain ⟨chunk, hchunk, hb⟩ := (exists_chunkHolds_iff hcont).mpr hb
    exact ⟨chunk, hchunk, (mem_stageChunk_iff chunk).mpr ⟨b, hb, rfl⟩⟩

/-! ### Stagings and pulls -/

/-- What a path enqueues is the stagings of the call and the pulls of its pairs. -/
structure Splits (rt : Runtime) (a : CollectiveArgs) (pairs : List (ℕ × ℕ)) (D : List DataAct) :
    Prop where
  pulls : D.filter DataAct.isPull = pairs.map (rt.pullCopy a)
  staging : ∀ d ∈ D, d.isPull = false → IsStaging rt a d
  staged : ∀ d, IsStaging rt a d → d ∈ D

theorem IsStaging.isPull (h : IsStaging rt a d) : d.isPull = false := by
  obtain ⟨b, -, rfl⟩ := h
  rfl

theorem filter_isPull_of_staging {l : List DataAct} (h : ∀ d ∈ l, IsStaging rt a d) :
    l.filter DataAct.isPull = [] :=
  List.filter_eq_nil_iff.mpr fun d hd => by simp [(h d hd).isPull]

theorem filter_isPull_pulls (pairs : List (ℕ × ℕ)) :
    (pairs.map (rt.pullCopy a)).filter DataAct.isPull = pairs.map (rt.pullCopy a) := by
  refine List.filter_eq_self.mpr fun d hd => ?_
  obtain ⟨x, -, rfl⟩ := List.mem_map.mp hd
  rfl

theorem splits_oneShot {epoch : ℕ} {e : Engine} (hrow : a.row = a.group.ranks) :
    Splits rt a (rt.pathPairs a (.oneShot e)) (itemActs (rt.pathItems a epoch (.oneShot e))) := by
  rw [itemActs_oneShot hrow]
  refine ⟨?_, fun d hd hpull => ?_, fun d hd => ?_⟩
  · rw [List.filter_append, filter_isPull_of_staging fun d => mem_stage_iff.mp,
      filter_isPull_pulls, List.nil_append]
  · rcases List.mem_append.mp hd with hd | hd
    · exact mem_stage_iff.mp hd
    · obtain ⟨x, -, rfl⟩ := List.mem_map.mp hd
      cases hpull
  · exact List.mem_append_left _ (mem_stage_iff.mpr hd)

theorem splits_pipelined {epoch chunks : ℕ} (hc : 1 ≤ chunks) (hslice : 0 < a.sliceBytes) :
    Splits rt a (rt.pathPairs a (.pipelined chunks))
      (itemActs (rt.pathItems a epoch (.pipelined chunks))) := by
  have hcont := (layoutChunks_contiguous rt.config.alignment_pow hc hslice).1
  rw [itemActs_pipelined, pathPairs]
  generalize layoutChunks a.sliceBytes chunks rt.config.alignment = layout at hcont ⊢
  have hstage : ∀ chunk ∈ layout, ∀ d ∈ (rt.stageChunk a chunk.1 chunk.2).flatten.map Op.act,
      IsStaging rt a d :=
    fun chunk hchunk d hd => (mem_stageChunks_iff hcont).mp ⟨chunk, hchunk, hd⟩
  refine ⟨?_, fun d hd hpull => ?_, fun d hd => ?_⟩
  · rw [List.filter_flatMap, List.map_flatMap]
    refine List.flatMap_congr fun chunk hchunk => ?_
    rw [List.filter_append, filter_isPull_of_staging (hstage chunk hchunk), filter_isPull_pulls,
      List.nil_append]
  · obtain ⟨chunk, hchunk, hd⟩ := List.mem_flatMap.mp hd
    rcases List.mem_append.mp hd with hd | hd
    · exact hstage chunk hchunk d hd
    · obtain ⟨x, -, rfl⟩ := List.mem_map.mp hd
      cases hpull
  · obtain ⟨chunk, hchunk, hd⟩ := (mem_stageChunks_iff hcont).mpr hd
    exact List.mem_flatMap.mpr ⟨chunk, hchunk, List.mem_append_left _ hd⟩

end Acts

/-! ## Every path computes its collective -/

variable (rt) in
/-- What a rank's call of a collective with slices of `n` bytes is for, if `D` is what its
kernels do. -/
structure Computes (kind : Collective) (call : ℕ) (group : GroupDescriptor) (n : ℕ)
    (D : List DataAct) : Prop where
  /-- it stages input bytes and pulls output bytes, and does nothing else; all addresses in
  communication buffers and in the output are within bounds -/
  bounds : ∀ d ∈ D,
    (∃ b < rt.config.maxCollectiveBytes, d = .copy (.input rt.rank call b) (.comm rt.rank b)) ∨
      ∃ q ∈ group.ranks, ∃ b < rt.config.maxCollectiveBytes, ∃ j < group.size * n,
        d = .copy (.comm q b) (.output rt.rank call j)
  /-- every output byte is stored once -/
  once : ∀ j < group.size * n, D.countP (DataAct.writes (.output rt.rank call j)) = 1
  /-- its stagings leave the input in the own communication buffer -/
  staged : ∀ {α : Type} (m : Memory α) (l : List DataAct),
    l.Perm (D.filter fun d => !d.isPull) → ∀ b < kind.stagedBytes group.size n,
      (l.foldl DataAct.effect m).byte (.comm rt.rank b) = m.byte (.input rt.rank call b)
  /-- in whatever order its copies execute, the output is what the collective says -/
  output : ∀ {α : Type} (m m' : Memory α) (l : List DataAct), CopyRun call m l m' → l.Perm D →
    ∀ i q, group.ranks[i]? = some q → ∀ b < n, m'.byte (.output rt.rank call (i * n + b)) =
      m.byte (.input q call (kind.srcOffset group.localIndex.toNat n + b))

section Computes

variable {a : CollectiveArgs} {pairs : List (ℕ × ℕ)} {D : List DataAct}

theorem countP_writes_eq_one (h : TakesAll pairs a.row.length a.sliceBytes) {j : ℕ}
    (hj : j < a.row.length * a.sliceBytes) :
    (pairs.map (rt.pullCopy a)).countP (DataAct.writes (.output rt.rank a.call j)) = 1 := by
  have hn : 0 < a.sliceBytes := Nat.pos_of_mul_pos_left (by omega : 0 < a.row.length * a.sliceBytes)
  have hmem : (j / a.sliceBytes, j % a.sliceBytes) ∈ pairs :=
    (h.mem_iff _ _).mpr ⟨Nat.div_lt_of_lt_mul (by rwa [Nat.mul_comm]), Nat.mod_lt _ hn⟩
  rw [List.countP_map, ← List.count_eq_one_of_mem h.nodup hmem, List.count]
  refine List.countP_congr fun x hx => ?_
  have hb := ((h.mem_iff x.1 x.2).mp hx).2
  have hiff : x.1 * a.sliceBytes + x.2 = j ↔ x.1 = j / a.sliceBytes ∧ x.2 = j % a.sliceBytes :=
    pair_eq_iff hb
  simp only [Function.comp, DataAct.writes, pullCopy, Cell.output.injEq, true_and, hiff,
    decide_eq_true_eq, beq_iff_eq, Prod.ext_iff]

theorem Splits.exists_pull (h : Splits rt a pairs D) {d : DataAct} (hd : d ∈ D)
    (hpull : d.isPull = true) : ∃ x ∈ pairs, d = rt.pullCopy a x := by
  have hmem : d ∈ D.filter DataAct.isPull := List.mem_filter.mpr ⟨hd, hpull⟩
  rw [h.pulls] at hmem
  obtain ⟨x, hx, rfl⟩ := List.mem_map.mp hmem
  exact ⟨x, hx, rfl⟩

/-- The slice that a rank pulls is within what its owner stages. -/
theorem srcOffset_add_lt {kind : Collective} {G n li b : ℕ} (hli : li < G) (hb : b < n) :
    kind.srcOffset li n + b < kind.stagedBytes G n := by
  cases kind with
  | allGather =>
    show 0 + b < n
    omega
  | all2All =>
    show li * n + b < n * G
    calc li * n + b < (li + 1) * n := by
          rw [Nat.succ_mul]
          omega
      _ ≤ G * n := Nat.mul_le_mul_right _ hli
      _ = n * G := Nat.mul_comm _ _

theorem getElem?_row (htakes : TakesAll pairs a.row.length a.sliceBytes) {x : ℕ × ℕ}
    (hx : x ∈ pairs) : a.row[x.1]? = some (a.row.getD x.1 0) := by
  have hlt := ((htakes.mem_iff x.1 x.2).mp hx).1
  rw [List.getElem?_eq_getElem hlt, List.getD_eq_getElem _ _ hlt]

theorem Splits.bounds (h : Splits rt a pairs D)
    (htakes : TakesAll pairs a.row.length a.sliceBytes)
    (hchecked : rt.EntryChecked a.kind a.input a.output a.group a.sliceBytes)
    (hrow : a.row = a.group.ranks) {d : DataAct} (hd : d ∈ D) :
    (∃ b < rt.config.maxCollectiveBytes,
        d = .copy (.input rt.rank a.call b) (.comm rt.rank b)) ∨
      ∃ q ∈ a.group.ranks, ∃ b < rt.config.maxCollectiveBytes,
        ∃ j < a.group.size * a.sliceBytes, d = .copy (.comm q b) (.output rt.rank a.call j) := by
  cases hp : d.isPull with
  | false =>
    obtain ⟨b, hb, rfl⟩ := h.staging d hd hp
    exact Or.inl ⟨b, lt_of_lt_of_le hb hchecked.staged_le, rfl⟩
  | true =>
    obtain ⟨x, hx, rfl⟩ := h.exists_pull hd hp
    obtain ⟨hi, hb⟩ := (htakes.mem_iff x.1 x.2).mp hx
    rw [hrow, ← a.group.size_eq] at hi
    have hli : a.selfLocalIndex < a.group.size := by
      have h1 := hchecked.member
      have h2 := a.group.localIndex_lt
      unfold CollectiveArgs.selfLocalIndex
      omega
    refine Or.inr ⟨_, ?_, _, lt_of_lt_of_le (srcOffset_add_lt hli hb) hchecked.staged_le, _, ?_,
      rfl⟩
    · rw [← hrow]
      exact List.mem_of_getElem? (getElem?_row htakes hx)
    · calc x.1 * a.sliceBytes + x.2 < (x.1 + 1) * a.sliceBytes := by
            rw [Nat.succ_mul]
            omega
        _ ≤ a.group.size * a.sliceBytes := Nat.mul_le_mul_right _ hi

/-- Only pulls store to the output, and one of them stores each byte. -/
theorem Splits.countP_eq_one (h : Splits rt a pairs D)
    (htakes : TakesAll pairs a.row.length a.sliceBytes) {j : ℕ}
    (hj : j < a.row.length * a.sliceBytes) :
    D.countP (DataAct.writes (.output rt.rank a.call j)) = 1 := by
  rw [← countP_writes_eq_one htakes hj, ← h.pulls, List.countP_filter]
  refine List.countP_congr fun d hd => ?_
  cases hp : d.isPull with
  | true => simp
  | false =>
    obtain ⟨b, -, rfl⟩ := h.staging d hd hp
    simp [DataAct.writes]

theorem Splits.byte_staged (h : Splits rt a pairs D) {α : Type} {m : Memory α}
    {l : List DataAct} (hl : l.Perm (D.filter fun d => !d.isPull)) {b : ℕ}
    (hb : b < a.kind.stagedBytes a.group.size a.sliceBytes) :
    (l.foldl DataAct.effect m).byte (.comm rt.rank b) = m.byte (.input rt.rank a.call b) := by
  refine byte_foldl_stage (fun d hd => ?_) (Or.inr ?_)
  · obtain ⟨hd, hp⟩ := List.mem_filter.mp (hl.mem_iff.mp hd)
    obtain ⟨b, -, rfl⟩ := h.staging d hd (by simpa using hp)
    exact ⟨b, rfl⟩
  · exact hl.mem_iff.mpr (List.mem_filter.mpr ⟨h.staged _ ⟨b, hb, rfl⟩, rfl⟩)

theorem Splits.byte_output (h : Splits rt a pairs D)
    (htakes : TakesAll pairs a.row.length a.sliceBytes) {α : Type} {m m' : Memory α}
    {l : List DataAct} (hrun : CopyRun a.call m l m') (hl : l.Perm D) {i q b : ℕ}
    (hq : a.row[i]? = some q) (hb : b < a.sliceBytes) :
    m'.byte (.output rt.rank a.call (i * a.sliceBytes + b)) =
      m.byte (.input q a.call (a.kind.srcOffset a.selfLocalIndex a.sliceBytes + b)) := by
  obtain ⟨hi, -⟩ := List.getElem?_eq_some_iff.mp hq
  have hin : ∀ d ∈ l, ∀ q b, d.writes (.input q a.call b) = false := by
    intro d hd q b
    cases hp : d.isPull with
    | false =>
      obtain ⟨b', -, rfl⟩ := h.staging d (hl.mem_iff.mp hd) hp
      simp [DataAct.writes]
    | true =>
      obtain ⟨x, -, rfl⟩ := h.exists_pull (hl.mem_iff.mp hd) hp
      simp [DataAct.writes, pullCopy]
  have hsrc : ∀ c j, DataAct.copy c (.output rt.rank a.call j) ∈ l →
      c = .comm (a.row.getD (j / a.sliceBytes) 0)
        (a.kind.srcOffset a.selfLocalIndex a.sliceBytes + j % a.sliceBytes) := by
    intro c j hc
    have hc := hl.mem_iff.mp hc
    cases hp : (DataAct.copy c (.output rt.rank a.call j)).isPull with
    | false =>
      obtain ⟨b', -, heq⟩ := h.staging _ hc hp
      cases heq
    | true =>
      obtain ⟨x, hx, heq⟩ := h.exists_pull hc hp
      injection heq with hsrc hdst
      injection hdst with _ _ hj
      obtain ⟨h1, h2⟩ := (pair_eq_iff ((htakes.mem_iff x.1 x.2).mp hx).2).mp hj.symm
      rw [hsrc, ← h1, ← h2]
  have htaken : rt.pullCopy a (i, b) ∈ l := by
    have hmem : rt.pullCopy a (i, b) ∈ D.filter DataAct.isPull := by
      rw [h.pulls]
      exact List.mem_map.mpr ⟨_, (htakes.mem_iff i b).mpr ⟨hi, hb⟩, rfl⟩
    exact hl.mem_iff.mpr (List.mem_filter.mp hmem).1
  obtain ⟨hout, hkeep⟩ := hrun.output_eq rt.rank (i * a.sliceBytes + b)
    (fun j => (a.row.getD (j / a.sliceBytes) 0,
      a.kind.srcOffset a.selfLocalIndex a.sliceBytes + j % a.sliceBytes))
    hin hsrc (Or.inr ⟨_, htaken⟩)
  obtain ⟨h1, h2⟩ := (pair_eq_iff hb).mp (rfl : i * a.sliceBytes + b = _)
  rw [hout, hkeep, ← h1, ← h2, List.getD_eq_getElem?_getD, hq]
  rfl

/-- **A path that takes every byte of every member once computes its collective.** -/
theorem Splits.computes (h : Splits rt a pairs D)
    (htakes : TakesAll pairs a.row.length a.sliceBytes)
    (hchecked : rt.EntryChecked a.kind a.input a.output a.group a.sliceBytes)
    (hrow : a.row = a.group.ranks) :
    rt.Computes a.kind a.call a.group a.sliceBytes D where
  bounds _ := h.bounds htakes hchecked hrow
  once j hj := h.countP_eq_one htakes (by rwa [hrow, ← a.group.size_eq])
  staged _ _ hl _ := h.byte_staged hl
  output _ _ _ hrun hl i q hq b hb := h.byte_output htakes hrun hl (by rwa [hrow]) hb

end Computes

/-! ## The paths of a session's calls -/

section Paths

variable {x : Session rt} {c : DataCall} {group : GroupDescriptor} {call n : ℕ}
  {current : StreamId} {path : DataPath}

theorem splits_pathItems {a : CollectiveArgs} (epoch : ℕ) (hrow : a.row = a.group.ranks)
    (hready : rt.Ready a.sliceBytes a.output.dataPtr path)
    (hfused : ∀ k s, path ≠ .fused k s) :
    Splits rt a (rt.pathPairs a path) (itemActs (rt.pathItems a epoch path)) := by
  cases path with
  | oneShot e => exact splits_oneShot hrow
  | fused k s => exact absurd rfl (hfused k s)
  | pipelined chunks => exact splits_pipelined hready.1.le hready.2.2

/-- **All data paths but the fused one compute the same**: whichever is decided on, a call
that has passed the entry checks returns, and what it has enqueued computes its collective. -/
theorem nonfused_paths_compute (hg : group ∈ x.state.registry.descs)
    (hheld : x.state.registry.Holds group) (hentry : c.entry rt group = .ok n) (hn : 0 < n)
    (hplan : rt.plan (rt.policyFor c.kind group n)
      (rt.effectivePipelineChunks n c.pipelineChunks) n c.output.dataPtr = .ok path)
    (hsms : ∀ copySms, path = .oneShot (.vec copySms) → 0 < copySms)
    (hfused : ∀ k s, path ≠ .fused k s) :
    (x.run (.collective call current group (.data c))).1 = .ok none ∧
      rt.Computes c.kind call group n
        (itemActs (x.newItems (.collective call current group (.data c)))) := by
  have hchecked := entryChecked_of_entry hentry
  have hready := ready_of_plan hchecked.slice_le hplan
  have hlen : 0 < group.ranks.length := group.size_eq ▸ hchecked.size_pos
  have hranks := (x.state.registry.ranksDev_eq_some_iff hg).mpr ⟨hheld, hchecked.member, rfl⟩
  let a : CollectiveArgs := ⟨call, c.kind, c.input, c.output, group, group.ranks, n⟩
  have hlaunch : Launches n path := by
    cases path with
    | oneShot e =>
      cases e with
      | copyEngine => trivial
      | tma => trivial
      | vec copySms => exact ⟨hn, hsms copySms rfl⟩
    | fused k s => exact hn
    | pipelined chunks => trivial
  have hrun : (c.submit rt call current group).run x.state =
      .ok () (((x.state.push (ingestItems call current)).advance group.groupId
        (rt.numEpochs n path)).push (rt.pathItems a (x.state.epochs.peek group.groupId) path)) := by
    simp only [run_submit, hentry, hranks, hplan]
    exact run_perform hchecked.size_pos hlen hready hlaunch
  replace hrun : ((CollectiveCall.data c).submit rt call current group).run x.state = _ := hrun
  have hreturn : (x.run (.collective call current group (.data c))).1 = .ok none := by
    rw [run_collective_eq, hrun]
    rfl
  have hnew : x.newItems (.collective call current group (.data c)) = ingestItems call current ++
      rt.pathItems a (x.state.epochs.peek group.groupId) path := by
    refine newItems_eq ?_
    rw [run_collective_eq, hrun, ← List.append_assoc]
    rfl
  refine ⟨hreturn, ?_⟩
  rw [hnew, itemActs_append, itemActs_ingestItems, List.nil_append]
  have hsplits := splits_pathItems (x.state.epochs.peek group.groupId) (rfl : a.row = _) hready
    hfused
  exact hsplits.computes (takesAll_pathPairs rfl hlen hready hsms hfused) hchecked rfl

/-- A session in which the pair has been registered. -/
def gatherSession : Session (pairRuntime .default none 0) := ⟨pairState 0, false⟩

/-- The all-gather of a byte, whose tensors are not aligned to a wider vector. -/
def byteGather : DataCall := .allGather (pairTensor 8193 1) (pairTensor 12289 2) none

theorem nonfused_paths_compute_byteGather :
    (gatherSession.run (.collective 3 (.user 0) (pairGroup 0) (.data byteGather))).1 = .ok none ∧
      (pairRuntime .default none 0).Computes .allGather 3 (pairGroup 0) 1 (itemActs
        (gatherSession.newItems (.collective 3 (.user 0) (pairGroup 0) (.data byteGather)))) := by
  have hplan : (pairRuntime .default none 0).plan
      ((pairRuntime .default none 0).policyFor .allGather (pairGroup 0) 1)
      ((pairRuntime .default none 0).effectivePipelineChunks 1 none) 1 12289 =
        .ok (.oneShot (.vec (pairRuntime .default none 0).copySms)) := rfl
  refine nonfused_paths_compute (List.mem_singleton_self _) rfl rfl Nat.one_pos hplan ?_ ?_
  · rintro _ ⟨⟩
    exact Int.natCast_pos.mpr (pairRuntime .default none 0).copySms_pos
  · rintro k s ⟨⟩

end Paths

end Runtime

end GroupFreeCollectives
