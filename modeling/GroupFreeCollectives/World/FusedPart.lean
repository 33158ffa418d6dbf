import GroupFreeCollectives.Kernels.FusedSpec
import GroupFreeCollectives.World.Part

/-!
# Parts on the fused path

A part on the fused path is one kernel between two barriers (`FusedPart`).  The members
agree on the chunks and on their step values, which `Operation.kernelArgs` computes from
the operation; only the vector width is a rank's own.  `mem_kernel_iff` lists the
operations of the kernel: for each chunk, it is staged before its step value is published,
and pulled after its step values were waited for.
-/

namespace GroupFreeCollectives

open Tiling FusedKernelArgs

/-- The arguments of the fused kernel of rank `p` in its call `c`, with vectors of `v`
bytes. -/
def Operation.kernelArgs (cfg : Config) (nonce : ℤ) (W : ℕ) (o : Operation) (n : ℕ)
    (numChannels chunkBytes : ℤ) (p c v : ℕ) : FusedKernelArgs where
  call := c
  groupRanks := o.ranks
  commBufOffset := 0
  selfGlobalRank := p
  selfLocalIndex := o.ranks.idxOf p
  sliceBytes := n
  partitionBytes := alignUp (cdiv n numChannels.toNat) cfg.alignment
  chunkBytes := chunkBytes.toNat
  stepBase := o.token nonce 1
  worldSize := W
  maxChunks := cfg.fusedMaxChunksPerChannel
  numChannels := numChannels.toNat
  blockElts := defaultBlockElts
  vecBytes := v

/-- What the members of an operation on the fused path agree on. -/
structure FusedWork (o : Operation) where
  kind : Collective
  n : ℕ
  numChannels : ℤ
  chunkBytes : ℤ
  work_eq : o.work = .collective kind n (.fused numChannels chunkBytes)

section Structures

variable (cfg : Config) (nonce : ℤ) (W : ℕ) {o : Operation} (F : FusedWork o)

instance : Subsingleton (FusedWork o) where
  allEq := by
    rintro ⟨kind, n, numChannels, chunkBytes, h⟩ ⟨kind', n', numChannels', chunkBytes', h'⟩
    rw [h] at h'
    cases h'
    rfl

/-- The arguments of rank `p`. -/
abbrev FusedWork.args (p c v : ℕ) : FusedKernelArgs :=
  o.kernelArgs cfg nonce W F.n F.numChannels F.chunkBytes p c v

/-- The chunks and the cells, which all members share. -/
abbrev FusedWork.geometry : FusedKernelArgs := F.args cfg nonce W 0 0 1

/-- The cells in which rank `p` waits for chunk `k` of channel `ch`. -/
def FusedWork.cells (p ch k : ℕ) : List ℕ :=
  (F.args cfg nonce W p 0 1).peers.map fun y => (F.geometry cfg nonce W).cellOff ch k y.2

/-- The operations of rank `p` for chunk `k` of channel `ch`. -/
inductive FusedOp (p c ch k : ℕ) : Op DataAct → Prop
  | stage {l j : ℕ} (hl : l < (F.geometry cfg nonce W).numSlices F.kind)
      (hj : j < (F.geometry cfg nonce W).thisChunk ch k) :
      FusedOp p c ch k ⟨2 * ch, 2 * k, .copy
        (.input p c (l * F.n + ((F.geometry cfg nonce W).baseByte ch k + j)))
        (.comm p (l * F.n + ((F.geometry cfg nonce W).baseByte ch k + j)))⟩
  /-- the own segment -/
  | own {j : ℕ} (hj : j < (F.geometry cfg nonce W).thisChunk ch k) :
      FusedOp p c ch k ⟨2 * ch, 2 * k, .copy
        (.input p c (F.kind.srcOffset (o.ranks.idxOf p) F.n +
          ((F.geometry cfg nonce W).baseByte ch k + j)))
        (.output p c (o.ranks.idxOf p * F.n + ((F.geometry cfg nonce W).baseByte ch k + j)))⟩
  | publish {q : ℕ} (hq : q ∈ o.ranks) (hne : q ≠ p) :
      FusedOp p c ch k ⟨2 * ch, 2 * k + 1,
        .stepPublish q ((F.geometry cfg nonce W).cellOff ch k p) (stepValue (o.token nonce 1) k)⟩
  | await : FusedOp p c ch k ⟨2 * ch + 1, 2 * k + 2, .stepAwait
        (F.cells cfg nonce W p ch k) (stepValue (o.token nonce 1) k)⟩
  | pull {i q j : ℕ} (hq : o.ranks[i]? = some q) (hne : q ≠ p)
      (hj : j < (F.geometry cfg nonce W).thisChunk ch k) :
      FusedOp p c ch k ⟨2 * ch + 1, 2 * k + 3, .copy
        (.comm q (F.kind.srcOffset (o.ranks.idxOf p) F.n +
          ((F.geometry cfg nonce W).baseByte ch k + j)))
        (.output p c (i * F.n + ((F.geometry cfg nonce W).baseByte ch k + j)))⟩

/-- Rank `p`'s part in an operation on the fused path. -/
structure FusedPart (p c : ℕ) (its : List Item) : Prop extends Part cfg nonce p c o its where
  nodup : o.ranks.Nodup
  valid : (F.geometry cfg nonce W).Valid
  shape : ∃ A v, Sandwich.Plainly A ∧ 0 < v ∧
    its = sandwich A c o.ranks (o.token nonce 0) (o.token nonce 2) []
      [(F.args cfg nonce W p c v).kernel F.kind] []

/-- Rank `p`'s part in an operation, on any path. -/
structure IsPart (o : Operation) (p c : ℕ) (its : List Item) : Prop where
  cases : (IsEmpty (FusedWork o) ∧ Plain cfg nonce p c o its) ∨
    ∃ F : FusedWork o, FusedPart cfg nonce W F p c its
  delivers : ∀ kind n path, o.work = .collective kind n path → Delivers p c o.ranks kind n its
  /-- the receiver of a transfer -/
  transfers : ∀ protocol src n, o.work = .p2p protocol src p n → Transfers p c src n o its

end Structures

namespace FusedPart

variable {cfg : Config} {nonce : ℤ} {W p c v : ℕ} {o : Operation} {F : FusedWork o}
  {its : List Item} {m ch k : ℕ} {op : Op DataAct}

/-- The arguments of a rank are as valid as the shared ones. -/
theorem valid_args (h : (F.geometry cfg nonce W).Valid) (hv : 0 < v) :
    (F.args cfg nonce W p c v).Valid :=
  ⟨h.partitionBytes_pos, h.chunkBytes_pos, h.blockElts_pos, hv, h.sliceBytes_le, h.numChunks_le⟩

theorem mem_cells (hnodup : o.ranks.Nodup) (hp : p ∈ o.ranks) {x : ℕ} :
    x ∈ F.cells cfg nonce W p ch k ↔
      ∃ q ∈ o.ranks, q ≠ p ∧ x = (F.geometry cfg nonce W).cellOff ch k q := by
  unfold FusedWork.cells
  rw [List.mem_map]
  constructor
  · rintro ⟨y, hy, rfl⟩
    obtain ⟨hget, hne⟩ := (mem_peers_of_nodup hnodup hp rfl).mp hy
    exact ⟨y.2, List.mem_of_getElem? hget, hne, rfl⟩
  · rintro ⟨q, hq, hne, rfl⟩
    obtain ⟨i, hi⟩ := List.mem_iff_getElem?.mp hq
    exact ⟨(i, q), (mem_peers_of_nodup hnodup hp rfl).mpr ⟨hi, hne⟩, rfl⟩

/-- The operations of the kernel. -/
theorem mem_kernel_iff (hvalid : (F.geometry cfg nonce W).Valid) (hv : 0 < v)
    (hnodup : o.ranks.Nodup) (hp : p ∈ o.ranks) :
    op ∈ (F.args cfg nonce W p c v).kernel F.kind ↔
      ∃ ch k, (F.geometry cfg nonce W).IsChunk ch k ∧ FusedOp cfg nonce W F p c ch k op := by
  have hvalid' : (F.args cfg nonce W p c v).Valid := valid_args hvalid hv
  rw [FusedKernelArgs.kernel_eq, mem_fusedKernel_iff hvalid']
  refine exists_congr fun ch => exists_congr fun k => ?_
  -- an address of the kernel, as offset of the slice and place in the slice
  have haddr : ∀ x j, x + (F.args cfg nonce W p c v).baseByte ch k + j =
      x + ((F.geometry cfg nonce W).baseByte ch k + j) := fun x j => Nat.add_assoc ..
  have hcomm : ∀ x, (F.args cfg nonce W p c v).commBufOffset + x = x := Nat.zero_add
  constructor
  · rintro ⟨hch, hop⟩
    refine ⟨⟨hch.channel, hch.chunk⟩, ?_⟩
    rcases hop with ⟨d, hd, rfl⟩ | ⟨y, hy, rfl⟩ | rfl | ⟨y, hy, j, hj, rfl⟩
    · rcases (mem_stage hvalid').mp hd with ⟨l, hl, j, hj, rfl⟩ | ⟨j, hj, rfl⟩
      · rw [hcomm, haddr]
        exact .stage hl hj
      · rw [haddr, haddr]
        exact .own hj
    · obtain ⟨hget, hne⟩ := (mem_peers_of_nodup hnodup hp rfl).mp hy
      exact .publish (List.mem_of_getElem? hget) hne
    · exact .await
    · obtain ⟨hget, hne⟩ := (mem_peers_of_nodup hnodup hp rfl).mp hy
      rw [hcomm, haddr, haddr]
      exact .pull hget hne hj
  · rintro ⟨hch, hop⟩
    refine ⟨⟨hch.channel, hch.chunk⟩, ?_⟩
    cases hop with
    | @stage l j hl hj =>
      refine Or.inl ⟨_, (mem_stage hvalid').mpr (Or.inl ⟨l, hl, j, hj, ?_⟩), rfl⟩
      rw [hcomm, haddr]
      rfl
    | @own j hj =>
      refine Or.inl ⟨_, (mem_stage hvalid').mpr (Or.inr ⟨j, hj, ?_⟩), rfl⟩
      rw [haddr, haddr]
      rfl
    | @publish q hq hne =>
      obtain ⟨i, hi⟩ := List.mem_iff_getElem?.mp hq
      exact Or.inr (Or.inl ⟨(i, q), (mem_peers_of_nodup hnodup hp rfl).mpr ⟨hi, hne⟩, rfl⟩)
    | await => exact Or.inr (Or.inr (Or.inl rfl))
    | @pull i q j hq hne hj =>
      refine Or.inr (Or.inr (Or.inr ⟨(i, q), (mem_peers_of_nodup hnodup hp rfl).mpr ⟨hq, hne⟩, j,
        hj, ?_⟩))
      rw [hcomm, haddr, haddr]
      rfl

/-- What the copies of the kernel do. -/
theorem copyForm (hF : FusedOp cfg nonce W F p c ch k op) {src dst : Cell}
    (hact : op.act = .copy src dst) : CopyForm o p c src dst := by
  have horigin : o.work.origin p = p := by rw [F.work_eq]; rfl
  cases hF with
  | stage hl hj =>
    cases hact
    exact .stage horigin
  | own hj =>
    cases hact
    exact .own
  | publish hq hne => cases hact
  | await => cases hact
  | pull hq hne hj =>
    cases hact
    exact .pull (List.mem_of_getElem? hq)

/-- **One kernel between two barriers is a part.** -/
theorem of_sandwich {A : List Item} (hA : Sandwich.Plainly A)
    (hvalid : (F.geometry cfg nonce W).Valid) (hv : 0 < v) (hnodup : o.ranks.Nodup)
    (hp : p ∈ o.ranks) : FusedPart cfg nonce W F p c
      (sandwich A c o.ranks (o.token nonce 0) (o.token nonce 2) []
        [(F.args cfg nonce W p c v).kernel F.kind] []) where
  toPart := by
    refine Sandwich.part hA hp rfl ?_ ?_ (by simp)
    · unfold Operation.tokens
      rw [F.work_eq]
      rfl
    · rintro op (hop | hop | hop) src dst hact
      · simp at hop
      · rw [List.flatten_singleton] at hop
        obtain ⟨ch, k, -, hF⟩ := (mem_kernel_iff hvalid hv hnodup hp).mp hop
        exact copyForm hF hact
      · simp at hop
  nodup := hnodup
  valid := hvalid
  shape := ⟨A, v, hA, hv, rfl⟩

/-- **What a fused part executes**, and where. -/
theorem exists_kernel (h : FusedPart cfg nonce W F p c its) : ∃ m₀,
    (∀ m op, HasOp its m op ↔ m = m₀ + 1 ∧
      ∃ ch k, (F.geometry cfg nonce W).IsChunk ch k ∧ FusedOp cfg nonce W F p c ch k op) ∧
    its[m₀]? = some ⟨c, .main, .barrier o.ranks (o.token nonce 0)⟩ ∧
    its[m₀ + 2]? = some ⟨c, .main, .barrier o.ranks (o.token nonce 2)⟩ := by
  obtain ⟨A, v, hA, hv, rfl⟩ := h.shape
  refine ⟨A.length, fun m op => ?_, Sandwich.getElem?_first, Sandwich.getElem?_last⟩
  rw [← mem_kernel_iff h.valid hv h.nodup h.mem]
  constructor
  · intro hop
    obtain ⟨-, ⟨hmem, -⟩ | ⟨hmem, hlt, hlt'⟩ | ⟨hmem, -⟩⟩ := Sandwich.hasOp_cases hA hop
    · simp at hmem
    · rw [List.flatten_singleton] at hmem
      have hfirst : A.length < m := hlt
      have hlast : m < A.length + 1 + 1 := hlt'
      exact ⟨by omega, hmem⟩
    · simp at hmem
  · rintro ⟨rfl, hmem⟩
    rw [← List.flatten_singleton (l := (F.args cfg nonce W p c v).kernel F.kind)] at hmem
    obtain ⟨m, hlt, hlt', hop⟩ := @Sandwich.exists_hasOp_middle A c (o.token nonce 0)
      (o.token nonce 2) o.ranks [] [(F.args cfg nonce W p c v).kernel F.kind] [] op hmem
    have hfirst : A.length < m := hlt
    have hlast : m < A.length + 1 + 1 := hlt'
    obtain rfl : m = A.length + 1 := by omega
    exact hop

/-- The kernel has one position. -/
theorem eq_of_hasOp {m' : ℕ} {op' : Op DataAct} (h : FusedPart cfg nonce W F p c its)
    (hop : HasOp its m op) (hop' : HasOp its m' op') : m = m' := by
  obtain ⟨m₀, hiff, -⟩ := h.exists_kernel
  rw [((hiff m op).mp hop).1, ((hiff m' op').mp hop').1]

theorem exists_fusedOp (h : FusedPart cfg nonce W F p c its) (hop : HasOp its m op) :
    ∃ ch k, (F.geometry cfg nonce W).IsChunk ch k ∧ FusedOp cfg nonce W F p c ch k op := by
  obtain ⟨m₀, hiff, -⟩ := h.exists_kernel
  exact ((hiff m op).mp hop).2

theorem exists_hasOp (h : FusedPart cfg nonce W F p c its)
    (hch : (F.geometry cfg nonce W).IsChunk ch k) (hF : FusedOp cfg nonce W F p c ch k op) :
    ∃ m, HasOp its m op := by
  obtain ⟨m₀, hiff, -⟩ := h.exists_kernel
  exact ⟨m₀ + 1, (hiff _ _).mpr ⟨rfl, ch, k, hch, hF⟩⟩

/-- The kernel stands between the two barriers. -/
theorem between_tokens (h : FusedPart cfg nonce W F p c its) (hop : HasOp its m op) :
    AfterToken its (o.token nonce 0) m ∧ BeforeToken its m (o.token nonce 2) ∧ OnMain its m := by
  obtain ⟨A, v, hA, hv, rfl⟩ := h.shape
  obtain ⟨hmain, ⟨hmem, -⟩ | ⟨-, hlt, hlt'⟩ | ⟨hmem, -⟩⟩ := Sandwich.hasOp_cases hA hop
  · simp at hmem
  · exact ⟨Sandwich.afterToken_first h.mem hA hop hlt, Sandwich.beforeToken_last hA hop hlt', hmain⟩
  · simp at hmem

/-! ## Publications and waits -/

theorem of_stepPublish {q cell val : ℕ} (hF : FusedOp cfg nonce W F p c ch k op)
    (hact : op.act = .stepPublish q cell val) : op = ⟨2 * ch, 2 * k + 1, .stepPublish q cell val⟩ ∧
      q ∈ o.ranks ∧ q ≠ p ∧ cell = (F.geometry cfg nonce W).cellOff ch k p ∧
        val = stepValue (o.token nonce 1) k := by
  cases hF with
  | publish hq hne =>
    cases hact
    exact ⟨rfl, hq, hne, rfl, rfl⟩
  | _ => cases hact

theorem of_stepAwait {cells : List ℕ} {val : ℕ} (hF : FusedOp cfg nonce W F p c ch k op)
    (hact : op.act = .stepAwait cells val) : cells = F.cells cfg nonce W p ch k ∧
      val = stepValue (o.token nonce 1) k := by
  cases hF with
  | await =>
    cases hact
    exact ⟨rfl, rfl⟩
  | _ => cases hact

/-- A pull reads a byte that its peer stages for the same chunk. -/
theorem of_pull {q x : ℕ} {dst : Cell} (hp : p ∈ o.ranks)
    (hF : FusedOp cfg nonce W F p c ch k op) (hact : op.act = .copy (.comm q x) dst) :
    op.thread = 2 * ch + 1 ∧ op.phase = 2 * k + 3 ∧ q ∈ o.ranks ∧ q ≠ p ∧
      ∃ l < (F.geometry cfg nonce W).numSlices F.kind,
        ∃ j < (F.geometry cfg nonce W).thisChunk ch k,
          x = l * F.n + ((F.geometry cfg nonce W).baseByte ch k + j) := by
  cases hF with
  | @pull i q j hq hne hj =>
    cases hact
    refine ⟨rfl, rfl, List.mem_of_getElem? hq, hne, ?_⟩
    cases F.kind with
    | allGather => exact ⟨0, Nat.one_pos, j, hj, by rw [Nat.zero_mul]; rfl⟩
    | all2All => exact ⟨o.ranks.idxOf p, List.idxOf_lt_length_of_mem hp, j, hj, rfl⟩
  | _ => cases hact

/-- **The outputs of a fused part.** -/
theorem delivers (h : FusedPart cfg nonce W F p c its) :
    Delivers p c o.ranks F.kind F.n its where
  outputs := by
    intro m op hop src y hact
    obtain ⟨m₀, hiff, -⟩ := h.exists_kernel
    obtain ⟨-, ch, k, hch, hF⟩ := (hiff m op).mp hop
    cases hF with
    | stage hl hj => cases hact
    | own hj =>
      cases hact
      exact ⟨_, p, _, List.getElem?_idxOf h.mem, h.valid.chunk_lt hch hj, rfl, Or.inr ⟨rfl, rfl⟩⟩
    | publish hq hne => cases hact
    | await => cases hact
    | @pull i q j hq hne hj =>
      cases hact
      exact ⟨i, q, _, hq, h.valid.chunk_lt hch hj, rfl, Or.inl rfl⟩
  covers := by
    intro i q b hq hb
    obtain ⟨m₀, hiff, -⟩ := h.exists_kernel
    obtain ⟨ch, k, hch, j, hj, rfl⟩ := h.valid.exists_chunk (b := b) hb
    by_cases hqp : q = p
    · subst hqp
      obtain ⟨hlt, hval⟩ := List.getElem?_eq_some_iff.mp hq
      have hi : o.ranks.idxOf q = i := by rw [← hval, h.nodup.idxOf_getElem]
      rw [← hi]
      exact ⟨m₀ + 1, _, _, (hiff _ _).mpr ⟨rfl, ch, k, hch, .own hj⟩, rfl⟩
    · exact ⟨m₀ + 1, _, _, (hiff _ _).mpr ⟨rfl, ch, k, hch, .pull hq hqp hj⟩, rfl⟩

end FusedPart

end GroupFreeCollectives
