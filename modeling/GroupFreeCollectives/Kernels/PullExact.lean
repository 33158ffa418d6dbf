import GroupFreeCollectives.Kernels.DeviceKernels
import GroupFreeCollectives.Runtime.Collectives

/-!
# What a group pull delivers

A launch of `launch_all_gather_pull` or `launch_all2all_pull` is a list of copies by
concurrent programs.  They read communication buffers and write the output of the call, so
the memory they leave does not depend on the order in which they happen
(`byte_foldl_copies`), and the question is only which bytes they copy.  With exact counts
(`mem_acts_pullKernel`) the tiles of full elements are shared out over all programs, whatever
their number, and the tail of a peer is left to the program with the peer's place in the
rotated order.  The host makes the grid large enough for every tail and then caps it by
`num_sms`: with fewer programs than peers the tails of the peers behind them are not copied.

The device counts in integers of 32 or 64 bits.  A launch that copies every tile of every peer
needs a task for each of them, since a task copies one tile from one peer
(`total_le_of_pullsExactly`); so its counts have not wrapped (`TasksFit`), and it does what the
exact launch does (`deviceLaunch_eq`).
-/

namespace GroupFreeCollectives

open Tiling DeviceInt DInt

/-! ## Copies in any order -/

section Copies

variable {α : Type}

/-- Copies whose sources are not written leave the right value in the cells they write, and
leave the other cells alone. -/
theorem byte_foldl_copies {isSource : Cell → Prop} {val : Cell → α} (l : List DataAct)
    (m : Memory α)
    (hl : ∀ d ∈ l, ∃ src dst, d = .copy src dst ∧ isSource src ∧ ¬ isSource dst ∧
      m.byte src = val dst) (c : Cell) :
    ((∃ src, DataAct.copy src c ∈ l) → (l.foldl DataAct.effect m).byte c = val c) ∧
      ((∀ src, DataAct.copy src c ∉ l) → (l.foldl DataAct.effect m).byte c = m.byte c) := by
  induction l generalizing m with
  | nil => exact ⟨fun ⟨src, h⟩ => absurd h List.not_mem_nil, fun _ => rfl⟩
  | cons d l ih =>
    obtain ⟨src, dst, rfl, hsrc, hdst, hval⟩ := hl d List.mem_cons_self
    have heq : ∀ c, ((DataAct.copy src dst).effect m).byte c =
        if c = dst then val dst else m.byte c := by
      intro c
      show Function.update m.byte dst (m.byte src) c = _
      rw [Function.update_apply, hval]
    have hrest : ∀ d ∈ l, ∃ src' dst', d = .copy src' dst' ∧ isSource src' ∧ ¬ isSource dst' ∧
        ((DataAct.copy src dst).effect m).byte src' = val dst' := by
      intro d hd
      obtain ⟨src', dst', hd', hsrc', hdst', hval'⟩ := hl d (List.mem_cons_of_mem _ hd)
      have hne : src' ≠ dst := fun h => hdst (h ▸ hsrc')
      exact ⟨src', dst', hd', hsrc', hdst', by rw [heq, if_neg hne, hval']⟩
    obtain ⟨ih₁, ih₂⟩ := ih ((DataAct.copy src dst).effect m) hrest
    rw [List.foldl_cons]
    by_cases hlater : ∃ src', DataAct.copy src' c ∈ l
    · refine ⟨fun _ => ih₁ hlater, fun hnone => ?_⟩
      obtain ⟨src', hmem⟩ := hlater
      exact absurd (List.mem_cons_of_mem _ hmem) (hnone src')
    · have hlast := ih₂ (fun src' hmem => hlater ⟨src', hmem⟩)
      rw [heq] at hlast
      constructor
      · rintro ⟨src', hmem⟩
        rcases List.mem_cons.mp hmem with h | h
        · obtain ⟨-, rfl⟩ := DataAct.copy.inj h
          rw [hlast, if_pos rfl]
        · exact absurd ⟨src', h⟩ hlater
      · intro hnone
        rw [hlast, if_neg]
        rintro rfl
        exact hnone src List.mem_cons_self

/-- Copies change bytes only. -/
theorem foldl_copies_eq (l : List DataAct) (m : Memory α)
    (hl : ∀ d ∈ l, ∃ src dst, d = .copy src dst) :
    l.foldl DataAct.effect m = { m with byte := (l.foldl DataAct.effect m).byte } := by
  induction l generalizing m with
  | nil => rfl
  | cons d l ih =>
    obtain ⟨src, dst, rfl⟩ := hl d List.mem_cons_self
    exact ih _ fun d hd => hl d (List.mem_cons_of_mem _ hd)

end Copies

/-! ## The launches -/

namespace PullLaunchArgs

/-- The bytes that a launch copies from each peer. -/
def pulledBytes (kind : Collective) (a : PullLaunchArgs) : ℕ :=
  match kind with
  | .allGather => a.sliceBytes
  | .all2All => a.copyBytes.getD a.sliceBytes

/-- Where a peer's bytes start in its communication buffer, from the offset of the launch. -/
def pulledOffset (kind : Collective) (a : PullLaunchArgs) : ℕ :=
  match kind with
  | .allGather => 0
  | .all2All => a.selfLocalIndex * a.srcSliceStride.getD a.sliceBytes

/-- The stride of the peers in the destination. -/
def stride (a : PullLaunchArgs) : ℕ := a.dstStrideBytes.getD a.sliceBytes

/-- Byte `b` of the destination segment of lane `i`. -/
def dstCell (a : PullLaunchArgs) (i b : ℕ) : Cell :=
  .output a.selfGlobalRank a.call (a.dstOffset + i * a.stride + b)

/-- Byte `b` that the launch pulls from a peer. -/
def srcCell (kind : Collective) (a : PullLaunchArgs) (peer b : ℕ) : Cell :=
  .comm peer (a.commBufOffset + a.pulledOffset kind + b)

variable {kind : Collective} {a : PullLaunchArgs} {ops : List (Op DataAct)}

/-- What the assertions of the launchers establish. -/
theorem launchPull_ok (h : Runtime.launchPull kind a = .ok ops) :
    0 < a.pulledBytes kind ∧ a.pulledBytes kind ≤ a.stride ∧ 0 < a.groupRanks.length ∧
      0 < a.numSms ∧
      ops = (a.kernelArgs (a.pulledBytes kind)).pullKernel (a.pulledOffset kind) := by
  cases kind with
  | allGather =>
    simp only [Runtime.launchPull, launchAllGatherPull, pyAssert_bind_ok_iff,
      decide_eq_true_eq] at h
    obtain ⟨hbytes, hG, hsms, hstride, hops⟩ := h
    exact ⟨hbytes, hstride, hG, hsms, (Except.ok.inj hops).symm⟩
  | all2All =>
    simp only [Runtime.launchPull, launchAll2AllPull, pyAssert_bind_ok_iff, decide_eq_true_eq] at h
    obtain ⟨hbytes, -, hstride, hG, hsms, hops⟩ := h
    exact ⟨hbytes, hstride, hG, hsms, (Except.ok.inj hops).symm⟩

/-- The programs of a launch with a tail: as many as there are SMs for, if these are fewer
than the peers. -/
theorem grid_of_tail {n : ℕ} (htail : ¬ dtypeForVec a.vecBytes ∣ n) :
    a.grid n = min a.numSms.toNat (max (a.groupRanks.length * a.nBlock n) a.groupRanks.length) := by
  have hmod : n % dtypeForVec a.vecBytes ≠ 0 := fun h => htail (Nat.dvd_of_mod_eq_zero h)
  unfold grid
  dsimp only
  rw [if_pos hmod]

theorem pullByte_eq {i b : ℕ} (hi : i < a.groupRanks.length) :
    (a.kernelArgs (a.pulledBytes kind)).pullByte (a.pulledOffset kind) i b =
      .copy (a.srcCell kind a.groupRanks[i] b) (a.dstCell i b) := by
  have hget : a.groupRanks.getD i 0 = a.groupRanks[i] := List.getD_eq_getElem _ _ hi
  rw [← hget]
  rfl

/-- **The bytes that a launch copies.** -/
theorem mem_acts_launchPull (h : Runtime.launchPull kind a = .ok ops) (d : DataAct) :
    d ∈ acts ops ↔ ∃ i peer b, a.groupRanks[i]? = some peer ∧ b < a.pulledBytes kind ∧
      d = .copy (a.srcCell kind peer b) (a.dstCell i b) ∧
      (a.pulledBytes kind / dtypeForVec a.vecBytes * dtypeForVec a.vecBytes ≤ b →
        ¬ dtypeForVec a.vecBytes ∣ a.pulledBytes kind ∧
        ∃ pid < a.numSms.toNat, pid < a.groupRanks.length ∧
          (pid + a.selfLocalIndex + 1) % a.groupRanks.length = i) := by
  obtain ⟨-, -, hG, hsms, rfl⟩ := launchPull_ok h
  have htail : (a.kernelArgs (a.pulledBytes kind)).hasTail = true ↔
      ¬ dtypeForVec a.vecBytes ∣ a.pulledBytes kind := by
    rw [Nat.dvd_iff_mod_eq_zero]
    exact decide_eq_true_iff
  rw [PullKernelArgs.mem_acts_pullKernel (dtypeForVec_pos _) (lt_max_of_lt_right Nat.one_pos)
    (grid_pos hG hsms), htail]
  constructor
  · rintro ⟨i, b, rfl, hi, hb, hlast⟩
    refine ⟨i, a.groupRanks[i], b, List.getElem?_eq_getElem hi, hb, pullByte_eq hi, fun hge => ?_⟩
    obtain ⟨hdvd, pid, hpid, hpeer, hlane⟩ := hlast hge
    have hgrid : pid < a.grid (a.pulledBytes kind) := hpid
    rw [grid_of_tail hdvd] at hgrid
    exact ⟨hdvd, pid, (lt_min_iff.mp hgrid).1, hpeer, hlane⟩
  · rintro ⟨i, peer, b, hget, hb, rfl, hlast⟩
    obtain ⟨hi, rfl⟩ := List.getElem?_eq_some_iff.mp hget
    refine ⟨i, b, (pullByte_eq hi).symm, hi, hb, fun hge => ?_⟩
    obtain ⟨hdvd, pid, hpid, hpeer, hlane⟩ := hlast hge
    refine ⟨hdvd, pid, ?_, hpeer, hlane⟩
    show pid < a.grid (a.pulledBytes kind)
    rw [grid_of_tail hdvd]
    exact lt_min hpid (lt_max_of_lt_right hpeer)

theorem dstCell_inj {i b i' b' : ℕ} (hb : b < a.stride) (hb' : b' < a.stride)
    (h : a.dstCell i b = a.dstCell i' b') : i = i' ∧ b = b' := by
  obtain ⟨-, -, haddr⟩ := Cell.output.inj h
  exact pair_inj hb hb' (by omega)

/-- What a group pull is for: after the copies, in whatever order, the segment of every peer
holds the bytes of that peer, and nothing else has changed. -/
def PullsExactly (kind : Collective) (a : PullLaunchArgs) (ops : List (Op DataAct)) : Prop :=
  ∀ (α : Type) (m : Memory α) (order : List (Op DataAct)), order.Perm ops →
    let m' := (order.map Op.act).foldl DataAct.effect m
    (∀ i peer b, a.groupRanks[i]? = some peer → b < a.pulledBytes kind →
      m'.byte (a.dstCell i b) = m.byte (a.srcCell kind peer b)) ∧
    (∀ c, (∀ i b, i < a.groupRanks.length → b < a.pulledBytes kind → c ≠ a.dstCell i b) →
      m'.byte c = m.byte c) ∧
    m' = { m with byte := m'.byte }

/-- The values that a launch leaves behind. -/
def pulled {α : Type} (kind : Collective) (a : PullLaunchArgs) (m : Memory α) : Cell → α
  | .output _ _ x =>
    let place := x - a.dstOffset
    m.byte (a.srcCell kind (a.groupRanks.getD (place / a.stride) 0) (place % a.stride))
  | c => m.byte c

theorem pulled_dstCell {α : Type} {m : Memory α} {i peer b : ℕ}
    (hget : a.groupRanks[i]? = some peer) (hb : b < a.stride) :
    a.pulled kind m (a.dstCell i b) = m.byte (a.srcCell kind peer b) := by
  obtain ⟨hi, rfl⟩ := List.getElem?_eq_some_iff.mp hget
  have hplace : a.dstOffset + i * a.stride + b - a.dstOffset = i * a.stride + b := by omega
  obtain ⟨hdiv, hmod⟩ := (pair_eq_iff (i := i) hb).mp rfl
  show m.byte (a.srcCell kind (a.groupRanks.getD ((a.dstOffset + i * a.stride + b - a.dstOffset) /
    a.stride) 0) ((a.dstOffset + i * a.stride + b - a.dstOffset) % a.stride)) = _
  rw [hplace, ← hdiv, ← hmod, List.getD_eq_getElem _ _ hi]

/-- The copies that a pull is made of. -/
def slices (kind : Collective) (a : PullLaunchArgs) : Set DataAct :=
  groupCopies a.groupRanks (fun _ peer b => a.srcCell kind peer b) (fun i _ b => a.dstCell i b)
    (a.pulledBytes kind)

/-- Such copies read buffers and write the output. -/
theorem copies_of_mem_order (hsub : acts ops ⊆ a.slices kind)
    (hstride : a.pulledBytes kind ≤ a.stride) {order : List (Op DataAct)}
    (horder : order.Perm ops) {α : Type} (m : Memory α) {d : DataAct}
    (hd : d ∈ order.map Op.act) : ∃ src dst, d = .copy src dst ∧ (∃ q x, src = .comm q x) ∧
      ¬ (∃ q x, dst = .comm q x) ∧ m.byte src = a.pulled kind m dst := by
  obtain ⟨o, ho, rfl⟩ := List.mem_map.mp hd
  obtain ⟨i, peer, hget, b, hb, hact⟩ := hsub ⟨o, horder.mem_iff.mp ho, rfl⟩
  refine ⟨_, _, hact, ⟨_, _, rfl⟩, ?_, (pulled_dstCell hget (by omega)).symm⟩
  rintro ⟨q, x, hcell⟩
  cases hcell

/-- **Such copies are an exact pull** if they write every byte. -/
theorem pullsExactly_of_covers (hsub : acts ops ⊆ a.slices kind)
    (hstride : a.pulledBytes kind ≤ a.stride)
    (hcover : ∀ i b, i < a.groupRanks.length → b < a.pulledBytes kind →
      ∃ src, DataAct.copy src (a.dstCell i b) ∈ acts ops) : PullsExactly kind a ops := by
  intro α m order horder
  have hcopies := fun d hd => copies_of_mem_order hsub hstride horder m (d := d) hd
  refine ⟨?_, ?_, ?_⟩
  · intro i peer b hget hb
    obtain ⟨src, o, ho, hact⟩ := hcover i b (List.getElem?_eq_some_iff.mp hget).1 hb
    have hmem : DataAct.copy src (a.dstCell i b) ∈ order.map Op.act :=
      List.mem_map.mpr ⟨o, horder.mem_iff.mpr ho, hact⟩
    rw [(byte_foldl_copies _ m hcopies _).1 ⟨_, hmem⟩, pulled_dstCell hget (by omega)]
  · intro c hc
    refine (byte_foldl_copies _ m hcopies c).2 fun src hmem => ?_
    obtain ⟨o, ho, hact⟩ := List.mem_map.mp hmem
    obtain ⟨i, peer, hget, b, hb, heq⟩ := hsub ⟨o, horder.mem_iff.mp ho, rfl⟩
    obtain ⟨-, rfl⟩ := DataAct.copy.inj (hact.symm.trans heq)
    exact hc i b (List.getElem?_eq_some_iff.mp hget).1 hb rfl
  · refine foldl_copies_eq _ m fun d hd => ?_
    obtain ⟨src, dst, hd, -⟩ := hcopies d hd
    exact ⟨src, dst, hd⟩

/-- **An exact pull writes every byte**: a cell that is not written keeps its own name. -/
theorem exists_copy_of_pullsExactly (hsub : acts ops ⊆ a.slices kind)
    (hstride : a.pulledBytes kind ≤ a.stride) (hexact : PullsExactly kind a ops) {i b : ℕ}
    (hi : i < a.groupRanks.length) (hb : b < a.pulledBytes kind) :
    ∃ src, DataAct.copy src (a.dstCell i b) ∈ acts ops := by
  by_contra hnone
  rw [not_exists] at hnone
  have hcopies := fun d hd =>
    copies_of_mem_order hsub hstride (List.Perm.refl ops) cellNames (d := d) hd
  have hkept := (byte_foldl_copies _ cellNames hcopies (a.dstCell i b)).2 fun src hmem => by
    obtain ⟨o, ho, hact⟩ := List.mem_map.mp hmem
    exact hnone src ⟨o, ho, hact⟩
  have hbyte := (hexact Cell cellNames ops (List.Perm.refl ops)).1 i _ b
    (List.getElem?_eq_getElem hi) hb
  cases hkept.symm.trans hbyte

/-! ## Exact counts -/

theorem acts_subset_slices (h : Runtime.launchPull kind a = .ok ops) :
    acts ops ⊆ a.slices kind := by
  intro d hd
  obtain ⟨i, peer, b, hget, hb, heq, -⟩ := (mem_acts_launchPull h d).mp hd
  exact ⟨i, peer, hget, b, hb, heq⟩

/-- Byte `b` of every peer is copied: it is in a full element, or every peer's tail has its
program. -/
theorem mem_acts_of_covered (h : Runtime.launchPull kind a = .ok ops)
    (hcover : dtypeForVec a.vecBytes ∣ a.pulledBytes kind ∨ (a.groupRanks.length : ℤ) ≤ a.numSms)
    {i peer b : ℕ} (hget : a.groupRanks[i]? = some peer) (hb : b < a.pulledBytes kind) :
    DataAct.copy (a.srcCell kind peer b) (a.dstCell i b) ∈ acts ops := by
  refine (mem_acts_launchPull h _).mpr ⟨i, peer, b, hget, hb, rfl, fun hge => ?_⟩
  have hdvd : ¬ dtypeForVec a.vecBytes ∣ a.pulledBytes kind := fun hdvd => by
    rw [Nat.div_mul_cancel hdvd] at hge
    exact absurd hb (not_lt.mpr hge)
  have hsms := hcover.resolve_left hdvd
  obtain ⟨hi, -⟩ := List.getElem?_eq_some_iff.mp hget
  obtain ⟨pid, hpid, hlane⟩ := exists_swizzle hi a.selfLocalIndex
  exact ⟨hdvd, pid, by omega, hpid, hlane⟩

/-- A pull that copies every byte has programs for the last ones: the first peer whose program
is missing would not get its last byte. -/
theorem covered_of_pullsExactly (h : Runtime.launchPull kind a = .ok ops)
    (hexact : PullsExactly kind a ops) :
    dtypeForVec a.vecBytes ∣ a.pulledBytes kind ∨ (a.groupRanks.length : ℤ) ≤ a.numSms := by
  obtain ⟨hpos, hstride, hG, hsms, -⟩ := launchPull_ok h
  by_contra hshort
  rw [not_or, not_le] at hshort
  obtain ⟨hdvd, hfew⟩ := hshort
  obtain ⟨src, hmem⟩ := exists_copy_of_pullsExactly (acts_subset_slices h) hstride hexact
    (Nat.mod_lt (a.numSms.toNat + a.selfLocalIndex + 1) hG)
    (by omega : a.pulledBytes kind - 1 < a.pulledBytes kind)
  obtain ⟨i, peer, b, hget, hb, heq, htail⟩ := (mem_acts_launchPull h _).mp hmem
  obtain ⟨-, hdst⟩ := DataAct.copy.inj heq
  obtain ⟨rfl, rfl⟩ := dstCell_inj (by omega) (by omega) hdst
  have hdiv : a.pulledBytes kind / dtypeForVec a.vecBytes * dtypeForVec a.vecBytes ≠
      a.pulledBytes kind := fun heq => hdvd (Dvd.intro_left _ heq)
  have hle := Nat.div_mul_le_self (a.pulledBytes kind) (dtypeForVec a.vecBytes)
  obtain ⟨-, pid, hpid, hpeer, hlane⟩ := htail (by omega)
  have hsame := swizzle_inj hpeer (by omega) hlane
  omega

/-- **With exact counts a group pull copies every byte, unless the last bytes of a peer need a
program that is not there.** -/
theorem pullsExactly_iff_covered (h : Runtime.launchPull kind a = .ok ops) :
    PullsExactly kind a ops ↔
      dtypeForVec a.vecBytes ∣ a.pulledBytes kind ∨ (a.groupRanks.length : ℤ) ≤ a.numSms := by
  obtain ⟨-, hstride, -⟩ := launchPull_ok h
  refine ⟨covered_of_pullsExactly h, fun hcover =>
    pullsExactly_of_covers (acts_subset_slices h) hstride fun i b hi hb => ?_⟩
  exact ⟨_, mem_acts_of_covered h hcover (List.getElem?_eq_getElem hi) hb⟩

/-! ## Device counts -/

/-- The launch on the device. -/
def deviceLaunch (kind : Collective) (a : PullLaunchArgs) : Option (List (Op DataAct)) :=
  (a.kernelArgs (a.pulledBytes kind)).devicePullKernel (a.pulledOffset kind)

/-- The sizes for which the device counts the tasks of a launch exactly.  For a group of up to
16 members the last two parts follow from the others (`tasksFit_iff`). -/
structure TasksFit (a : PullLaunchArgs) (n : ℕ) : Prop where
  bytes : VectorFits n a.vecBytes
  grid : a.grid n < 2 ^ 31
  tasks : a.groupRanks.length < 2 ^ 31 → n < 2 ^ 31 → a.groupRanks.length * a.nBlock n < 2 ^ 31
  room : a.groupRanks.length * a.nBlock n + a.grid n ≤ 2 ^ 63

section Device

variable {n : ℕ} {dev : List (Op DataAct)}

theorem blockElts_lt (hw : IsVecWidth a.vecBytes) (hb : a.blockBytes = defaultBlockBytes) :
    (a.kernelArgs n).blockElts < 2 ^ 31 := by
  have hd := blockElts_bounds hw
  show max (a.blockBytes / dtypeForVec a.vecBytes) 1 < 2 ^ 31
  rw [hb, hw.dtypeForVec]
  omega

/-- The device's tile count of a launch. -/
theorem deviceTiles_iff (hn : 0 < n) (hw : IsVecWidth a.vecBytes)
    (hb : a.blockBytes = defaultBlockBytes) :
    (a.kernelArgs n).deviceLoop.nTiles.val = a.nBlock n ↔ VectorFits n a.vecBytes := by
  rw [← countFits_iff hw, ← vector_count hn hw, nBlock, hb, hw.dtypeForVec]
  show (DInt.cdiv (lit n / lit (dtypeForVec a.vecBytes))
    (lit (max (a.blockBytes / dtypeForVec a.vecBytes) 1 : ℕ))).val = _ ↔ _
  rw [hb, hw.dtypeForVec]

theorem deviceTiles_wide (hn : n < 2 ^ 63) (hw : IsVecWidth a.vecBytes)
    (hb : a.blockBytes = defaultBlockBytes) :
    (a.kernelArgs n).deviceLoop.nTiles.wide = decide (2 ^ 31 ≤ n) :=
  (wide_cdiv (blockElts_lt hw hb)).trans (lit_div_lit hn (dtypeForVec_lt _)).2

/-- A tile count that is not exact is not positive, and not further from zero than the exact
one. -/
theorem deviceTiles_nonpos (hn : 0 < n) (hn' : n < 2 ^ 63) (hw : IsVecWidth a.vecBytes)
    (hb : a.blockBytes = defaultBlockBytes) (hnot : ¬ VectorFits n a.vecBytes) :
    -((a.nBlock n : ℕ) : ℤ) ≤ (a.kernelArgs n).deviceLoop.nTiles.val ∧
      (a.kernelArgs n).deviceLoop.nTiles.val ≤ 0 := by
  have hbe : 0 < (a.kernelArgs n).blockElts := lt_max_of_lt_right Nat.one_pos
  have hbe' := blockElts_lt (n := n) hw hb
  obtain ⟨hval, hwide⟩ := lit_div_lit hn' (dtypeForVec_lt a.vecBytes)
  have hlt : ((n / dtypeForVec a.vecBytes : ℕ) : ℤ) <
      bound (lit n / lit (dtypeForVec a.vecBytes)).wide := by
    rw [hwide]
    exact lt_of_le_of_lt (by exact_mod_cast Nat.div_le_self _ _) (lt_bound_of_lt hn')
  have hover := not_lt.mp fun hfits =>
    hnot ((deviceTiles_iff hn hw hb).mp ((cdiv_eq_iff hval hlt hbe hbe').mpr hfits))
  have hbound : 2 ^ 31 ≤ bound (lit n / lit (dtypeForVec a.vecBytes)).wide := by
    cases (lit n / lit (dtypeForVec a.vecBytes)).wide <;> simp
  have hroom : ((n / dtypeForVec a.vecBytes + ((a.kernelArgs n).blockElts - 1) : ℕ) : ℤ) <
      2 * bound (lit n / lit (dtypeForVec a.vecBytes)).wide := by omega
  exact ⟨neg_cdiv_le hval hbe hbe' hover hroom, cdiv_nonpos hval hbe hbe' hover hroom⟩

/-- **A task count that is large enough has not wrapped.** -/
theorem counts_of_total_le (hn : 0 < n) (hn' : n < 2 ^ 63) (hG : 0 < a.groupRanks.length)
    (hw : IsVecWidth a.vecBytes) (hb : a.blockBytes = defaultBlockBytes)
    (hle : a.groupRanks.length * a.nBlock n ≤ (a.kernelArgs n).deviceLoop.total.val.toNat)
    (htiles : 0 < a.nBlock n) : a.groupRanks.length * a.nBlock n < 2 ^ 63 ∧
      VectorFits n a.vecBytes ∧
      (a.groupRanks.length < 2 ^ 31 → n < 2 ^ 31 → a.groupRanks.length * a.nBlock n < 2 ^ 31) ∧
      (a.kernelArgs n).deviceLoop.total.val = (a.groupRanks.length * a.nBlock n : ℕ) := by
  have hpos : 0 < a.groupRanks.length * a.nBlock n := Nat.mul_pos hG htiles
  have hlarge : a.groupRanks.length ≤ a.groupRanks.length * a.nBlock n :=
    Nat.le_mul_of_pos_right _ htiles
  have hge : ((a.groupRanks.length * a.nBlock n : ℕ) : ℤ) ≤
      (a.kernelArgs n).deviceLoop.total.val := (Int.le_toNat (by omega)).mp hle
  have hlt : (a.kernelArgs n).deviceLoop.total.val <
      bound ((lit a.groupRanks.length).wide || (a.kernelArgs n).deviceLoop.nTiles.wide) :=
    wrap_lt_bound _ _
  have hfits := lt_of_le_of_lt hge hlt
  have hsmall : a.groupRanks.length * a.nBlock n < 2 ^ 63 := by
    exact_mod_cast hfits.trans_le (bound_le _)
  have hG' : a.groupRanks.length < 2 ^ 63 := lt_of_le_of_lt hlarge hsmall
  obtain ⟨hval, hwide⟩ := lit_val hG'
  have hbytes : VectorFits n a.vecBytes := by
    by_contra hnot
    obtain ⟨hneg, hnonpos⟩ := deviceTiles_nonpos hn hn' hw hb hnot
    have hwrap := hge.trans (mul_nonpos_nat hval hneg hnonpos hfits)
    omega
  refine ⟨hsmall, hbytes, fun hG31 hn31 => ?_,
    mul_nat hval ((deviceTiles_iff hn hw hb).mpr hbytes) hfits⟩
  rw [hwide, deviceTiles_wide hn' hw hb, decide_eq_false (not_le.mpr hG31),
    decide_eq_false (not_le.mpr hn31), Bool.or_false, bound_false] at hfits
  omega

/-- For the groups that a configuration admits it is the condition of the tile counts. -/
theorem tasksFit_iff (hn : 0 < n) (hG : a.groupRanks.length ≤ 16) (hw : IsVecWidth a.vecBytes)
    (hb : a.blockBytes = defaultBlockBytes) :
    a.TasksFit n ↔ (TileLaunch.groupPull a n).Fits := by
  refine ⟨fun h => ⟨h.bytes, h.grid⟩, fun ⟨hbytes, hgrid⟩ => ⟨hbytes, hgrid, fun _ hn31 => ?_, ?_⟩⟩
  · have hd := blockElts_bounds hw
    have htiles : a.nBlock n ≤ 2 ^ 19 := by
      rw [nBlock, hb, hw.dtypeForVec, cdiv_le_iff (by omega)]
      have hle := Nat.div_le_self n a.vecBytes
      omega
    have hmul := Nat.mul_le_mul hG htiles
    omega
  · have htotal := (vector_total hn hw hG ((countFits_iff hw).mpr hbytes)).2
    rw [nBlock, hb, hw.dtypeForVec]
    omega

theorem TasksFit.length_lt (h : a.TasksFit n) (hgrid : 0 < a.grid n) (htiles : 0 < a.nBlock n) :
    a.groupRanks.length < 2 ^ 63 := by
  have hle := Nat.le_mul_of_pos_right a.groupRanks.length htiles
  have hroom := h.room
  omega

/-- **A launch whose counts fit has an exact loop.** -/
theorem TasksFit.exact (h : a.TasksFit n) (hn : 0 < n) (hgrid : 0 < a.grid n)
    (hw : IsVecWidth a.vecBytes) (hb : a.blockBytes = defaultBlockBytes) :
    (a.kernelArgs n).deviceLoop.Exact (a.kernelArgs n).exactTiles := by
  have hbe : 0 < (a.kernelArgs n).blockElts := lt_max_of_lt_right Nat.one_pos
  have hbe' := blockElts_lt (n := n) hw hb
  have hcount := (deviceTiles_iff hn hw hb).mpr h.bytes
  have hroom := h.room
  have hn' := h.bytes.1
  have hfew := h.grid
  refine TileLoop.exact_of hcount ?_ (fun pid hpid => ?_) ?_ ?_ fun t ht => ?_
  · rcases Nat.eq_zero_or_pos (a.nBlock n) with hzero | htiles
    · -- without a full element there are no tiles, however many the peers are
      show (lit a.groupRanks.length * (a.kernelArgs n).deviceLoop.nTiles).val =
        (a.groupRanks.length * a.nBlock n : ℕ)
      rw [mul_val, hcount, hzero, Nat.mul_zero, Nat.cast_zero, mul_zero]
      exact wrap_of_fits le_rfl (bound_pos _)
    have hG := h.length_lt hgrid htiles
    refine mul_nat (lit_val hG).1 hcount ?_
    show ((a.groupRanks.length * a.nBlock n : ℕ) : ℤ) <
      bound ((lit a.groupRanks.length).wide || (a.kernelArgs n).deviceLoop.nTiles.wide)
    rw [(lit_val hG).2, deviceTiles_wide hn' hw hb]
    by_cases hlarge : 2 ^ 31 ≤ a.groupRanks.length ∨ 2 ^ 31 ≤ n
    · have hor : (decide (2 ^ 31 ≤ a.groupRanks.length) || decide (2 ^ 31 ≤ n)) = true := by
        simpa using hlarge
      rw [hor, bound_true]
      omega
    · rw [not_or, not_le, not_le] at hlarge
      have htasks := h.tasks hlarge.1 hlarge.2
      rw [decide_eq_false (not_le.mpr hlarge.1), decide_eq_false (not_le.mpr hlarge.2),
        Bool.or_false, bound_false]
      omega
  · have hpid : pid < a.grid n := hpid
    exact TileLoop.programId_cast (by omega)
  · exact congrArg DInt.val (TileLoop.programId_cast hfew)
  · have htotal : (((a.kernelArgs n).exactTiles.total + (a.kernelArgs n).exactTiles.stride : ℕ) :
        ℤ) ≤ 2 ^ 63 := by exact_mod_cast hroom
    exact htotal.trans bound_true.ge
  · have ht : t < a.groupRanks.length * a.nBlock n := ht
    have htile : t / a.groupRanks.length * (a.kernelArgs n).blockElts < n :=
      lt_of_lt_of_le ((lt_cdiv_iff hbe).mp (Nat.div_lt_of_lt_mul ht)) (Nat.div_le_self _ _)
    have hG := h.length_lt hgrid (Nat.pos_of_mul_pos_left (lt_of_le_of_lt (Nat.zero_le t) ht))
    obtain ⟨hdiv, hmod⟩ := group_index (w := true) (t := t) hG (Or.inr rfl)
      (by rw [bound_true]; omega)
    refine ⟨congrArg DInt.val hdiv, hmod, ?_⟩
    show ((⟨true, t⟩ / lit a.groupRanks.length : DInt) * lit (a.kernelArgs n).blockElts).val = _
    rw [hdiv, offset_index hbe']
    refine wrap_of_fits (Int.natCast_nonneg _) ?_
    rw [bound_true]
    omega

/-- **A launch whose counts fit** does what the exact one does. -/
theorem deviceLaunch_eq (h : Runtime.launchPull kind a = .ok ops) (hw : IsVecWidth a.vecBytes)
    (hb : a.blockBytes = defaultBlockBytes) (hfit : a.TasksFit (a.pulledBytes kind)) :
    a.deviceLaunch kind = some ops := by
  obtain ⟨hn, -, hG', hsms, rfl⟩ := launchPull_ok h
  have hgrid : 0 < a.grid (a.pulledBytes kind) := grid_pos hG' hsms
  exact PullKernelArgs.devicePullKernel_eq (hfit.exact hn hgrid hw hb) hgrid hfit.grid
    hfit.bytes.1 (dtypeForVec_lt _)

/-- What the device copies, in any counts. -/
theorem exists_of_mem_deviceLaunch (h : Runtime.launchPull kind a = .ok ops)
    (hdev : a.deviceLaunch kind = some dev) {d : DataAct}
    (hd : d ∈ acts dev) : ∃ i b : ℕ, i < a.groupRanks.length ∧
      (b : ℤ) < (lit (a.pulledBytes kind)).val ∧
      d = (a.kernelArgs (a.pulledBytes kind)).pullByte (a.pulledOffset kind) i b ∧
      ((a.kernelArgs (a.pulledBytes kind)).TaskCopies i b ∨
        (a.kernelArgs (a.pulledBytes kind)).deviceTail ≤ b) := by
  obtain ⟨-, -, hG, -, -⟩ := launchPull_ok h
  obtain ⟨b, hb, ⟨t, m, lane, ht, hlane, hoffset, hdiv, rfl⟩ | ⟨pid, act, htail, hfull, rfl⟩⟩ :=
    exists_of_mem_deviceVectorKernel hdev (dtypeForVec_lt _) (fun _ => rfl) hd
  · exact ⟨_, b, Nat.mod_lt _ hG, hb, rfl, Or.inl ⟨t, m, lane, ht, hlane, rfl, hoffset, hdiv⟩⟩
  · split_ifs at htail with hpid
    obtain rfl := Option.some_inj.mp htail
    exact ⟨_, b, Nat.mod_lt _ hG, hb, rfl, Or.inr hfull⟩

theorem deviceLaunch_subset_slices (h : Runtime.launchPull kind a = .ok ops)
    (hdev : a.deviceLaunch kind = some dev) :
    acts dev ⊆ a.slices kind := by
  intro d hd
  obtain ⟨i, b, hi, hb, rfl, -⟩ := exists_of_mem_deviceLaunch h hdev hd
  have hle := lit_le (a.pulledBytes kind)
  exact ⟨i, a.groupRanks[i], List.getElem?_eq_getElem hi, b, by omega, pullByte_eq hi⟩

/-- Every byte of an exact pull is one that the device copies. -/
theorem exists_task_of_pullsExactly (h : Runtime.launchPull kind a = .ok ops)
    (hdev : a.deviceLaunch kind = some dev)
    (hexact : PullsExactly kind a dev) {i b : ℕ} (hi : i < a.groupRanks.length)
    (hb : b < a.pulledBytes kind) : (b : ℤ) < (lit (a.pulledBytes kind)).val ∧
      ((a.kernelArgs (a.pulledBytes kind)).TaskCopies i b ∨
        (a.kernelArgs (a.pulledBytes kind)).deviceTail ≤ b) := by
  obtain ⟨-, hstride, -⟩ := launchPull_ok h
  have hle := lit_le (a.pulledBytes kind)
  obtain ⟨src, hmem⟩ := exists_copy_of_pullsExactly (deviceLaunch_subset_slices h hdev) hstride
    hexact hi hb
  obtain ⟨i', b', hi', hb', heq, htask⟩ := exists_of_mem_deviceLaunch h hdev hmem
  rw [pullByte_eq hi'] at heq
  obtain ⟨-, hdst⟩ := DataAct.copy.inj heq
  obtain ⟨rfl, rfl⟩ := dstCell_inj (by omega) (by omega) hdst
  exact ⟨hb', htask⟩

/-- An exact pull has fewer bytes than 64 bits count: the last one is below the argument. -/
theorem bytes_lt_of_pullsExactly (h : Runtime.launchPull kind a = .ok ops)
    (hdev : a.deviceLaunch kind = some dev)
    (hexact : PullsExactly kind a dev) : a.pulledBytes kind < 2 ^ 63 := by
  obtain ⟨hn, -, hG, -⟩ := launchPull_ok h
  obtain ⟨hlast, -⟩ := exists_task_of_pullsExactly h hdev hexact hG
    (by omega : a.pulledBytes kind - 1 < a.pulledBytes kind)
  have hlt := lit_lt_bound (a.pulledBytes kind)
  have hbound := bound_le (lit (a.pulledBytes kind)).wide
  omega

/-- **An exact pull has a task for every tile of every peer.** -/
theorem total_le_of_pullsExactly (h : Runtime.launchPull kind a = .ok ops)
    (hdev : a.deviceLaunch kind = some dev) (hexact : PullsExactly kind a dev) :
    a.groupRanks.length * a.nBlock (a.pulledBytes kind) ≤
      (a.kernelArgs (a.pulledBytes kind)).deviceLoop.total.val.toNat := by
  have hn := bytes_lt_of_pullsExactly h hdev hexact
  have he := dtypeForVec_pos a.vecBytes
  have hbe : 0 < (a.kernelArgs (a.pulledBytes kind)).blockElts := lt_max_of_lt_right Nat.one_pos
  refine PullKernelArgs.total_le_of_taskCopies he hbe fun i j hi hj => ?_
  have hfull : j * (a.kernelArgs (a.pulledBytes kind)).blockElts * dtypeForVec a.vecBytes <
      a.pulledBytes kind / dtypeForVec a.vecBytes * dtypeForVec a.vecBytes :=
    Nat.mul_lt_mul_of_pos_right ((lt_cdiv_iff hbe).mp hj) he
  have hb := lt_of_lt_of_le hfull (Nat.div_mul_le_self _ _)
  refine (exists_task_of_pullsExactly h hdev hexact hi hb).2.resolve_right fun htail => ?_
  rw [PullKernelArgs.deviceTail_eq hn (dtypeForVec_lt _)] at htail
  exact absurd hfull (not_lt.mpr (by exact_mod_cast htail))

/-- **The counts of an exact pull have not wrapped.** -/
theorem tasksFit_of_pullsExactly (h : Runtime.launchPull kind a = .ok ops)
    (hw : IsVecWidth a.vecBytes) (hb : a.blockBytes = defaultBlockBytes)
    (hdev : a.deviceLaunch kind = some dev) (hexact : PullsExactly kind a dev) :
    a.TasksFit (a.pulledBytes kind) := by
  obtain ⟨hn, -, hG, hsms, -⟩ := launchPull_ok h
  have hn' := bytes_lt_of_pullsExactly h hdev hexact
  have hgrid : 0 < a.grid (a.pulledBytes kind) := grid_pos hG hsms
  have hfew : a.grid (a.pulledBytes kind) < 2 ^ 31 := (TileLoop.exists_tasks_of_run hdev hgrid).1
  have hle := total_le_of_pullsExactly h hdev hexact
  rcases Nat.eq_zero_or_pos (a.nBlock (a.pulledBytes kind)) with hzero | htiles
  · -- less than an element
    have hfull : a.pulledBytes kind / dtypeForVec a.vecBytes = 0 := by
      refine Nat.eq_zero_of_not_pos fun hpos => ?_
      have htile : 0 < a.nBlock (a.pulledBytes kind) :=
        (lt_cdiv_iff (lt_max_of_lt_right Nat.one_pos)).mpr (lt_of_eq_of_lt (Nat.zero_mul _) hpos)
      exact absurd hzero htile.ne'
    have hlt := (Nat.div_eq_zero_iff_lt (dtypeForVec_pos _)).mp hfull
    have hsmall := dtypeForVec_le a.vecBytes
    refine ⟨⟨hn', fun _ => Or.inl (by omega)⟩, hfew, fun _ _ => ?_, ?_⟩ <;>
      rw [hzero, Nat.mul_zero] <;> omega
  · obtain ⟨hsmall, hbytes, htasks, htotal⟩ := counts_of_total_le hn hn' hG hw hb hle htiles
    refine ⟨hbytes, hfew, htasks, ?_⟩
    by_contra hover
    -- the program that has the last task does not come to an end
    have hpid := Nat.mod_lt (a.groupRanks.length * a.nBlock (a.pulledBytes kind) - 1) hgrid
    obtain ⟨-, ts, hts⟩ := TileLoop.exists_tasks_of_run hdev hpid
    have hnone : (a.kernelArgs (a.pulledBytes kind)).deviceLoop.tasks
        ((a.groupRanks.length * a.nBlock (a.pulledBytes kind) - 1) %
          a.grid (a.pulledBytes kind)) = none :=
      TileLoop.rounds_eq_none rfl htotal (congrArg DInt.val (TileLoop.programId_cast hfew)) hfew
        hsmall (not_le.mp hover) (TileLoop.programId_cast (hpid.trans hfew))
        (Nat.mod_add_div' _ _)
    cases hts.symm.trans hnone

/-- **A group pull copies every byte exactly when its counts fit and the last bytes of every peer
have a program.** -/
theorem group_pull_copies_iff (h : Runtime.launchPull kind a = .ok ops)
    (hw : IsVecWidth a.vecBytes) (hb : a.blockBytes = defaultBlockBytes) :
    (∃ dev, a.deviceLaunch kind = some dev ∧ PullsExactly kind a dev) ↔
      (dtypeForVec a.vecBytes ∣ a.pulledBytes kind ∨ (a.groupRanks.length : ℤ) ≤ a.numSms) ∧
        a.TasksFit (a.pulledBytes kind) := by
  constructor
  · rintro ⟨dev, hdev, hexact⟩
    have hfit := tasksFit_of_pullsExactly h hw hb hdev hexact
    obtain rfl := Option.some_inj.mp (hdev.symm.trans (deviceLaunch_eq h hw hb hfit))
    exact ⟨covered_of_pullsExactly h hexact, hfit⟩
  · rintro ⟨hcover, hfit⟩
    exact ⟨ops, deviceLaunch_eq h hw hb hfit, (pullsExactly_iff_covered h).mpr hcover⟩

end Device

/-- Three peers, one program, five bytes in elements of four. -/
def threePeers : PullLaunchArgs where
  call := 0
  selfGlobalRank := 0
  groupRanks := [0, 1, 2]
  dstOffset := 0
  commBufOffset := 0
  selfLocalIndex := 0
  sliceBytes := 5
  vecBytes := 4
  numSms := 1

theorem group_pull_copies_iff_witness :
    ∃ dev, deviceLaunch .allGather { threePeers with numSms := 3 } = some dev ∧
      PullsExactly .allGather { threePeers with numSms := 3 } dev :=
  (group_pull_copies_iff (by rfl) (Or.inr (Or.inr (Or.inl rfl))) rfl).mpr
    ⟨Or.inr (by decide), ⟨by unfold VectorFits; decide, by decide, by decide, by decide⟩⟩

/-- Three peers with one program: the fifth bytes of two of them are not copied. -/
theorem tails_can_be_missed :
    ¬ ∀ (kind : Collective) (a : PullLaunchArgs) (ops : List (Op DataAct)),
      IsVecWidth a.vecBytes → a.blockBytes = defaultBlockBytes →
      Runtime.launchPull kind a = .ok ops →
      ∃ dev, a.deviceLaunch kind = some dev ∧ PullsExactly kind a dev := by
  intro h
  obtain ⟨dev, hdev, hexact⟩ := h .allGather threePeers _ (Or.inr (Or.inr (Or.inl rfl))) rfl rfl
  have hfit : threePeers.TasksFit (threePeers.pulledBytes .allGather) :=
    ⟨by unfold VectorFits; decide, by decide, by decide, by decide⟩
  have hsame := deviceLaunch_eq rfl (Or.inr (Or.inr (Or.inl rfl))) rfl hfit
  obtain rfl := Option.some_inj.mp (hsame.symm.trans hdev)
  rcases covered_of_pullsExactly rfl hexact with hdvd | hle
  · exact absurd hdvd (by decide)
  · exact absurd hle (by decide)

end PullLaunchArgs

end GroupFreeCollectives
