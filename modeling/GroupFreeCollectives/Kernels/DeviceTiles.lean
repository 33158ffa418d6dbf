import GroupFreeCollectives.Kernels.Engines
import GroupFreeCollectives.Lib.DeviceInt

/-!
# Tile loops in device integers

The host sizes a grid in unbounded integers, and the programs compute the same tile counts
in integers whose width depends on the argument: 32 bits below `2 ^ 31`, 64 bits from there
on.  `TileLoop` is the index arithmetic of a kernel in these integers, and `Exact` says that
it gives the host's numbers: the tile count, the loop variable in every round that is
reached, and the tile and its offset in every round that runs.  An exact loop visits every
tile of every peer (`Exact.covers`).

The vector kernels cast the program id to 64 bits.  What can wrap there is the addition of
`cdiv`, when an argument of elements of one byte is less than a block below a width's end.
The TMA kernels leave the program id in 32 bits, so that the offset of a tile wraps past
`2 ^ 31` bytes, whatever the width of the argument.
-/

namespace GroupFreeCollectives

open Tiling DeviceInt DInt

/-! ## The loops -/

/-- The index arithmetic of a persistent tile loop. -/
structure TileLoop where
  nTiles : DInt
  total : DInt
  /-- the loop variable of a program at the start -/
  first : ℕ → DInt
  stride : DInt
  /-- the width of the loop variable -/
  wide : Bool
  tile : DInt → DInt
  peerDelta : DInt → DInt
  /-- where a tile starts -/
  offset : DInt → DInt

namespace TileLoop

/-- The loop variable of a program in a round. -/
def task (l : TileLoop) (pid : ℕ) : ℕ → DInt
  | 0 => l.first pid
  | k + 1 => (l.task pid k + l.stride).cast l.wide

/-- `tl.program_id(0)`, and `tl.num_programs(0)` of so many programs. -/
def programId (pid : ℕ) : DInt := ⟨false, wrap false pid⟩

/-- `all_gather_pull_kernel` and `all2all_pull_kernel`. -/
def groupPull (copyBytes eltBytes blockElts groupSize numPrograms : ℕ) : TileLoop where
  nTiles := DInt.cdiv (lit copyBytes / lit eltBytes) (lit blockElts)
  total := lit groupSize * DInt.cdiv (lit copyBytes / lit eltBytes) (lit blockElts)
  first pid := (programId pid).cast true
  stride := (programId numPrograms).cast true
  wide := true
  tile task := task / lit groupSize
  peerDelta task := task - task / lit groupSize * lit groupSize
  offset tilePid := tilePid * lit blockElts

/-- `pull_copy_kernel`. -/
def pullCopy (nbytes eltBytes blockElts numPrograms : ℕ) : TileLoop where
  nTiles := DInt.cdiv (lit nbytes / lit eltBytes) (lit blockElts)
  total := DInt.cdiv (lit nbytes / lit eltBytes) (lit blockElts)
  first pid := (programId pid).cast true
  stride := (programId numPrograms).cast true
  wide := true
  tile task := task
  peerDelta _ := lit 0
  offset tilePid := tilePid * lit blockElts

/-- `_all_gather_tma_persistent_kernel` and `_all2all_tma_persistent_kernel`. -/
def groupTma (sliceBytes blockN groupSize numSms : ℕ) : TileLoop where
  nTiles := DInt.cdiv (lit sliceBytes) (lit blockN)
  total := lit groupSize * DInt.cdiv (lit sliceBytes) (lit blockN)
  first := programId
  stride := lit numSms
  wide := false
  tile pid := pid / lit groupSize
  peerDelta pid := pid - pid / lit groupSize * lit groupSize
  offset tileCol := tileCol * lit blockN

/-- `_p2p_tma_persistent_kernel`. -/
def p2pTma (nbytes blockN numSms : ℕ) : TileLoop where
  nTiles := DInt.cdiv (lit nbytes) (lit blockN)
  total := DInt.cdiv (lit nbytes) (lit blockN)
  first := programId
  stride := lit numSms
  wide := false
  tile pid := pid
  peerDelta _ := lit 0
  offset pid := pid * lit blockN

end TileLoop

/-! ## The host's numbers -/

/-- The exact numbers: the tiles of a peer, the peers, the size of a tile, the programs of the
grid and the stride of their loops. -/
structure HostTiles where
  nTiles : ℕ
  groupSize : ℕ
  block : ℕ
  programs : ℕ
  stride : ℕ

namespace HostTiles

/-- All tiles of all peers. -/
def total (h : HostTiles) : ℕ := h.groupSize * h.nTiles

/-- Round `k` of a program is reached: the earlier ones have run. -/
def Reached (h : HostTiles) (pid k : ℕ) : Prop := ∀ j < k, pid + j * h.stride < h.total

end HostTiles

namespace TileLoop

/-- The device computes the host's numbers. -/
structure Exact (l : TileLoop) (h : HostTiles) : Prop where
  nTiles : l.nTiles.val = h.nTiles
  total : l.total.val = h.total
  task : ∀ pid k, pid < h.programs → h.Reached pid k →
    (l.task pid k).val = (pid + k * h.stride : ℕ)
  tile : ∀ pid k, pid < h.programs → pid + k * h.stride < h.total →
    (l.tile (l.task pid k)).val = ((pid + k * h.stride) / h.groupSize : ℕ) ∧
    (l.peerDelta (l.task pid k)).val = ((pid + k * h.stride) % h.groupSize : ℕ) ∧
    (l.offset (l.tile (l.task pid k))).val =
      ((pid + k * h.stride) / h.groupSize * h.block : ℕ)

/-- The programs visit every tile of every peer, in a round they reach. -/
def Covers (l : TileLoop) (h : HostTiles) : Prop :=
  ∀ tile lane, tile < h.nTiles → lane < h.groupSize → ∃ pid < h.programs, ∃ k,
    (∀ j ≤ k, (l.task pid j).val < l.total.val) ∧
      (l.offset (l.tile (l.task pid k))).val = (tile * h.block : ℕ) ∧
      (l.peerDelta (l.task pid k)).val = lane

variable {l : TileLoop} {h : HostTiles}

theorem reached_of_lt {pid k : ℕ} (hlt : pid + k * h.stride < h.total) : h.Reached pid k := by
  intro j hj
  have hmul := Nat.mul_le_mul_right h.stride hj.le
  omega

/-- **An exact loop leaves no tile out.** -/
theorem Exact.covers (hl : l.Exact h) (hstride : 0 < h.stride)
    (hprograms : ∀ pid, pid < h.stride → pid < h.total → pid < h.programs) : l.Covers h := by
  intro tile lane htile hlane
  have hlt : tile * h.groupSize + lane < h.total := by
    calc tile * h.groupSize + lane < (tile + 1) * h.groupSize := by
          rw [Nat.succ_mul]
          omega
      _ ≤ h.nTiles * h.groupSize := Nat.mul_le_mul_right _ htile
      _ = h.total := Nat.mul_comm _ _
  have hsum : (tile * h.groupSize + lane) % h.stride +
      (tile * h.groupSize + lane) / h.stride * h.stride = tile * h.groupSize + lane :=
    Nat.mod_add_div' _ _
  have hpid : (tile * h.groupSize + lane) % h.stride < h.programs :=
    hprograms _ (Nat.mod_lt _ hstride) (by omega)
  have hrun := hl.tile _ ((tile * h.groupSize + lane) / h.stride) hpid (by omega)
  obtain ⟨hdiv, hmod⟩ := (pair_eq_iff (i := tile) hlane).mp rfl
  rw [hsum, ← hdiv, ← hmod] at hrun
  refine ⟨_, hpid, _, fun j hj => ?_, hrun.2.2, hrun.2.1⟩
  have hmul := Nat.mul_le_mul_right h.stride hj
  have hj' : (tile * h.groupSize + lane) % h.stride + j * h.stride < h.total := by omega
  rw [hl.task _ _ hpid (reached_of_lt hj'), hl.total]
  exact_mod_cast hj'

/-! ## When loops are exact -/

theorem bound_le_bound_or (a b : Bool) : bound a ≤ bound (a || b) := by
  cases a <;> cases b <;> simp

/-- The loop variable is exact while its next value fits. -/
theorem task_eq (hfirst : ∀ pid < h.programs, l.first pid = ⟨l.wide, (pid : ℕ)⟩)
    (hstride : l.stride.val = h.stride)
    (hroom : ((h.total + h.stride : ℕ) : ℤ) ≤ bound l.wide) {pid : ℕ} (hpid : pid < h.programs)
    (k : ℕ) (hreached : h.Reached pid k) :
    l.task pid k = ⟨l.wide, (pid + k * h.stride : ℕ)⟩ := by
  induction k with
  | zero => rw [task, hfirst pid hpid, Nat.zero_mul, Nat.add_zero]
  | succ k ih =>
    have hlt := hreached k (Nat.lt_succ_self k)
    have hfits : ((pid + k * h.stride + h.stride : ℕ) : ℤ) < bound l.wide := by omega
    have hprev := ih fun j hj => hreached j (Nat.lt_succ_of_lt hj)
    have hsum : (l.task pid k + l.stride).val = (pid + k * h.stride + h.stride : ℕ) := by
      refine add_nat (by rw [hprev]) hstride ?_
      rw [hprev]
      exact lt_of_lt_of_le hfits (bound_le_bound_or _ _)
    rw [task, DInt.cast, hsum, wrap_of_fits (Int.natCast_nonneg _) hfits, Nat.succ_mul,
      Nat.add_assoc]

/-- A loop is exact if the counts are, the loop variable has room for one stride more than it
needs, and the index of a tile is computed exactly. -/
theorem exact_of (hnTiles : l.nTiles.val = h.nTiles) (htotal : l.total.val = h.total)
    (hfirst : ∀ pid < h.programs, l.first pid = ⟨l.wide, (pid : ℕ)⟩)
    (hstride : l.stride.val = h.stride)
    (hroom : ((h.total + h.stride : ℕ) : ℤ) ≤ bound l.wide)
    (hindex : ∀ t : ℕ, t < h.total →
      (l.tile ⟨l.wide, t⟩).val = (t / h.groupSize : ℕ) ∧
      (l.peerDelta ⟨l.wide, t⟩).val = (t % h.groupSize : ℕ) ∧
      (l.offset (l.tile ⟨l.wide, t⟩)).val = (t / h.groupSize * h.block : ℕ)) : l.Exact h where
  nTiles := hnTiles
  total := htotal
  task pid k hpid hreached := by rw [task_eq hfirst hstride hroom hpid k hreached]
  tile pid k hpid hlt := by
    rw [task_eq hfirst hstride hroom hpid k (reached_of_lt hlt)]
    exact hindex _ hlt

end TileLoop

/-! ## Tile counts -/

/-- The elements of the argument that the addition of `cdiv` is made with fit with it. -/
def CountFits (nbytes eltBytes block : ℕ) : Prop :=
  nbytes < 2 ^ 63 ∧ (nbytes < 2 ^ 31 → nbytes / eltBytes + block ≤ 2 ^ 31) ∧
    nbytes / eltBytes + block ≤ 2 ^ 63

section Counts

variable {n e d : ℕ}

theorem lit_div_lit (hn : n < 2 ^ 63) (he : e < 2 ^ 31) :
    (lit n / lit e).val = (n / e : ℕ) ∧ (lit n / lit e).wide = decide (2 ^ 31 ≤ n) := by
  obtain ⟨hval, hwide⟩ := lit_val hn
  have hlit := lit_of_lt he
  have hor : ((lit n).wide || (lit e).wide) = decide (2 ^ 31 ≤ n) := by
    rw [hwide, hlit, Bool.or_false]
  have hval' : (lit e).val = e := by rw [hlit]
  refine ⟨div_nat hval hval' ?_, (wide_div _ _).trans hor⟩
  rw [hor]
  by_cases h : 2 ^ 31 ≤ n
  · rw [decide_eq_true h, bound_true]
    omega
  · rw [decide_eq_false h, bound_false]
    omega

/-- **The tile count is exact exactly when the addition fits.** -/
theorem cdiv_lit_eq_iff (hn : 0 < n) (he : IsVecWidth e) (hd : 0 < d) (hd' : d ≤ 2 ^ 16) :
    (DInt.cdiv (lit n / lit e) (lit d)).val = (Tiling.cdiv (n / e) d : ℕ) ↔ CountFits n e d := by
  have he' : 0 < e ∧ e ≤ 16 := by
    rcases he with rfl | rfl | rfl | rfl <;> decide
  by_cases hfit : n < 2 ^ 63
  · obtain ⟨hval, hwide⟩ := lit_div_lit hfit (by omega : e < 2 ^ 31)
    have hle := Nat.div_le_self n e
    have hbound : ((n / e : ℕ) : ℤ) < bound (lit n / lit e).wide := by
      rw [hwide]
      by_cases h : 2 ^ 31 ≤ n
      · rw [decide_eq_true h, bound_true]
        omega
      · rw [decide_eq_false h, bound_false]
        omega
    rw [cdiv_eq_iff hval hbound hd (by omega), hwide, CountFits]
    by_cases h : 2 ^ 31 ≤ n
    · rw [decide_eq_true h, bound_true]
      omega
    · rw [decide_eq_false h, bound_false]
      omega
  · refine iff_of_false (ne_of_lt ?_) fun h => hfit h.1
    -- the argument itself does not fit, and what is left of it is too small
    have hlit : lit n = ⟨true, wrap true n⟩ := by
      rw [lit, if_neg (by omega)]
    have hlit' : lit e = ⟨false, (e : ℕ)⟩ := lit_of_lt (by omega)
    have hwide : (lit n / lit e).wide = true := by
      rw [wide_div, hlit, Bool.true_or]
    have hval : (lit n / lit e).val = wrap true ((wrap true n).tdiv e) := by
      rw [div_val, hlit, hlit', Bool.true_or]
    have hturn : wrap true (n : ℤ) ≤ n - 2 * bound true := wrap_le_sub (by rw [bound_true]; omega)
    rw [bound_true] at hturn
    obtain ⟨m, hm⟩ : ∃ m : ℕ, m = n - 2 ^ 64 := ⟨_, rfl⟩
    have hquot : (wrap true (n : ℤ)).tdiv e ≤ (m / e : ℕ) := by
      rw [Int.ofNat_tdiv]
      exact Int.tdiv_le_tdiv (by omega) (by omega)
    have hle : (lit n / lit e).val ≤ (m / e : ℕ) := by
      rw [hval]
      exact le_trans (wrap_le (neg_le_tdiv (bound_pos true).le (neg_bound_le_wrap true _))) hquot
    have hroom : m / e + d ≤ n / e := by
      rcases he with rfl | rfl | rfl | rfl <;> omega
    have hpos : 0 < n / e := lt_of_lt_of_le hd (le_trans (Nat.le_add_left _ _) hroom)
    generalize m / e = q, n / e = q' at hle hroom hpos ⊢
    refine cdiv_lt (by omega) hpos hd (by omega) ?_
    rw [hwide, hval]
    exact neg_bound_le_wrap true _

/-- The product with a group size has room. -/
theorem mul_cdiv_eq {x : DInt} {G m : ℕ} (hfit : n < 2 ^ 63) (hG : G ≤ 16) (hd : 2 ^ 12 ≤ d)
    (hm : m ≤ n) (hx : x.val = (Tiling.cdiv m d : ℕ)) (hwide : x.wide = decide (2 ^ 31 ≤ n)) :
    (lit G * x).val = (G * Tiling.cdiv m d : ℕ) ∧ G * Tiling.cdiv m d ≤ 2 ^ 60 := by
  have htiles : (Tiling.cdiv m d - 1) * 2 ^ 12 ≤ m := by
    rcases Nat.eq_zero_or_pos (Tiling.cdiv m d) with h0 | hpos
    · rw [h0, Nat.zero_sub, Nat.zero_mul]
      exact Nat.zero_le m
    · have hlast := (Tiling.lt_cdiv_iff (by omega : 0 < d)).mp (by omega :
        Tiling.cdiv m d - 1 < Tiling.cdiv m d)
      exact le_trans (Nat.mul_le_mul_left _ hd) hlast.le
  have hmul : G * Tiling.cdiv m d ≤ 16 * Tiling.cdiv m d := Nat.mul_le_mul_right _ hG
  have hlit : lit G = ⟨false, (G : ℕ)⟩ := lit_of_lt (by omega)
  refine ⟨mul_nat (by rw [hlit]) hx ?_, by omega⟩
  rw [hlit, hwide, Bool.false_or]
  by_cases h : 2 ^ 31 ≤ n
  · rw [decide_eq_true h, bound_true]
    omega
  · rw [decide_eq_false h, bound_false]
    omega

theorem lit_div_one (n : ℕ) : lit n / lit 1 = lit n := by
  have hone : lit 1 = ⟨false, (1 : ℕ)⟩ := lit_of_lt (by norm_num)
  have hmem : ∀ w x, (⟨w, wrap w x⟩ : DInt) / lit 1 = ⟨w, wrap w x⟩ := by
    intro w x
    have hwide : ((⟨w, wrap w x⟩ : DInt) / lit 1).wide = w := by
      rw [wide_div, hone, Bool.or_false]
    have hval : ((⟨w, wrap w x⟩ : DInt) / lit 1).val = wrap w x := by
      rw [div_val, hone, Bool.or_false, Nat.cast_one, Int.tdiv_one]
      exact wrap_of_mem (neg_bound_le_wrap w x) (wrap_lt_bound w x)
    exact congrArg₂ DInt.mk hwide hval
  by_cases h : (n : ℤ) < 2 ^ 31
  · rw [lit, if_pos h]
    exact hmem _ _
  · rw [lit, if_neg h]
    exact hmem _ _

/-- The tile count of a TMA kernel. -/
theorem cdiv_lit_eq_iff_bytes (hn : 0 < n) (hd : 0 < d) (hd' : d ≤ 2 ^ 16) :
    (DInt.cdiv (lit n) (lit d)).val = (Tiling.cdiv n d : ℕ) ↔ CountFits n 1 d := by
  have h := cdiv_lit_eq_iff (e := 1) hn (Or.inr (Or.inr (Or.inr rfl))) hd hd'
  have hone : ((1 : ℕ) : ℤ) = 1 := rfl
  rwa [hone, lit_div_one, Nat.div_one] at h

end Counts

/-! ## The index of a tile -/

section Index

variable {t G : ℕ} {w : Bool}

/-- The tile and the lane of a task that fits, if it is at least as wide as the group size. -/
theorem group_index (hG : G < 2 ^ 63) (hwide : G < 2 ^ 31 ∨ w = true) (ht : (t : ℤ) < bound w) :
    (⟨w, t⟩ / lit G : DInt) = ⟨w, (t / G : ℕ)⟩ ∧
      ((⟨w, t⟩ - ⟨w, t⟩ / lit G * lit G : DInt)).val = (t % G : ℕ) := by
  obtain ⟨hlit, hor⟩ := lit_val hG
  have hor : (w || (lit G).wide) = w := by
    rcases hwide with hlt | rfl
    · rw [hor, decide_eq_false (not_le.mpr hlt), Bool.or_false]
    · rw [Bool.true_or]
  have hdiv : (⟨w, t⟩ / lit G : DInt) = ⟨w, (t / G : ℕ)⟩ := by
    have hval : (⟨w, t⟩ / lit G : DInt).val = (t / G : ℕ) :=
      div_nat rfl hlit (by rw [hor]; exact ht)
    exact congrArg₂ DInt.mk hor hval
  have hmul : (⟨w, (t / G : ℕ)⟩ * lit G : DInt) = ⟨w, (t / G * G : ℕ)⟩ := by
    have hle : ((t / G * G : ℕ) : ℤ) ≤ t := by exact_mod_cast Nat.div_mul_le_self t G
    have hval : (⟨w, (t / G : ℕ)⟩ * lit G : DInt).val = (t / G * G : ℕ) :=
      mul_nat rfl hlit (by rw [hor]; omega)
    exact congrArg₂ DInt.mk hor hval
  refine ⟨hdiv, ?_⟩
  rw [hdiv, hmul]
  have hmod : t % G = t - t / G * G := Nat.mod_eq_sub_div_mul
  rw [hmod]
  refine sub_nat rfl rfl (Nat.div_mul_le_self t G) ?_
  rw [Bool.or_self]
  exact ht

/-- Where a tile starts, in the width of the tile number. -/
theorem offset_index {d : ℕ} (hd : d < 2 ^ 31) :
    (⟨w, t⟩ * lit d : DInt).val = wrap w (t * d : ℕ) := by
  rw [mul_val, lit_of_lt hd, Nat.cast_mul]
  exact congrArg (fun w => wrap w _) (Bool.or_false w)

end Index

/-! ## The vector kernels -/

namespace TileLoop

variable {l : TileLoop} {h : HostTiles}

/-- A program number in 64 bits. -/
theorem programId_cast {p : ℕ} (hp : p < 2 ^ 31) : (programId p).cast true = ⟨true, (p : ℕ)⟩ := by
  have hval : wrap false (p : ℤ) = p :=
    wrap_of_fits (Int.natCast_nonneg p) (by rw [bound_false]; omega)
  rw [programId, DInt.cast, hval, wrap_of_fits (Int.natCast_nonneg p) (by rw [bound_true]; omega)]

/-- An exact loop in 64 bits has a grid that a program number can count. -/
theorem programs_lt_of_exact (hl : l.Exact h) (hwide : l.wide = true)
    (hfirst : ∀ p, l.first p = (programId p).cast true)
    (hstride : l.stride = (programId h.stride).cast true) (hprog : h.programs = h.stride)
    (hpos : 0 < h.programs) (hlarge : 2 ^ 31 ≤ h.programs → 2 ^ 31 ≤ h.total) :
    h.programs < 2 ^ 31 := by
  by_contra hmany
  -- the second round starts from a stride that does not fit
  have hreached : h.Reached 0 1 := by
    intro j hj
    obtain rfl : j = 0 := by omega
    omega
  have htask := hl.task 0 1 hpos hreached
  have hzero : l.first 0 = ⟨true, ((0 : ℕ) : ℤ)⟩ := by
    rw [hfirst, programId_cast (by norm_num)]
  have hlt := wrap_lt_bound false (h.stride : ℤ)
  have hge := neg_bound_le_wrap false (h.stride : ℤ)
  have hnarrow : l.stride.val = wrap false h.stride := by
    rw [hstride]
    refine wrap_of_mem ?_ ?_
    · exact le_trans (by rw [bound_true, bound_false]; norm_num) hge
    · exact lt_trans hlt (by rw [bound_true, bound_false]; norm_num)
  rw [task, task, DInt.cast, hwide, add_val, hzero, hnarrow] at htask
  rw [bound_false] at hlt hge
  have hsum : wrap true (wrap true (((0 : ℕ) : ℤ) + wrap false h.stride)) =
      wrap false h.stride := by
    rw [Nat.cast_zero, zero_add, wrap_of_mem (x := wrap false h.stride), wrap_of_mem] <;>
      rw [bound_true] <;> omega
  have hor : (true || l.stride.wide) = true := Bool.true_or _
  dsimp only at htask
  rw [hor, hsum] at htask
  omega

/-- The loops of the vector kernels: in 64 bits, but for what the program id and the number
of programs can hold. -/
theorem vector_exact_iff {fits : Prop} (hwide : l.wide = true)
    (hfirst : ∀ p, l.first p = (programId p).cast true)
    (hstride : l.stride = (programId h.stride).cast true) (hprog : h.programs = h.stride)
    (hpos : 0 < h.programs) (hlarge : 2 ^ 31 ≤ h.programs → 2 ^ 31 ≤ h.total)
    (hcount : l.nTiles.val = h.nTiles ↔ fits) (htotal : fits → l.total.val = h.total)
    (hroom : fits → h.total ≤ 2 ^ 60)
    (hindex : fits → ∀ t : ℕ, t < h.total →
      (l.tile ⟨true, t⟩).val = (t / h.groupSize : ℕ) ∧
      (l.peerDelta ⟨true, t⟩).val = (t % h.groupSize : ℕ) ∧
      (l.offset (l.tile ⟨true, t⟩)).val = (t / h.groupSize * h.block : ℕ)) :
    l.Exact h ↔ fits ∧ h.programs < 2 ^ 31 := by
  constructor
  · intro hl
    exact ⟨hcount.mp hl.nTiles,
      programs_lt_of_exact hl hwide hfirst hstride hprog hpos hlarge⟩
  · rintro ⟨hfits, hfew⟩
    refine exact_of (hcount.mpr hfits) (htotal hfits) (fun p hp => ?_) ?_ ?_ ?_
    · rw [hfirst, programId_cast (by omega), hwide]
    · rw [hstride, programId_cast (by omega)]
    · have := hroom hfits
      rw [hwide, bound_true]
      omega
    · rw [hwide]
      exact hindex hfits

/-! ## The TMA kernels -/

theorem task_wide (hfirst : ∀ p, (l.first p).wide = l.wide) (p k : ℕ) :
    (l.task p k).wide = l.wide := by
  cases k with
  | zero => exact hfirst p
  | succ k => rfl

theorem programId_of_lt {p : ℕ} (hp : p < 2 ^ 31) : programId p = ⟨false, (p : ℕ)⟩ := by
  rw [programId, wrap_of_fits (Int.natCast_nonneg p) (by rw [bound_false]; omega)]

/-- An exact loop in 32 bits comes to every task, and has room for one stride more. -/
theorem task_of_exact (hl : l.Exact h) (hs : 0 < h.stride) (hwide : l.wide = false)
    (hfirst : l.first = programId) (hprog : h.programs = min h.stride h.total) {t : ℕ}
    (ht : t < h.total) :
    l.task (t % h.stride) (t / h.stride) = ⟨false, (t : ℕ)⟩ ∧ t + h.stride < 2 ^ 31 := by
  have hsum : t % h.stride + t / h.stride * h.stride = t := Nat.mod_add_div' t h.stride
  have hmod := Nat.mod_lt t hs
  have hpid : t % h.stride < h.programs := by
    rw [hprog]
    exact lt_min hmod (by omega)
  have hlast := hl.task _ _ hpid (reached_of_lt (lt_of_eq_of_lt hsum ht))
  have hnext := hl.task _ (t / h.stride + 1) hpid fun j hj => by
    have := Nat.mul_le_mul_right h.stride (Nat.lt_succ_iff.mp hj)
    omega
  rw [hsum] at hlast
  rw [Nat.succ_mul, ← Nat.add_assoc, hsum] at hnext
  have hfits := wrap_lt_bound false ((l.task (t % h.stride) (t / h.stride) + l.stride).val)
  refine ⟨congrArg₂ DInt.mk ((task_wide (fun p => ?_) _ _).trans hwide) hlast, ?_⟩
  · rw [hfirst, hwide]
    rfl
  · rw [task, DInt.cast, hwide] at hnext
    dsimp only at hnext
    rw [hnext, bound_false] at hfits
    omega

/-- The loops of the TMA kernels: in 32 bits, for tiles of `2 ^ 16` bytes. -/
theorem tma_exact_iff {n : ℕ} (hn : 0 < n) (hG : 0 < h.groupSize) (hG16 : h.groupSize ≤ 16)
    (hs : 0 < h.stride) (hblock : h.block = 2 ^ 16) (htiles : h.nTiles = Tiling.cdiv n (2 ^ 16))
    (hwide : l.wide = false) (hfirst : l.first = programId) (hstride : l.stride = lit h.stride)
    (hprog : h.programs = min h.stride h.total)
    (hcount : l.nTiles.val = h.nTiles ↔ CountFits n 1 (2 ^ 16))
    (htotal : CountFits n 1 (2 ^ 16) → l.total.val = h.total)
    (htile : ∀ t : ℕ, t < 2 ^ 31 → l.tile ⟨false, t⟩ = ⟨false, (t / h.groupSize : ℕ)⟩ ∧
      (l.peerDelta ⟨false, t⟩).val = (t % h.groupSize : ℕ))
    (hoffset : ∀ t : ℕ, (l.offset ⟨false, t⟩).val = wrap false (t * 2 ^ 16 : ℕ)) :
    l.Exact h ↔ (n + 2 ^ 16 ≤ 2 ^ 31 ∨ n = 2 ^ 31) ∧ h.total + h.stride ≤ 2 ^ 31 := by
  have hcols : ∀ col, col < h.nTiles ↔ col * 2 ^ 16 < n := fun col => by
    rw [htiles]
    exact lt_cdiv_iff (by norm_num)
  have hpos : 0 < h.nTiles := (hcols 0).mpr (by omega)
  have htotalPos : 0 < h.total := Nat.mul_pos hG hpos
  constructor
  · intro hl
    have htask := fun t (ht : t < h.total) => task_of_exact hl hs hwide hfirst hprog ht
    have hroom := (htask (h.total - 1) (by omega)).2
    refine ⟨?_, by omega⟩
    by_contra hbytes
    -- the tile at `2 ^ 31` starts at a wrapped offset
    have hfits := hcount.mp hl.nTiles
    have hlarge : 2 ^ 31 < n := by
      have hnarrow := hfits.2.1
      rw [Nat.div_one] at hnarrow
      omega
    have hcol : 2 ^ 15 < h.nTiles := (hcols _).mpr (by omega)
    have ht : 2 ^ 15 * h.groupSize < h.total := by
      rw [HostTiles.total, Nat.mul_comm]
      exact Nat.mul_lt_mul_of_pos_left hcol hG
    have hsum := Nat.mod_add_div' (2 ^ 15 * h.groupSize) h.stride
    obtain ⟨hval, -⟩ := htask _ ht
    have hexact := (hl.tile (2 ^ 15 * h.groupSize % h.stride) (2 ^ 15 * h.groupSize / h.stride)
      (by rw [hprog]; exact lt_min (Nat.mod_lt _ hs) (by omega)) (by omega)).2.2
    rw [hval, (htile _ (by omega)).1, hoffset, hsum, Nat.mul_div_cancel _ hG, hblock] at hexact
    have hlt := wrap_lt_bound false ((2 ^ 15 * 2 ^ 16 : ℕ) : ℤ)
    rw [hexact, bound_false] at hlt
    omega
  · rintro ⟨hbytes, hroom⟩
    have hfits : CountFits n 1 (2 ^ 16) := by
      rw [CountFits, Nat.div_one]
      omega
    refine exact_of (hcount.mpr hfits) (htotal hfits) (fun p hp => ?_) ?_ ?_ fun t ht => ?_
    · have hp' := lt_of_lt_of_le hp (hprog.le.trans (min_le_right _ _))
      rw [hfirst, hwide, programId_of_lt (by omega)]
    · rw [hstride, lit_of_lt (by omega)]
    · rw [hwide, bound_false]
      omega
    · have hcol : t / h.groupSize < h.nTiles := Nat.div_lt_of_lt_mul ht
      have hoff := (hcols _).mp hcol
      rw [hwide, (htile t (by omega)).1, hoffset, hblock]
      refine ⟨rfl, (htile t (by omega)).2, wrap_of_fits (Int.natCast_nonneg _) ?_⟩
      rw [bound_false]
      omega

end TileLoop

/-! ## The launches -/

/-- The host's numbers of a group pull launch. -/
def PullLaunchArgs.hostTiles (a : PullLaunchArgs) (copyBytes : ℕ) : HostTiles where
  nTiles := a.nBlock copyBytes
  groupSize := a.groupRanks.length
  block := max (a.blockBytes / dtypeForVec a.vecBytes) 1
  programs := a.grid copyBytes
  stride := a.grid copyBytes

/-- The device's loop of a group pull launch. -/
def PullLaunchArgs.tileLoop (a : PullLaunchArgs) (copyBytes : ℕ) : TileLoop :=
  .groupPull copyBytes (dtypeForVec a.vecBytes) (max (a.blockBytes / dtypeForVec a.vecBytes) 1)
    a.groupRanks.length (a.grid copyBytes)

/-- The grid of `launch_pull_copy`. -/
def pullCopyGrid (nbytes vecBytes : ℕ) (numSms : ℤ) : ℕ :=
  let eltBytes := dtypeForVec vecBytes
  let blockElts := max (defaultBlockBytes / eltBytes) 1
  min numSms.toNat (if 0 < nbytes / eltBytes then cdiv (nbytes / eltBytes) blockElts else 1)

/-- The host's numbers of `launch_pull_copy`. -/
def pullCopyHost (nbytes vecBytes : ℕ) (numSms : ℤ) : HostTiles where
  nTiles := cdiv (nbytes / dtypeForVec vecBytes) (max (defaultBlockBytes / dtypeForVec vecBytes) 1)
  groupSize := 1
  block := max (defaultBlockBytes / dtypeForVec vecBytes) 1
  programs := pullCopyGrid nbytes vecBytes numSms
  stride := pullCopyGrid nbytes vecBytes numSms

/-- The device's loop of `launch_pull_copy`. -/
def pullCopyLoop (nbytes vecBytes : ℕ) (numSms : ℤ) : TileLoop :=
  .pullCopy nbytes (dtypeForVec vecBytes) (max (defaultBlockBytes / dtypeForVec vecBytes) 1)
    (pullCopyGrid nbytes vecBytes numSms)

/-- The host's numbers of a group TMA launch. -/
def TmaLaunchArgs.hostTiles (a : TmaLaunchArgs) : HostTiles where
  nTiles := a.innerTiles
  groupSize := a.groupRanks.length
  block := a.tileBytes
  programs := min a.numSms (a.groupRanks.length * a.innerTiles)
  stride := a.numSms

/-- The device's loop of a group TMA launch. -/
def TmaLaunchArgs.tileLoop (a : TmaLaunchArgs) : TileLoop :=
  .groupTma a.sliceBytes a.tileBytes a.groupRanks.length a.numSms

/-- The host's numbers of `launch_p2p_copy_tma`. -/
def p2pTmaHost (nbytes tileBytes numSms : ℕ) : HostTiles where
  nTiles := cdiv nbytes tileBytes
  groupSize := 1
  block := tileBytes
  programs := min numSms (cdiv nbytes tileBytes)
  stride := numSms

/-! ## Which launches are exact -/

section Launches

variable {n : ℕ}

theorem blockElts_bounds {w : ℕ} (hw : IsVecWidth w) :
    2 ^ 12 ≤ max (defaultBlockBytes / w) 1 ∧ max (defaultBlockBytes / w) 1 ≤ 2 ^ 16 := by
  rcases hw with rfl | rfl | rfl | rfl <;> decide

/-- The tile count of the vector kernels. -/
theorem vector_count {w : ℕ} (hn : 0 < n) (hw : IsVecWidth w) :
    (DInt.cdiv (lit n / lit w) (lit (max (defaultBlockBytes / w) 1 : ℕ))).val =
      (Tiling.cdiv (n / w) (max (defaultBlockBytes / w) 1) : ℕ) ↔
        CountFits n w (max (defaultBlockBytes / w) 1) := by
  have hd := blockElts_bounds hw
  exact cdiv_lit_eq_iff hn hw (by omega) hd.2

/-- The number of tasks of the vector kernels. -/
theorem vector_total {w G : ℕ} (hn : 0 < n) (hw : IsVecWidth w) (hG : G ≤ 16)
    (hfits : CountFits n w (max (defaultBlockBytes / w) 1)) :
    (lit G * DInt.cdiv (lit n / lit w) (lit (max (defaultBlockBytes / w) 1 : ℕ))).val =
        (G * Tiling.cdiv (n / w) (max (defaultBlockBytes / w) 1) : ℕ) ∧
      G * Tiling.cdiv (n / w) (max (defaultBlockBytes / w) 1) ≤ 2 ^ 60 := by
  have hd := blockElts_bounds hw
  have hw16 : w ≤ 16 := by
    rcases hw with rfl | rfl | rfl | rfl <;> decide
  refine mul_cdiv_eq hfits.1 hG hd.1 (Nat.div_le_self n w) ((vector_count hn hw).mpr hfits) ?_
  rw [wide_cdiv (by omega)]
  exact (lit_div_lit hfits.1 (by omega)).2

/-- **When the loop of a group pull launch is exact.** -/
theorem PullLaunchArgs.tileLoop_exact_iff {a : PullLaunchArgs} (hn : 0 < n)
    (hG : 0 < a.groupRanks.length) (hG16 : a.groupRanks.length ≤ 16)
    (hw : IsVecWidth a.vecBytes) (hs : 0 < a.numSms) (hb : a.blockBytes = defaultBlockBytes) :
    (a.tileLoop n).Exact (a.hostTiles n) ↔
      CountFits n a.vecBytes (max (defaultBlockBytes / a.vecBytes) 1) ∧ a.grid n < 2 ^ 31 := by
  have hd := blockElts_bounds hw
  have htotal : (a.hostTiles n).total = a.groupRanks.length *
      Tiling.cdiv (n / a.vecBytes) (max (defaultBlockBytes / a.vecBytes) 1) := by
    rw [HostTiles.total, hostTiles, nBlock, hw.dtypeForVec, hb]
  refine TileLoop.vector_exact_iff rfl (fun _ => rfl) rfl rfl (grid_pos hG hs) ?_ ?_ ?_ ?_ ?_
  · -- a grid is larger than the number of tasks only for the tails
    intro hmany
    have hgrid : a.grid n ≤ max (a.hostTiles n).total 16 := by
      have hle : ∀ b, b ≤ 16 → max (a.hostTiles n).total b ≤ max (a.hostTiles n).total 16 :=
        fun b hb => max_le_max_left _ hb
      refine le_trans (min_le_right _ _) ?_
      split_ifs
      · exact hle _ hG16
      · exact hle 1 (by norm_num)
    have : 2 ^ 31 ≤ a.grid n := hmany
    omega
  · rw [tileLoop, hostTiles, TileLoop.groupPull, nBlock, hw.dtypeForVec, hb]
    exact vector_count hn hw
  · intro hfits
    rw [htotal, tileLoop, TileLoop.groupPull, hw.dtypeForVec, hb]
    exact (vector_total hn hw hG16 hfits).1
  · intro hfits
    rw [htotal]
    exact (vector_total hn hw hG16 hfits).2
  · intro hfits t ht
    have hroom := (vector_total hn hw hG16 hfits).2
    rw [htotal] at ht
    have htile : t / a.groupRanks.length * max (defaultBlockBytes / a.vecBytes) 1 < n := by
      have hcol := (lt_cdiv_iff (by omega)).mp (Nat.div_lt_of_lt_mul ht)
      exact lt_of_lt_of_le hcol (Nat.div_le_self _ _)
    obtain ⟨hdiv, hmod⟩ := group_index (w := true) (t := t) (by omega : a.groupRanks.length < 2 ^ 63)
      (Or.inr rfl) (by rw [bound_true]; omega)
    rw [tileLoop, hostTiles, TileLoop.groupPull, hw.dtypeForVec, hb]
    refine ⟨congrArg DInt.val hdiv, hmod, ?_⟩
    dsimp only
    rw [hdiv, offset_index (by omega)]
    refine wrap_of_fits (Int.natCast_nonneg _) ?_
    rw [bound_true]
    have := hfits.1
    omega

theorem pullCopyGrid_pos {w : ℕ} {numSms : ℤ} (hw : IsVecWidth w) (hs : 0 < numSms) :
    0 < pullCopyGrid n w numSms := by
  have hd := blockElts_bounds hw
  rw [pullCopyGrid, hw.dtypeForVec]
  split_ifs with hfull
  · exact lt_min (by omega) ((lt_cdiv_iff (by omega)).mpr (by omega))
  · exact lt_min (by omega) Nat.one_pos

/-- **When the loop of `launch_pull_copy` is exact.** -/
theorem pullCopyLoop_exact_iff {w : ℕ} {numSms : ℤ} (hn : 0 < n) (hw : IsVecWidth w)
    (hs : 0 < numSms) : (pullCopyLoop n w numSms).Exact (pullCopyHost n w numSms) ↔
      CountFits n w (max (defaultBlockBytes / w) 1) ∧ pullCopyGrid n w numSms < 2 ^ 31 := by
  have hd := blockElts_bounds hw
  have htotal : (pullCopyHost n w numSms).total =
      1 * Tiling.cdiv (n / w) (max (defaultBlockBytes / w) 1) := by
    rw [HostTiles.total, pullCopyHost, hw.dtypeForVec]
  have hgrid : pullCopyGrid n w numSms ≤ max (pullCopyHost n w numSms).total 1 := by
    rw [htotal, pullCopyGrid, hw.dtypeForVec]
    split_ifs
    · exact le_trans (min_le_right _ _) (by omega)
    · exact le_trans (min_le_right _ _) (le_max_right _ _)
  refine TileLoop.vector_exact_iff rfl (fun _ => rfl) rfl rfl (pullCopyGrid_pos hw hs)
    ?_ ?_ ?_ ?_ ?_
  · intro hmany
    have : 2 ^ 31 ≤ pullCopyGrid n w numSms := hmany
    omega
  · rw [pullCopyLoop, pullCopyHost, TileLoop.pullCopy, hw.dtypeForVec]
    exact vector_count hn hw
  · intro hfits
    rw [htotal, Nat.one_mul, pullCopyLoop, TileLoop.pullCopy, hw.dtypeForVec]
    exact (vector_count hn hw).mpr hfits
  · intro hfits
    rw [htotal]
    exact (vector_total hn hw (by norm_num) hfits).2
  · intro hfits t ht
    rw [htotal, Nat.one_mul] at ht
    have htile : t * max (defaultBlockBytes / w) 1 < n :=
      lt_of_lt_of_le ((lt_cdiv_iff (by omega)).mp ht) (Nat.div_le_self _ _)
    rw [pullCopyLoop, pullCopyHost, TileLoop.pullCopy, hw.dtypeForVec]
    dsimp only
    rw [Nat.div_one, Nat.mod_one, offset_index (by omega)]
    refine ⟨rfl, rfl, wrap_of_fits (Int.natCast_nonneg _) ?_⟩
    rw [bound_true]
    have := hfits.1
    omega

/-- **When the loop of a group TMA launch is exact.** -/
theorem TmaLaunchArgs.tileLoop_exact_iff {a : TmaLaunchArgs} (hn : 0 < a.sliceBytes)
    (hG : 0 < a.groupRanks.length) (hG16 : a.groupRanks.length ≤ 16) (hs : 0 < a.numSms)
    (hb : a.tileBytes = defaultTileBytes) : a.tileLoop.Exact a.hostTiles ↔
      (a.sliceBytes + 2 ^ 16 ≤ 2 ^ 31 ∨ a.sliceBytes = 2 ^ 31) ∧
        a.groupRanks.length * a.innerTiles + a.numSms ≤ 2 ^ 31 := by
  have hb' : a.tileBytes = 2 ^ 16 := hb
  have hcount : (DInt.cdiv (lit a.sliceBytes) (lit (2 ^ 16 : ℕ))).val =
      (Tiling.cdiv a.sliceBytes (2 ^ 16) : ℕ) ↔ CountFits a.sliceBytes 1 (2 ^ 16) :=
    cdiv_lit_eq_iff_bytes (d := 2 ^ 16) hn (by norm_num) (by norm_num)
  refine TileLoop.tma_exact_iff hn hG hG16 hs hb' ?_ rfl rfl ?_ rfl ?_ ?_ ?_ ?_
  · rw [hostTiles, innerTiles, hb']
  · rw [tileLoop, TileLoop.groupTma, hostTiles]
  · rw [hostTiles, innerTiles, tileLoop, TileLoop.groupTma, hb']
    exact hcount
  · intro hfits
    rw [HostTiles.total, hostTiles, innerTiles, tileLoop, TileLoop.groupTma, hb']
    have hwide := wide_cdiv (x := lit a.sliceBytes) (d := 2 ^ 16) (by norm_num)
    refine (mul_cdiv_eq (d := 2 ^ 16) hfits.1 hG16 (by norm_num) (Nat.le_refl _)
      (hcount.mpr hfits) ?_).1
    rw [hwide]
    exact (lit_val hfits.1).2
  · intro t ht
    exact group_index (by omega) (Or.inl (by omega)) (by rw [bound_false]; omega)
  · intro t
    rw [tileLoop, TileLoop.groupTma, hb']
    exact offset_index (by norm_num)

/-- **When the loop of `launch_p2p_copy_tma` is exact.** -/
theorem p2pTma_exact_iff {numSms : ℕ} (hn : 0 < n) (hs : 0 < numSms) :
    (TileLoop.p2pTma n defaultTileBytes numSms).Exact (p2pTmaHost n defaultTileBytes numSms) ↔
      (n + 2 ^ 16 ≤ 2 ^ 31 ∨ n = 2 ^ 31) ∧ cdiv n defaultTileBytes + numSms ≤ 2 ^ 31 := by
  have hcount : (DInt.cdiv (lit n) (lit (2 ^ 16 : ℕ))).val = (Tiling.cdiv n (2 ^ 16) : ℕ) ↔
      CountFits n 1 (2 ^ 16) :=
    cdiv_lit_eq_iff_bytes (d := 2 ^ 16) hn (by norm_num) (by norm_num)
  have htotal : (p2pTmaHost n defaultTileBytes numSms).total = cdiv n defaultTileBytes :=
    Nat.one_mul _
  rw [← htotal]
  have hone : (p2pTmaHost n defaultTileBytes numSms).groupSize ≤ 16 := by
    rw [p2pTmaHost]
    norm_num
  refine TileLoop.tma_exact_iff hn Nat.one_pos hone hs rfl rfl rfl rfl ?_
    (by rw [htotal]; rfl) hcount (fun hfits => ?_) (fun t _ => ?_) fun t => ?_
  · rw [TileLoop.p2pTma, p2pTmaHost]
  · rw [htotal]
    exact hcount.mpr hfits
  · rw [p2pTmaHost, Nat.div_one, Nat.mod_one]
    exact ⟨rfl, rfl⟩
  · exact offset_index (by norm_num [defaultTileBytes])

/-- The bytes that a vector kernel counts exactly: only single bytes come too close to the
end of a width. -/
def VectorFits (n w : ℕ) : Prop :=
  n < 2 ^ 63 ∧ (w = 1 → n + 2 ^ 16 ≤ 2 ^ 31 ∨ 2 ^ 31 ≤ n ∧ n + 2 ^ 16 ≤ 2 ^ 63)

theorem countFits_iff {w : ℕ} (hw : IsVecWidth w) :
    CountFits n w (max (defaultBlockBytes / w) 1) ↔ VectorFits n w := by
  unfold CountFits VectorFits
  rcases hw with rfl | rfl | rfl | rfl <;> norm_num [defaultBlockBytes] <;> omega

end Launches

/-! ## All launches -/

/-- A launch of a tile loop. -/
inductive TileLaunch
  | groupPull (a : PullLaunchArgs) (copyBytes : ℕ)
  | pullCopy (nbytes vecBytes : ℕ) (numSms : ℤ)
  | groupTma (a : TmaLaunchArgs)
  | p2pTma (nbytes numSms : ℕ)

namespace TileLaunch

/-- What the launchers and the configuration accept; there is no bound on the bytes or on
the programs. -/
def Valid : TileLaunch → Prop
  | groupPull a n => 0 < n ∧ 0 < a.groupRanks.length ∧ a.groupRanks.length ≤ 16 ∧
      IsVecWidth a.vecBytes ∧ 0 < a.numSms ∧ a.blockBytes = defaultBlockBytes
  | pullCopy n w numSms => 0 < n ∧ IsVecWidth w ∧ 0 < numSms
  | groupTma a => 0 < a.sliceBytes ∧ 0 < a.groupRanks.length ∧ a.groupRanks.length ≤ 16 ∧
      0 < a.numSms ∧ a.tileBytes = defaultTileBytes
  | p2pTma n numSms => 0 < n ∧ 0 < numSms

def loop : TileLaunch → TileLoop
  | groupPull a n => a.tileLoop n
  | pullCopy n w numSms => pullCopyLoop n w numSms
  | groupTma a => a.tileLoop
  | p2pTma n numSms => .p2pTma n defaultTileBytes numSms

def host : TileLaunch → HostTiles
  | groupPull a n => a.hostTiles n
  | pullCopy n w numSms => pullCopyHost n w numSms
  | groupTma a => a.hostTiles
  | p2pTma n numSms => p2pTmaHost n defaultTileBytes numSms

/-- The sizes that the device counts exactly. -/
def Fits : TileLaunch → Prop
  | groupPull a n => VectorFits n a.vecBytes ∧ a.grid n < 2 ^ 31
  | pullCopy n w numSms => VectorFits n w ∧ pullCopyGrid n w numSms < 2 ^ 31
  | groupTma a => (a.sliceBytes + 2 ^ 16 ≤ 2 ^ 31 ∨ a.sliceBytes = 2 ^ 31) ∧
      a.groupRanks.length * a.innerTiles + a.numSms ≤ 2 ^ 31
  | p2pTma n numSms =>
      (n + 2 ^ 16 ≤ 2 ^ 31 ∨ n = 2 ^ 31) ∧ cdiv n defaultTileBytes + numSms ≤ 2 ^ 31

variable {x : TileLaunch}

theorem exact_iff (hx : x.Valid) : x.loop.Exact x.host ↔ x.Fits := by
  cases x with
  | groupPull a n =>
    obtain ⟨hn, hG, hG16, hw, hs, hb⟩ := hx
    exact (a.tileLoop_exact_iff hn hG hG16 hw hs hb).trans (and_congr_left' (countFits_iff hw))
  | pullCopy n w numSms =>
    obtain ⟨hn, hw, hs⟩ := hx
    exact (pullCopyLoop_exact_iff hn hw hs).trans (and_congr_left' (countFits_iff hw))
  | groupTma a =>
    obtain ⟨hn, hG, hG16, hs, hb⟩ := hx
    exact a.tileLoop_exact_iff hn hG hG16 hs hb
  | p2pTma n numSms => exact p2pTma_exact_iff hx.1 hx.2

/-- The grid has a program for every start below the stride. -/
theorem programs_spec (hx : x.Valid) : 0 < x.host.stride ∧
    ∀ pid, pid < x.host.stride → pid < x.host.total → pid < x.host.programs := by
  cases x with
  | groupPull a n => exact ⟨PullLaunchArgs.grid_pos hx.2.1 hx.2.2.2.2.1, fun _ h _ => h⟩
  | pullCopy n w numSms =>
    obtain ⟨hn, hw, hs⟩ := hx
    exact ⟨pullCopyGrid_pos hw hs, fun _ h _ => h⟩
  | groupTma a => exact ⟨hx.2.2.2.1, fun _ => lt_min⟩
  | p2pTma n numSms =>
    refine ⟨hx.2, fun pid hpid hlt => lt_min hpid ?_⟩
    rwa [HostTiles.total, host, p2pTmaHost, Nat.one_mul] at hlt

/-- **Which launches compute their tiles exactly.** -/
theorem device_tiles_exact_iff (x : TileLaunch) (hx : x.Valid) :
    x.loop.Exact x.host ∧ x.loop.Covers x.host ↔ x.Fits := by
  obtain ⟨hstride, hprograms⟩ := programs_spec hx
  exact ⟨fun h => (exact_iff hx).mp h.1, fun h =>
    ⟨(exact_iff hx).mpr h, ((exact_iff hx).mpr h).covers hstride hprograms⟩⟩

theorem device_tiles_exact_iff_witness :
    let x := groupTma { call := 1, selfGlobalRank := 0, groupRanks := [0, 1], dstPtr := 0,
                        commBufOffset := 0, selfLocalIndex := 0, sliceBytes := 2 ^ 31,
                        numSms := 24 }
    x.loop.Exact x.host ∧ x.loop.Covers x.host :=
  (device_tiles_exact_iff (groupTma _) (by unfold Valid; decide)).mpr
    ⟨Or.inr rfl, by decide⟩

/-- A slice of two ranks, a byte below `2 ^ 31`. -/
def belowTwoGib : TileLaunch :=
  groupPull { call := 1, selfGlobalRank := 0, groupRanks := [0, 1], dstOffset := 0,
              commBufOffset := 0, selfLocalIndex := 0, sliceBytes := 2 ^ 31 - 1, vecBytes := 1,
              numSms := 24 } (2 ^ 31 - 1)

/-- A message of a TMA line more than `2 ^ 31` bytes. -/
def aboveTwoGib : TileLaunch := p2pTma (2 ^ 31 + 16) 132

/-- The tile count of a large slice comes out negative, and no tile is copied; a tile of a
larger message starts at a negative offset. -/
theorem large_slices_are_miscounted :
    (belowTwoGib.Valid ∧ belowTwoGib.host.nTiles = 32768 ∧
      belowTwoGib.loop.nTiles.val = -32767 ∧ ¬ belowTwoGib.loop.Covers belowTwoGib.host) ∧
    (aboveTwoGib.Valid ∧ aboveTwoGib.host.nTiles = 32769 ∧
      aboveTwoGib.loop.nTiles.val = 32769 ∧
      (aboveTwoGib.loop.offset (aboveTwoGib.loop.tile (aboveTwoGib.loop.task 32 248))).val =
        -2 ^ 31 ∧ ¬ aboveTwoGib.loop.Exact aboveTwoGib.host) := by
  refine ⟨⟨by unfold Valid belowTwoGib IsVecWidth; decide, by decide, by decide, fun h => ?_⟩,
    ⟨by unfold Valid aboveTwoGib; decide, by decide, by decide, by decide +kernel, fun h => ?_⟩⟩
  · obtain ⟨pid, hpid, k, hrun, -⟩ := h 0 0 (by decide) (by decide)
    have hpid' : pid < 24 := hpid
    have hfirst : (belowTwoGib.loop.task pid 0).val = pid :=
      congrArg DInt.val (TileLoop.programId_cast (p := pid) (by omega))
    have htotal : belowTwoGib.loop.total.val = -65534 := by decide
    have hlt := hrun 0 (Nat.zero_le k)
    omega
  · have htile := (h.tile 32 248 (by decide) (by decide)).2.2
    have hoffset : (aboveTwoGib.loop.offset
        (aboveTwoGib.loop.tile (aboveTwoGib.loop.task 32 248))).val = -2 ^ 31 := by
      decide +kernel
    rw [hoffset] at htile
    revert htile
    decide

end TileLaunch

end GroupFreeCollectives
