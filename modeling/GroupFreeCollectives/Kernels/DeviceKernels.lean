import GroupFreeCollectives.Kernels.DeviceTiles
import Mathlib.Data.Finset.Prod

/-!
# Kernels in device integers

The kernels of `Kernels/Pull` and `Kernels/Engines` count their tiles exactly.  Here they run
with the counts, loop variables and offsets of `Kernels/DeviceTiles`: a program goes through
the values of its loop variable (`TileLoop.rounds`) and copies the bytes of every tile that
its masks leave over.

A launch is `none` if it does more than copies between its tensors: the driver refuses a grid
of `2 ^ 31` programs, a negative loop variable is below every count and names no tile, and a
lane in front of a tensor is not masked.  What is left are copies, though not always all of
them: a kernel whose tile count comes out negative copies nothing.

A kernel whose loop is exact does what its exact counterpart does (`deviceVectorKernel_eq`,
`deviceTmaKernel_eq`).
-/

namespace GroupFreeCollectives

open Tiling DeviceInt DInt

/-! ## Parts that can fail -/

section Collect

variable {α β : Type} {f : α → Option (List β)} {g : α → List β} {l : List α} {out : List β}

/-- The parts of all elements one after the other, if none of them fails. -/
def collect (f : α → Option (List β)) : List α → Option (List β)
  | [] => some []
  | x :: xs => do
    let ys ← f x
    let zs ← collect f xs
    pure (ys ++ zs)

theorem collect_cons_eq_some_iff {x : α} : collect f (x :: l) = some out ↔
    ∃ ys zs, f x = some ys ∧ collect f l = some zs ∧ out = ys ++ zs := by
  simp only [collect, Option.bind_eq_bind, Option.bind_eq_some_iff, Option.pure_def,
    Option.some_inj]
  exact ⟨fun ⟨ys, hf, zs, hrest, heq⟩ => ⟨ys, zs, hf, hrest, heq.symm⟩,
    fun ⟨ys, zs, hf, hrest, heq⟩ => ⟨ys, hf, zs, hrest, heq.symm⟩⟩

/-- Where nothing fails, it is the concatenation. -/
theorem collect_eq_flatMap (h : ∀ x ∈ l, f x = some (g x)) : collect f l = some (l.flatMap g) := by
  induction l with
  | nil => rfl
  | cons x l ih =>
    refine collect_cons_eq_some_iff.mpr ⟨_, _, h x List.mem_cons_self,
      ih fun y hy => h y (List.mem_cons_of_mem x hy), ?_⟩
    rw [List.flatMap_cons]

/-- Nothing has failed in what is collected. -/
theorem exists_of_collect (h : collect f l = some out) {x : α} (hx : x ∈ l) :
    ∃ ys, f x = some ys := by
  induction l generalizing out with
  | nil => cases hx
  | cons x' l ih =>
    obtain ⟨ys, zs, hf, hrest, -⟩ := collect_cons_eq_some_iff.mp h
    rcases List.mem_cons.mp hx with rfl | hx
    · exact ⟨ys, hf⟩
    · exact ih hrest hx

theorem exists_of_mem_collect (h : collect f l = some out) {y : β} (hy : y ∈ out) :
    ∃ x ∈ l, ∃ ys, f x = some ys ∧ y ∈ ys := by
  induction l generalizing out with
  | nil =>
    obtain rfl := Option.some_inj.mp h
    cases hy
  | cons x l ih =>
    obtain ⟨ys, zs, hf, hrest, rfl⟩ := collect_cons_eq_some_iff.mp h
    rcases List.mem_append.mp hy with hy | hy
    · exact ⟨x, List.mem_cons_self, ys, hf, hy⟩
    · obtain ⟨x', hx', hmem⟩ := ih hrest hy
      exact ⟨x', List.mem_cons_of_mem x hx', hmem⟩

end Collect

/-! ## Programs -/

namespace TileLoop

variable (l : TileLoop)

/-- The values of the loop variable from `t` on, in so many rounds.  A negative value is below
the count and names no tile. -/
def rounds : ℕ → DInt → Option (List DInt)
  | 0, _ => none
  | fuel + 1, t =>
    if l.total.val ≤ t.val then some []
    else if t.val < 0 then none
    else do
      let ts ← rounds fuel ((t + l.stride).cast l.wide)
      pure (t :: ts)

/-- The values of the loop variable of a program: it grows by the stride, so that there are not
more rounds than tasks. -/
def tasks (pid : ℕ) : Option (List DInt) := l.rounds (l.total.val.toNat + 1) (l.first pid)

/-- A grid of programs: for each of its tasks a program runs the body of the loop, and what
follows the loop in the end. -/
def run (programs : ℕ) (body : ℕ → DInt → Option (List (Op DataAct)))
    (rest : ℕ → Option (List (Op DataAct))) : Option (List (Op DataAct)) :=
  if programs < 2 ^ 31 then
    collect (fun pid => do
      let tasks ← l.tasks pid
      let tiles ← collect (body pid) tasks
      let tail ← rest pid
      pure (tiles ++ tail)) (List.range programs)
  else none

variable {l} {h : HostTiles} {body : ℕ → DInt → Option (List (Op DataAct))}
  {rest : ℕ → Option (List (Op DataAct))} {body' : ℕ → ℕ → List (Op DataAct)}
  {rest' : ℕ → List (Op DataAct)} {ops : List (Op DataAct)} {t u : DInt} {fuel : ℕ}

theorem rounds_of_le (hle : l.total.val ≤ t.val) : l.rounds (fuel + 1) t = some [] := by
  rw [rounds, if_pos hle]

theorem rounds_succ (hlt : t.val < l.total.val) (hnonneg : 0 ≤ t.val) :
    l.rounds (fuel + 1) t = (l.rounds fuel ((t + l.stride).cast l.wide)).map (t :: ·) := by
  rw [rounds, if_neg (not_le.mpr hlt), if_neg (not_lt.mpr hnonneg), Option.map_eq_bind]
  rfl

theorem rounds_of_neg (hneg : t.val < 0) (hlt : t.val < l.total.val) : l.rounds fuel t = none := by
  cases fuel with
  | zero => rfl
  | succ fuel => rw [rounds, if_neg (not_le.mpr hlt), if_pos hneg]

/-- A loop whose last task is less than a stride below the end of 64 bits wraps. -/
theorem rounds_eq_none (hwide : l.wide = true) {total stride x k : ℕ} (htotal : l.total.val = total)
    (hstride : l.stride.val = stride) (hfew : stride < 2 ^ 31) (hfits : total < 2 ^ 63)
    (hover : 2 ^ 63 < total + stride) (ht : t = ⟨true, (x : ℕ)⟩)
    (hlast : x + k * stride = total - 1) : l.rounds fuel t = none := by
  induction fuel generalizing t x k with
  | zero => rfl
  | succ fuel ih =>
    have hlt : t.val < l.total.val := by
      rw [ht, htotal]
      dsimp only
      omega
    have hnext : (t + l.stride).cast l.wide = ⟨true, wrap true (x + stride : ℕ)⟩ := by
      have hsum : (t + l.stride).val = wrap true (x + stride : ℕ) := by
        rw [add_val, ht, hstride, Bool.true_or, ← Nat.cast_add]
      rw [DInt.cast, hsum, hwide, wrap_of_mem (neg_bound_le_wrap _ _) (wrap_lt_bound _ _)]
    rw [rounds_succ hlt (by rw [ht]; exact Int.natCast_nonneg x), hnext]
    refine Option.map_eq_none_iff.mpr ?_
    cases k with
    | zero =>
      have hneg : wrap true ((x + stride : ℕ) : ℤ) < 0 :=
        wrap_neg (by rw [bound_true]; omega) (by rw [bound_true]; omega)
      exact rounds_of_neg hneg (lt_of_lt_of_le hneg (by rw [htotal]; exact Int.natCast_nonneg _))
    | succ k =>
      rw [Nat.succ_mul] at hlast
      have hval : wrap true ((x + stride : ℕ) : ℤ) = (x + stride : ℕ) :=
        wrap_of_fits (Int.natCast_nonneg _) (by rw [bound_true]; omega)
      exact ih (by rw [hval]) (by omega : x + stride + k * stride = total - 1)

/-- What a loop takes up is a task. -/
theorem bounds_of_mem_rounds {ts : List DInt} (h : l.rounds fuel t = some ts) (hu : u ∈ ts)
    (hwide : t.wide = l.wide) : u.wide = l.wide ∧ 0 ≤ u.val ∧ u.val < l.total.val := by
  induction fuel generalizing t ts with
  | zero => cases h
  | succ fuel ih =>
    by_cases hlt : t.val < l.total.val
    · by_cases hnonneg : 0 ≤ t.val
      · rw [rounds_succ hlt hnonneg] at h
        obtain ⟨ts', hts', rfl⟩ := Option.map_eq_some_iff.mp h
        rcases List.mem_cons.mp hu with rfl | hu
        · exact ⟨hwide, hnonneg, hlt⟩
        · exact ih hts' hu rfl
      · rw [rounds, if_neg (not_le.mpr hlt), if_pos (not_le.mp hnonneg)] at h
        cases h
    · rw [rounds_of_le (not_lt.mp hlt)] at h
      obtain rfl := Option.some_inj.mp h
      cases hu

/-- The operations of a grid are those of its tasks, and what follows. -/
theorem exists_of_mem_run {programs : ℕ} (h : l.run programs body rest = some ops)
    {o : Op DataAct} (ho : o ∈ ops) : ∃ pid < programs,
      (∃ ts t bs, l.tasks pid = some ts ∧ t ∈ ts ∧ body pid t = some bs ∧ o ∈ bs) ∨
        ∃ bs, rest pid = some bs ∧ o ∈ bs := by
  unfold run at h
  split at h
  case isFalse => cases h
  case isTrue =>
    obtain ⟨pid, hpid, ys, hys, hmem⟩ := exists_of_mem_collect h ho
    simp only [Option.bind_eq_bind, Option.bind_eq_some_iff, Option.pure_def, Option.some_inj]
      at hys
    obtain ⟨ts, hts, tiles, htiles, tail, htail, rfl⟩ := hys
    refine ⟨pid, List.mem_range.mp hpid, ?_⟩
    rcases List.mem_append.mp hmem with hmem | hmem
    · obtain ⟨t, ht, bs, hbs, hob⟩ := exists_of_mem_collect htiles hmem
      exact Or.inl ⟨ts, t, bs, hts, ht, hbs, hob⟩
    · exact Or.inr ⟨tail, htail, hmem⟩

/-- Every program of a grid comes to an end. -/
theorem exists_tasks_of_run {programs : ℕ} (h : l.run programs body rest = some ops) {pid : ℕ}
    (hpid : pid < programs) : programs < 2 ^ 31 ∧ ∃ ts, l.tasks pid = some ts := by
  unfold run at h
  split at h
  case isFalse => cases h
  case isTrue hfew =>
    obtain ⟨ys, hys⟩ := exists_of_collect h (List.mem_range.mpr hpid)
    obtain ⟨ts, hts, -⟩ := Option.bind_eq_some_iff.mp hys
    exact ⟨hfew, ts, hts⟩

/-- Programs that start behind the last task do nothing. -/
theorem run_eq_nil {programs : ℕ} (hfew : programs < 2 ^ 31)
    (htotal : ∀ pid < programs, l.total.val ≤ (l.first pid).val)
    (hrest : ∀ pid < programs, rest pid = some []) : l.run programs body rest = some [] := by
  rw [run, if_pos hfew, collect_eq_flatMap (g := fun _ => []) fun pid hpid => ?_]
  · exact congrArg some (List.flatMap_eq_nil_iff.mpr fun _ _ => rfl)
  · have hpid := List.mem_range.mp hpid
    have htasks : l.tasks pid = some [] := rounds_of_le (htotal pid hpid)
    rw [htasks, hrest pid hpid]
    rfl

/-- An exact loop ends where the host's does. -/
theorem Exact.rounds_of_total_le (hl : l.Exact h) {pid k : ℕ} (hpid : pid < h.programs)
    (hreached : h.Reached pid k) (hle : h.total ≤ pid + k * h.stride) :
    l.rounds (fuel + 1) (l.task pid k) = some [] := by
  refine rounds_of_le ?_
  rw [hl.task pid k hpid hreached, hl.total]
  exact_mod_cast hle

/-- The rounds of an exact loop, and what is done in them. -/
theorem Exact.rounds_eq (hl : l.Exact h) (hs : 0 < h.stride) {pid k : ℕ} (hpid : pid < h.programs)
    (hreached : h.Reached pid k) (hfuel : h.total ≤ pid + k * h.stride + fuel)
    (hbody : ∀ k, pid + k * h.stride < h.total →
      body pid (l.task pid k) = some (body' pid (pid + k * h.stride))) :
    ∃ ts, l.rounds (fuel + 1) (l.task pid k) = some ts ∧ collect (body pid) ts =
      some ((stepRange (pid + k * h.stride) h.total h.stride).flatMap (body' pid)) := by
  induction fuel generalizing k with
  | zero =>
    have hle : h.total ≤ pid + k * h.stride := hfuel
    exact ⟨[], hl.rounds_of_total_le hpid hreached hle, by
      rw [stepRange_of_le hle]
      rfl⟩
  | succ fuel ih =>
    by_cases hlt : pid + k * h.stride < h.total
    · have hnext : h.Reached pid (k + 1) := by
        intro j hj
        have := Nat.mul_le_mul_right h.stride (Nat.lt_succ_iff.mp hj)
        omega
      have hsucc : pid + (k + 1) * h.stride = pid + k * h.stride + h.stride := by
        rw [Nat.succ_mul, Nat.add_assoc]
      obtain ⟨ts, hts, hcollect⟩ := ih hnext (by omega)
      refine ⟨l.task pid k :: ts, ?_, ?_⟩
      · have hval := hl.task pid k hpid hreached
        rw [rounds_succ (by rw [hval, hl.total]; exact_mod_cast hlt)
          (by rw [hval]; exact Int.natCast_nonneg _)]
        exact congrArg (Option.map (l.task pid k :: ·)) hts
      · rw [stepRange_of_lt hs hlt, List.flatMap_cons, ← hsucc]
        exact collect_cons_eq_some_iff.mpr ⟨_, _, hbody k hlt, hcollect, rfl⟩
    · have hle := not_lt.mp hlt
      exact ⟨[], hl.rounds_of_total_le hpid hreached hle, by
        rw [stepRange_of_le hle]
        rfl⟩

/-- **A grid of exact loops does what the host's loops do.** -/
theorem Exact.run_eq (hl : l.Exact h) (hs : 0 < h.stride) (hfew : h.programs < 2 ^ 31)
    (hbody : ∀ pid k, pid < h.programs → pid + k * h.stride < h.total →
      body pid (l.task pid k) = some (body' pid (pid + k * h.stride)))
    (hrest : ∀ pid < h.programs, rest pid = some (rest' pid)) :
    l.run h.programs body rest = some ((List.range h.programs).flatMap fun pid =>
      (stepRange pid h.total h.stride).flatMap (body' pid) ++ rest' pid) := by
  rw [run, if_pos hfew]
  refine collect_eq_flatMap fun pid hpid => ?_
  have hpid := List.mem_range.mp hpid
  have hfuel : h.total ≤ pid + 0 * h.stride + l.total.val.toNat := by
    rw [hl.total]
    omega
  obtain ⟨ts, hts, hcollect⟩ := hl.rounds_eq hs hpid (k := 0) (fun j hj => absurd hj (by omega))
    hfuel fun k hk => hbody pid k hpid hk
  have htasks : l.tasks pid = some ts := hts
  rw [Nat.zero_mul, Nat.add_zero] at hcollect
  rw [htasks, hrest pid hpid]
  simp only [Option.bind_eq_bind, Option.bind_some, hcollect]
  rfl

/-- The same of loops that nothing follows. -/
theorem Exact.run_loop_eq (hl : l.Exact h) (hs : 0 < h.stride) (hfew : h.programs < 2 ^ 31)
    (hbody : ∀ pid k, pid < h.programs → pid + k * h.stride < h.total →
      body pid (l.task pid k) = some (body' pid (pid + k * h.stride))) :
    l.run h.programs body (fun _ => some []) = some ((List.range h.programs).flatMap fun pid =>
      (stepRange pid h.total h.stride).flatMap (body' pid)) := by
  have hnil : ∀ pid < h.programs, (some [] : Option (List (Op DataAct))) =
      some ((fun _ => []) pid) := fun _ _ => rfl
  simpa only [List.append_nil] using hl.run_eq hs hfew hbody hnil

end TileLoop

/-! ## Tiles -/

/-- The bytes of the lanes of a tile that are below a limit, for lanes of so many bytes; a lane
in front of the tensor is below every limit. -/
def maskedOffsets (base limit : ℤ) (lanes eltBytes : ℕ) : Option (List ℕ) :=
  if base < 0 ∧ base < limit then none
  else some ((List.range lanes).flatMap fun (lane : ℕ) =>
    if base + lane < limit then
      (List.range eltBytes).map fun i => (base.toNat + lane) * eltBytes + i
    else [])

/-- The bytes of a tile of a descriptor of `nbytes` bytes, which leaves out what is not its
own. -/
def descriptorTile (nbytes block : ℕ) (base : ℤ) : List ℕ :=
  (List.range block).filterMap fun (i : ℕ) =>
    if 0 ≤ base + i ∧ base + i < nbytes then some (base + i).toNat else none

section Tiles

variable {base limit : ℤ} {lanes n e be tile b : ℕ} {bs : List ℕ}

/-- A byte that is left over is that of a lane below the limit. -/
theorem exists_of_mem_maskedOffsets (h : maskedOffsets base limit lanes e = some bs)
    (hb : b ∈ bs) : ∃ m lane i : ℕ, lane < lanes ∧ i < e ∧ base = m ∧
      ((m + lane : ℕ) : ℤ) < limit ∧ b = (m + lane) * e + i := by
  unfold maskedOffsets at h
  split at h
  case isTrue => cases h
  case isFalse hfront =>
    obtain rfl := Option.some_inj.mp h
    obtain ⟨lane, hlane, hb⟩ := List.mem_flatMap.mp hb
    split at hb
    case isTrue hlt =>
      obtain ⟨i, hi, rfl⟩ := List.mem_map.mp hb
      exact ⟨base.toNat, lane, i, List.mem_range.mp hlane, List.mem_range.mp hi, by omega,
        by omega, rfl⟩
    case isFalse => cases hb

theorem maskedOffsets_tile (hbase : base = (tile * be : ℕ)) (hlimit : limit = (n : ℕ)) :
    maskedOffsets base limit be e = some (tileOffsets n e be tile) := by
  rw [maskedOffsets, if_neg (by omega), hbase, hlimit, tileOffsets]
  refine congrArg some (List.flatMap_congr fun lane _ => if_congr (by omega) ?_ rfl)
  rw [Int.toNat_natCast]

theorem maskedOffsets_tail (hbase : base = (n / e * e : ℕ)) (hlimit : limit = (n : ℕ)) :
    maskedOffsets base limit e 1 = some (tailOffsets n e) := by
  rw [maskedOffsets, if_neg (by omega), hbase, hlimit, tailOffsets,
    List.filterMap_eq_flatMap_toList]
  refine congrArg some (List.flatMap_congr fun lane _ => ?_)
  rw [apply_ite Option.toList]
  refine if_congr (by omega) ?_ rfl
  rw [Int.toNat_natCast]
  simp

theorem descriptorTile_eq (hbase : base = (tile * be : ℕ)) :
    descriptorTile n be base = tmaTile n be tile := by
  rw [descriptorTile, tmaTile, hbase]
  refine List.filterMap_congr fun i _ => if_congr ?_ ?_ rfl
  · omega
  · rw [← Nat.cast_add, Int.toNat_natCast]

end Tiles

/-! ## The kernels -/

/-- The vector kernels: the full elements of the tiles, and then the tail of the programs that
have one. -/
def deviceVectorKernel (l : TileLoop) (nbytes eltBytes blockElts programs : ℕ)
    (tile : DInt → ℕ → DataAct) (tail : ℕ → Option (ℕ → DataAct)) :
    Option (List (Op DataAct)) :=
  let nFull := lit nbytes / lit eltBytes
  l.run programs
    (fun pid t => (maskedOffsets (l.offset (l.tile t)).val nFull.val blockElts eltBytes).map
      (List.map fun b => ⟨pid, t.val.toNat, tile t b⟩))
    fun pid =>
      match tail pid with
      | none => some []
      | some act => (maskedOffsets (nFull * lit eltBytes).val (lit nbytes).val eltBytes 1).map
          (List.map fun b => ⟨pid, l.total.val.toNat, act b⟩)

/-- The TMA kernels. -/
def deviceTmaKernel (l : TileLoop) (nbytes blockN programs : ℕ) (tile : DInt → ℕ → DataAct) :
    Option (List (Op DataAct)) :=
  l.run programs
    (fun pid t => some ((descriptorTile nbytes blockN (l.offset (l.tile t)).val).map fun b =>
      ⟨pid, t.val.toNat, tile t b⟩))
    fun _ => some []

section Kernels

variable {l : TileLoop} {h : HostTiles} {n e : ℕ} {tile : DInt → ℕ → DataAct}
  {tail : ℕ → Option (ℕ → DataAct)} (tile' : ℕ → ℕ → DataAct)

/-- An argument that 64 bits hold is below the bound of its width. -/
theorem lt_bound_of_lt (hn : n < 2 ^ 63) : (n : ℤ) < bound (decide (2 ^ 31 ≤ n)) := by
  by_cases h : 2 ^ 31 ≤ n
  · rw [decide_eq_true h, bound_true]
    omega
  · rw [decide_eq_false h, bound_false]
    omega

/-- Where the full elements end. -/
theorem tail_eq (hn : n < 2 ^ 63) (he : e < 2 ^ 31) :
    (lit n / lit e * lit e).val = (n / e * e : ℕ) := by
  obtain ⟨hfull, hwide⟩ := lit_div_lit hn he
  have hlit := lit_of_lt he
  refine mul_nat hfull (by rw [hlit]) ?_
  rw [hwide, hlit, Bool.or_false]
  exact lt_of_le_of_lt (by exact_mod_cast Nat.div_mul_le_self n e) (lt_bound_of_lt hn)

/-- **A vector kernel with an exact loop** copies the tiles and the tails. -/
theorem deviceVectorKernel_eq (hl : l.Exact h) (hs : 0 < h.stride) (hfew : h.programs < 2 ^ 31)
    (hn : n < 2 ^ 63) (he : e < 2 ^ 31)
    (htile : ∀ pid k, pid < h.programs → pid + k * h.stride < h.total →
      tile (l.task pid k) = tile' (pid + k * h.stride)) :
    deviceVectorKernel l n e h.block h.programs tile tail =
      some ((List.range h.programs).flatMap fun pid =>
        ((stepRange pid h.total h.stride).flatMap fun t =>
          (tileOffsets (n / e) e h.block (t / h.groupSize)).map fun b => ⟨pid, t, tile' t b⟩) ++
        match tail pid with
        | none => []
        | some act => (tailOffsets n e).map fun b => ⟨pid, h.total, act b⟩) := by
  obtain ⟨hfull, hwide⟩ := lit_div_lit hn he
  refine hl.run_eq hs hfew (fun pid k hpid hlt => ?_) fun pid hpid => ?_
  · have hval := hl.task pid k hpid (TileLoop.reached_of_lt hlt)
    obtain ⟨-, -, hoffset⟩ := hl.tile pid k hpid hlt
    rw [maskedOffsets_tile hoffset hfull, htile pid k hpid hlt, hval, Int.toNat_natCast]
    rfl
  · cases tail pid with
    | none => rfl
    | some act =>
      dsimp only
      rw [maskedOffsets_tail (tail_eq hn he) (lit_val hn).1, hl.total, Int.toNat_natCast]
      rfl

/-- **A TMA kernel with an exact loop** copies the tiles. -/
theorem deviceTmaKernel_eq (hl : l.Exact h) (hs : 0 < h.stride) (hfew : h.programs < 2 ^ 31)
    (htile : ∀ pid k, pid < h.programs → pid + k * h.stride < h.total →
      tile (l.task pid k) = tile' (pid + k * h.stride)) :
    deviceTmaKernel l n h.block h.programs tile =
      some ((List.range h.programs).flatMap fun pid =>
        (stepRange pid h.total h.stride).flatMap fun t =>
          (tmaTile n h.block (t / h.groupSize)).map fun b => ⟨pid, t, tile' t b⟩) := by
  refine hl.run_loop_eq hs hfew fun pid k hpid hlt => ?_
  have hval := hl.task pid k hpid (TileLoop.reached_of_lt hlt)
  obtain ⟨-, -, hoffset⟩ := hl.tile pid k hpid hlt
  rw [descriptorTile_eq hoffset, htile pid k hpid hlt, hval, Int.toNat_natCast]

/-- A lane below the full elements lies in the argument, as the device has it. -/
theorem lt_lit_of_lt_div {x i : ℕ} (he : e < 2 ^ 31) (hx : (x : ℤ) < (lit n / lit e).val)
    (hi : i < e) : ((x * e + i : ℕ) : ℤ) < (lit n).val := by
  have hquot : (lit n / lit e).val ≤ (lit n).val.tdiv e := by
    rw [div_val, lit_of_lt he, Bool.or_false]
    exact wrap_le (neg_le_tdiv (bound_pos _).le (neg_bound_le_lit n))
  obtain ⟨v, hv⟩ : ∃ v : ℕ, (lit n).val = v := by
    refine Int.eq_ofNat_of_zero_le (le_of_not_gt fun hneg => ?_)
    have := Int.tdiv_le_tdiv (by omega : (0 : ℤ) < e) hneg.le
    rw [Int.zero_tdiv] at this
    omega
  rw [hv, ← Int.ofNat_tdiv] at hquot
  have hlt : x < v / e := by omega
  have hmul := (Nat.le_div_iff_mul_le (by omega : 0 < e)).mp hlt
  rw [Nat.succ_mul] at hmul
  rw [hv]
  exact_mod_cast (by omega : x * e + i < v)

/-- What a vector kernel does: a byte of a lane of one of its tasks, or a byte behind the full
elements. -/
theorem exists_of_mem_deviceVectorKernel {blockElts programs : ℕ} {ops : List (Op DataAct)}
    (h : deviceVectorKernel l n e blockElts programs tile tail = some ops) (he : e < 2 ^ 31)
    (hfirst : ∀ pid, (l.first pid).wide = l.wide) {d : DataAct} (hd : d ∈ acts ops) :
    ∃ b : ℕ, (b : ℤ) < (lit n).val ∧
      ((∃ t m lane : ℕ, (t : ℤ) < l.total.val ∧ lane < blockElts ∧
          (l.offset (l.tile ⟨l.wide, t⟩)).val = m ∧ b / e = m + lane ∧ d = tile ⟨l.wide, t⟩ b) ∨
        ∃ pid act, tail pid = some act ∧ (lit n / lit e * lit e).val ≤ b ∧ d = act b) := by
  obtain ⟨o, ho, rfl⟩ := hd
  obtain ⟨pid, -, ⟨ts, t, bs, hts, ht, hbs, hob⟩ | ⟨bs, hbs, hob⟩⟩ := TileLoop.exists_of_mem_run h ho
  · obtain ⟨hwide, hnonneg, hlt⟩ := TileLoop.bounds_of_mem_rounds hts ht (hfirst pid)
    obtain ⟨offs, hoffs, rfl⟩ := Option.map_eq_some_iff.mp hbs
    obtain ⟨b, hb, rfl⟩ := List.mem_map.mp hob
    obtain ⟨m, lane, i, hlane, hi, hbase, hlimit, rfl⟩ := exists_of_mem_maskedOffsets hoffs hb
    have htask : t = ⟨l.wide, (t.val.toNat : ℕ)⟩ := by
      obtain ⟨w, v⟩ := t
      exact congrArg₂ DInt.mk hwide (Int.toNat_of_nonneg hnonneg).symm
    refine ⟨_, lt_lit_of_lt_div he hlimit hi, Or.inl ⟨t.val.toNat, m, lane, by omega, hlane, ?_, ?_,
      ?_⟩⟩
    · rw [← htask, hbase]
    · rw [Nat.mul_comm, Nat.mul_add_div (by omega), Nat.div_eq_of_lt hi, Nat.add_zero]
    · rw [← htask]
  · cases hact : tail pid with
    | none =>
      rw [hact] at hbs
      obtain rfl := Option.some_inj.mp hbs
      cases hob
    | some act =>
      rw [hact] at hbs
      obtain ⟨offs, hoffs, rfl⟩ := Option.map_eq_some_iff.mp hbs
      obtain ⟨b, hb, rfl⟩ := List.mem_map.mp hob
      obtain ⟨m, lane, i, -, hi, hbase, hlimit, rfl⟩ := exists_of_mem_maskedOffsets hoffs hb
      exact ⟨_, by omega, Or.inr ⟨pid, act, hact, by omega, rfl⟩⟩

end Kernels

/-! ## The group pull kernels -/

namespace PullKernelArgs

variable (a : PullKernelArgs)

/-- The loop of a group pull kernel. -/
def deviceLoop : TileLoop :=
  .groupPull a.copyBytes a.eltBytes a.blockElts a.groupRanks.length a.numPrograms

/-- The exact numbers of a group pull kernel. -/
def exactTiles : HostTiles where
  nTiles := a.nTiles
  groupSize := a.groupRanks.length
  block := a.blockElts
  programs := a.numPrograms
  stride := a.numPrograms

/-- The lane of the peer of a task. -/
def deviceLane (t : DInt) : ℕ :=
  ((a.deviceLoop.peerDelta t).val.toNat + a.selfLocalIndex + 1) % a.groupRanks.length

/-- `all_gather_pull_kernel` and `all2all_pull_kernel`, with the offset of the slice to pull. -/
def devicePullKernel (srcOff : ℕ) : Option (List (Op DataAct)) :=
  deviceVectorKernel a.deviceLoop a.copyBytes a.eltBytes a.blockElts a.numPrograms
    (fun t => a.pullByte srcOff (a.deviceLane t))
    fun pid =>
      if a.hasTail ∧ pid < a.groupRanks.length then
        some (a.pullByte srcOff ((pid + a.selfLocalIndex + 1) % a.groupRanks.length))
      else none

/-- A task copies byte `b` from the peer in lane `i`: a lane of its tile has it. -/
def TaskCopies (i b : ℕ) : Prop :=
  ∃ t m lane : ℕ, (t : ℤ) < a.deviceLoop.total.val ∧ lane < a.blockElts ∧
    i = a.deviceLane ⟨true, t⟩ ∧ (a.deviceLoop.offset (a.deviceLoop.tile ⟨true, t⟩)).val = m ∧
    b / a.eltBytes = m + lane

/-- Where the tails start. -/
def deviceTail : ℤ := (lit a.copyBytes / lit a.eltBytes * lit a.eltBytes).val

variable {a} {srcOff : ℕ}

/-- **A group pull kernel with an exact loop.** -/
theorem devicePullKernel_eq (hl : a.deviceLoop.Exact a.exactTiles) (hp : 0 < a.numPrograms)
    (hfew : a.numPrograms < 2 ^ 31) (hn : a.copyBytes < 2 ^ 63) (he : a.eltBytes < 2 ^ 31) :
    a.devicePullKernel srcOff = some (a.pullKernel srcOff) := by
  refine (deviceVectorKernel_eq (fun t => a.pullByte srcOff ((t - t / a.groupRanks.length *
    a.groupRanks.length + a.selfLocalIndex + 1) % a.groupRanks.length)) hl hp hfew hn he
    fun pid k hpid hlt => ?_).trans (congrArg some ?_)
  · obtain ⟨-, hdelta, -⟩ := hl.tile pid k hpid hlt
    rw [deviceLane, hdelta, Int.toNat_natCast, exactTiles, ← Nat.mod_eq_sub_div_mul]
  · refine List.flatMap_congr fun pid _ => ?_
    rw [groupTasks, List.flatMap_map]
    refine congrArg₂ _ rfl ?_
    split_ifs <;> rfl

theorem deviceTail_eq (hn : a.copyBytes < 2 ^ 63) (he : a.eltBytes < 2 ^ 31) :
    a.deviceTail = (a.copyBytes / a.eltBytes * a.eltBytes : ℕ) := tail_eq hn he

/-- **Copying every tile of every peer takes a task for each of them**: a task has only one lane
and one place for the first byte of a tile. -/
theorem total_le_of_taskCopies (he : 0 < a.eltBytes) (hbe : 0 < a.blockElts)
    (h : ∀ i j, i < a.groupRanks.length → j < a.nTiles →
      a.TaskCopies i (j * a.blockElts * a.eltBytes)) :
    a.groupRanks.length * a.nTiles ≤ a.deviceLoop.total.val.toNat := by
  let place : ℕ → ℕ × ℕ := fun t => (a.deviceLane ⟨true, t⟩,
    ((a.deviceLoop.offset (a.deviceLoop.tile ⟨true, t⟩)).val.toNat + (a.blockElts - 1)) /
      a.blockElts)
  have hsurj : Set.SurjOn place (Finset.range a.deviceLoop.total.val.toNat)
      ((Finset.range a.groupRanks.length ×ˢ Finset.range a.nTiles : Finset (ℕ × ℕ)) :
        Set (ℕ × ℕ)) := by
    rintro ⟨i, j⟩ hij
    obtain ⟨hi, hj⟩ := Finset.mem_product.mp (Finset.mem_coe.mp hij)
    obtain ⟨t, m, lane, ht, hlane, hi, hm, hdiv⟩ := h i j (Finset.mem_range.mp hi)
      (Finset.mem_range.mp hj)
    rw [Nat.mul_div_cancel _ he] at hdiv
    refine ⟨t, Finset.mem_coe.mpr (Finset.mem_range.mpr (Int.lt_toNat.mpr ht)),
      Prod.ext hi.symm ?_⟩
    show ((a.deviceLoop.offset (a.deviceLoop.tile ⟨true, t⟩)).val.toNat + (a.blockElts - 1)) /
      a.blockElts = j
    have hsum : m + (a.blockElts - 1) = a.blockElts * j + (a.blockElts - 1 - lane) := by
      rw [Nat.mul_comm]
      omega
    rw [hm, Int.toNat_natCast, hsum, Nat.mul_add_div hbe, Nat.div_eq_of_lt (by omega),
      Nat.add_zero]
  have hcard := Finset.card_le_card_of_surjOn _ hsurj
  rwa [Finset.card_product, Finset.card_range, Finset.card_range, Finset.card_range] at hcard

end PullKernelArgs

/-! ## The single-peer kernel -/

/-- `pull_copy_kernel`. -/
def devicePullCopyKernel (src dst : ℕ → Cell) (nbytes eltBytes blockElts : ℕ) (hasTail : Bool)
    (numPrograms : ℕ) : Option (List (Op DataAct)) :=
  deviceVectorKernel (.pullCopy nbytes eltBytes blockElts numPrograms) nbytes eltBytes blockElts
    numPrograms (fun _ b => .copy (src b) (dst b))
    fun pid => if hasTail ∧ pid = 0 then some fun b => .copy (src b) (dst b) else none

/-- **The single-peer kernel with an exact loop.** -/
theorem devicePullCopyKernel_eq {src dst : ℕ → Cell} {n e be np : ℕ} {tail : Bool}
    (hl : (TileLoop.pullCopy n e be np).Exact ⟨cdiv (n / e) be, 1, be, np, np⟩) (hp : 0 < np)
    (hfew : np < 2 ^ 31) (hn : n < 2 ^ 63) (he : e < 2 ^ 31) :
    devicePullCopyKernel src dst n e be tail np =
      some (pullCopyKernel src dst n e be tail np) := by
  refine (deviceVectorKernel_eq (fun _ b => .copy (src b) (dst b)) hl hp hfew hn he
    fun _ _ _ _ => rfl).trans (congrArg some ?_)
  refine List.flatMap_congr fun pid _ => ?_
  simp only [HostTiles.total, Nat.one_mul, Nat.div_one]
  refine congrArg₂ _ rfl ?_
  split_ifs <;> rfl

/-! ## The TMA kernels -/

namespace TmaLaunchArgs

variable (a : TmaLaunchArgs)

/-- The lane of the peer of a task. -/
def deviceLane (t : DInt) : ℕ :=
  ((a.tileLoop.peerDelta t).val.toNat + a.selfLocalIndex + 1) % a.groupRanks.length

/-- `_all_gather_tma_persistent_kernel` and `_all2all_tma_persistent_kernel`. -/
def deviceKernel (srcOff : ℕ) : Option (List (Op DataAct)) :=
  deviceTmaKernel a.tileLoop a.sliceBytes a.tileBytes
    (min a.numSms (a.groupRanks.length * a.innerTiles)) fun t b =>
      .copy (.comm (a.groupRanks.getD (a.deviceLane t) 0) (a.commBufOffset + srcOff + b))
        (.output a.selfGlobalRank a.call (a.deviceLane t * a.sliceBytes + b))

variable {a} {srcOff : ℕ}

/-- **A group TMA kernel with an exact loop.** -/
theorem deviceKernel_eq (hl : a.tileLoop.Exact a.hostTiles) (hs : 0 < a.numSms)
    (hfew : min a.numSms (a.groupRanks.length * a.innerTiles) < 2 ^ 31) :
    a.deviceKernel srcOff = some (a.tmaKernel srcOff) := by
  refine (deviceTmaKernel_eq (fun t b =>
    let peerIdx := (t - t / a.groupRanks.length * a.groupRanks.length + a.selfLocalIndex + 1) %
      a.groupRanks.length
    .copy (.comm (a.groupRanks.getD peerIdx 0) (a.commBufOffset + srcOff + b))
      (.output a.selfGlobalRank a.call (peerIdx * a.sliceBytes + b))) hl hs hfew
    fun pid k hpid hlt => ?_).trans (congrArg some ?_)
  · obtain ⟨-, hdelta, -⟩ := hl.tile pid k hpid hlt
    rw [deviceLane, hdelta, Int.toNat_natCast, hostTiles, ← Nat.mod_eq_sub_div_mul]
  · refine List.flatMap_congr fun pid _ => ?_
    rw [groupTasks, List.flatMap_map]
    rfl

end TmaLaunchArgs

/-- `_p2p_tma_persistent_kernel`. -/
def deviceP2pTmaKernel (src dst : ℕ → Cell) (nbytes tileBytes numSms : ℕ) :
    Option (List (Op DataAct)) :=
  deviceTmaKernel (.p2pTma nbytes tileBytes numSms) nbytes tileBytes
    (min numSms (cdiv nbytes tileBytes)) fun _ b => .copy (src b) (dst b)

/-- **The single-peer TMA kernel with an exact loop.** -/
theorem deviceP2pTmaKernel_eq {src dst : ℕ → Cell} {n tb ns : ℕ}
    (hl : (TileLoop.p2pTma n tb ns).Exact (p2pTmaHost n tb ns)) (hs : 0 < ns)
    (hfew : min ns (cdiv n tb) < 2 ^ 31) :
    deviceP2pTmaKernel src dst n tb ns = some (p2pTmaKernel src dst n tb ns) := by
  refine (deviceTmaKernel_eq (fun _ b => .copy (src b) (dst b)) hl hs hfew
    fun _ _ _ _ => rfl).trans (congrArg some ?_)
  simp only [HostTiles.total, p2pTmaHost, Nat.one_mul, Nat.div_one]
  rfl

/-! ## Launches that fit -/

namespace TileLaunch

variable {n : ℕ}

/-- A valid launch that fits has a grid that the driver accepts. -/
theorem programs_lt_of_fits {x : TileLaunch} (hx : x.Valid) (hfits : x.Fits) :
    x.host.programs < 2 ^ 31 := by
  cases x with
  | groupPull a n => exact hfits.2
  | pullCopy n w numSms => exact hfits.2
  | groupTma a =>
    obtain ⟨-, -, -, hs, -⟩ := hx
    have hroom := hfits.2
    exact lt_of_le_of_lt (min_le_right _ _) (by omega)
  | p2pTma n numSms =>
    have hs := hx.2
    have hroom := hfits.2
    exact lt_of_le_of_lt (min_le_right _ _) (by omega)

/-- **A group pull that fits** does what the exact one does. -/
theorem groupPull_eq {a : PullLaunchArgs} {srcOff : ℕ} (hx : (groupPull a n).Valid)
    (hfits : (groupPull a n).Fits) :
    (a.kernelArgs n).devicePullKernel srcOff = some ((a.kernelArgs n).pullKernel srcOff) :=
  PullKernelArgs.devicePullKernel_eq ((exact_iff hx).mpr hfits)
    (PullLaunchArgs.grid_pos hx.2.1 hx.2.2.2.2.1) hfits.2 hfits.1.1 (dtypeForVec_lt _)

/-- **A group TMA pull that fits** does what the exact one does. -/
theorem groupTma_eq {a : TmaLaunchArgs} {srcOff : ℕ} (hx : (groupTma a).Valid)
    (hfits : (groupTma a).Fits) : a.deviceKernel srcOff = some (a.tmaKernel srcOff) :=
  TmaLaunchArgs.deviceKernel_eq ((exact_iff hx).mpr hfits) hx.2.2.2.1
    (programs_lt_of_fits hx hfits)

end TileLaunch

/-- The kernel that `launch_pull_copy` launches. -/
def deviceLaunchPullCopy (src dst : ℕ → Cell) (nbytes vecBytes : ℕ) (numSms : ℤ) :
    Option (List (Op DataAct)) :=
  let eltBytes := dtypeForVec vecBytes
  devicePullCopyKernel src dst nbytes eltBytes (max (defaultBlockBytes / eltBytes) 1)
    (nbytes % eltBytes ≠ 0) (pullCopyGrid nbytes vecBytes numSms)

section PeerLaunches

variable {src dst : ℕ → Cell} {n vec srcPtr dstPtr numSms : ℕ} {sms : ℤ} {ops : List (Op DataAct)}

/-- **A single-peer copy that fits** does what the exact one does. -/
theorem deviceLaunchPullCopy_eq (h : launchPullCopy src dst n vec sms = .ok ops)
    (hfits : (TileLaunch.pullCopy n vec sms).Fits) :
    deviceLaunchPullCopy src dst n vec sms = some ops := by
  obtain ⟨hn, hvec, hsms, rfl⟩ := launchPullCopy_ok h
  have hvalid : (TileLaunch.pullCopy n vec sms).Valid := ⟨hn, hvec, hsms⟩
  exact devicePullCopyKernel_eq ((TileLaunch.exact_iff hvalid).mpr hfits)
    (pullCopyGrid_pos hvec hsms) hfits.2 hfits.1.1 (dtypeForVec_lt _)

/-- **A single-peer TMA copy that fits** does what the exact one does. -/
theorem deviceP2pTma_eq
    (h : launchP2pCopyTma src dst srcPtr dstPtr n numSms defaultTileBytes = .ok ops)
    (hs : 0 < numSms) (hfits : (TileLaunch.p2pTma n numSms).Fits) :
    deviceP2pTmaKernel src dst n defaultTileBytes numSms = some ops := by
  obtain ⟨hn, rfl⟩ := launchP2pCopyTma_ok h
  have hvalid : (TileLaunch.p2pTma n numSms).Valid := ⟨hn, hs⟩
  exact deviceP2pTmaKernel_eq ((TileLaunch.exact_iff hvalid).mpr hfits) hs
    (TileLaunch.programs_lt_of_fits hvalid hfits)

end PeerLaunches

end GroupFreeCollectives
