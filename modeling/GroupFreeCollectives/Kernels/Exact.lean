import GroupFreeCollectives.Kernels.Engines

/-!
# Every byte once

The group kernels copy every byte of every member's slice exactly once.  What a launch
copies is a list of pairs, the lane of a peer and a byte of its slice; `TakesAll` says that
the list has every pair once.  The three decompositions do: strided tasks in rotated order
with tiles of elements (`PullKernelArgs.takesAll_pairs`), the same with clipped tiles
(`TmaLaunchArgs.takesAll_pairs`), and one copy for each peer (`takesAll_copyEngine`).
-/

namespace GroupFreeCollectives

open Tiling

/-- The pairs are all bytes below `n` of all lanes below `groupSize`, each once. -/
structure TakesAll (l : List (ℕ × ℕ)) (groupSize n : ℕ) : Prop where
  nodup : l.Nodup
  mem_iff : ∀ i b, (i, b) ∈ l ↔ i < groupSize ∧ b < n

/-! ## The tasks of all programs -/

section Tasks

variable {groupSize nTiles li stride np n : ℕ}

/-- The tasks of all programs of a launch. -/
def allTasks (groupSize nTiles li stride np : ℕ) : List (ℕ × ℕ × ℕ) :=
  (List.range np).flatMap (groupTasks groupSize nTiles li stride)

/-- A task, its tile and its lane. -/
theorem of_mem_groupTasks {pid : ℕ} (hs : 0 < stride) {x : ℕ × ℕ × ℕ}
    (hx : x ∈ groupTasks groupSize nTiles li stride pid) :
    x.1 % stride = pid % stride ∧ x.1 < groupSize * nTiles ∧ x.2.1 = x.1 / groupSize ∧
      x.2.2 = (x.1 % groupSize + li + 1) % groupSize := by
  obtain ⟨task, htask, rfl⟩ := List.mem_map.mp hx
  obtain ⟨i, rfl, hlt⟩ := (mem_stepRange hs).mp htask
  refine ⟨Nat.add_mul_mod_self_left .., hlt, rfl, ?_⟩
  dsimp only
  rw [Nat.mul_comm _ groupSize, Nat.mod_def (pid + stride * i)]

theorem nodup_groupTasks {pid : ℕ} (hs : 0 < stride) :
    (groupTasks groupSize nTiles li stride pid).Nodup := by
  refine (nodup_stepRange hs).map fun task task' h => ?_
  exact congrArg Prod.fst h

theorem nodup_allTasks (hs : 0 < stride) (hnp : np ≤ stride) :
    (allTasks groupSize nTiles li stride np).Nodup := by
  refine nodup_flatMap_of_disjoint List.nodup_range (fun pid _ => nodup_groupTasks hs) ?_
  intro pid hpid pid' hpid' x hx hx'
  have hlt := List.mem_range.mp hpid
  have hlt' := List.mem_range.mp hpid'
  have h := (of_mem_groupTasks hs hx).1
  rwa [(of_mem_groupTasks hs hx').1, Nat.mod_eq_of_lt (by omega), Nat.mod_eq_of_lt (by omega),
    eq_comm] at h

/-- A tile of a lane is the task of one program. -/
theorem eq_of_mem_allTasks (hs : 0 < stride) {x y : ℕ × ℕ × ℕ}
    (hx : x ∈ allTasks groupSize nTiles li stride np)
    (hy : y ∈ allTasks groupSize nTiles li stride np) (htile : x.2.1 = y.2.1)
    (hlane : x.2.2 = y.2.2) : x = y := by
  obtain ⟨pid, -, hx⟩ := List.mem_flatMap.mp hx
  obtain ⟨pid', -, hy⟩ := List.mem_flatMap.mp hy
  obtain ⟨-, hxlt, hxt, hxl⟩ := of_mem_groupTasks hs hx
  obtain ⟨-, -, hyt, hyl⟩ := of_mem_groupTasks hs hy
  have hG : 0 < groupSize := Nat.pos_of_mul_pos_right (by omega : 0 < groupSize * nTiles)
  -- quotient and remainder of the task number
  have hmod : x.1 % groupSize = y.1 % groupSize :=
    swizzle_inj (Nat.mod_lt _ hG) (Nat.mod_lt _ hG) (by rw [← hxl, ← hyl, hlane])
  have hdiv : x.1 / groupSize = y.1 / groupSize := by rw [← hxt, ← hyt, htile]
  have htask : x.1 = y.1 := by
    rw [← Nat.div_add_mod x.1 groupSize, ← Nat.div_add_mod y.1 groupSize, hmod, hdiv]
  exact Prod.ext htask (Prod.ext htile hlane)

/-- What the programs take of tiles with the given offsets. -/
def taskPairs (offsets : ℕ → List ℕ) (tasks : List (ℕ × ℕ × ℕ)) : List (ℕ × ℕ) :=
  tasks.flatMap fun x => (offsets x.2.1).map fun b => (x.2.2, b)

/-- **The programs of a launch take every byte of every lane once**, if the tiles are
disjoint and make up the slice. -/
theorem takesAll_taskPairs {offsets : ℕ → List ℕ} (hs : 0 < stride) (hnp : np ≤ stride)
    (hnp' : ∀ pid, pid < stride → pid < groupSize * nTiles → pid < np)
    (hnodup : ∀ tile, (offsets tile).Nodup)
    (hdisj : ∀ tile tile' b, b ∈ offsets tile → b ∈ offsets tile' → tile = tile')
    (hcover : ∀ b, b < n ↔ ∃ tile < nTiles, b ∈ offsets tile) :
    TakesAll (taskPairs offsets (allTasks groupSize nTiles li stride np)) groupSize n := by
  constructor
  · refine nodup_flatMap_of_disjoint (nodup_allTasks hs hnp) (fun x _ => ?_) ?_
    · exact (hnodup _).map fun b b' h => congrArg Prod.snd h
    · intro x hx y hy z hz hz'
      obtain ⟨b, hb, rfl⟩ := List.mem_map.mp hz
      obtain ⟨b', hb', heq⟩ := List.mem_map.mp hz'
      obtain ⟨hlane, rfl⟩ := Prod.mk.inj heq
      exact eq_of_mem_allTasks hs hx hy (hdisj _ _ _ hb hb') hlane.symm
  · intro i b
    constructor
    · intro h
      obtain ⟨x, hx, h⟩ := List.mem_flatMap.mp h
      obtain ⟨b', hb, heq⟩ := List.mem_map.mp h
      obtain ⟨rfl, rfl⟩ := Prod.mk.inj heq
      obtain ⟨pid, -, hx⟩ := List.mem_flatMap.mp hx
      obtain ⟨-, hlt, htile, -⟩ := of_mem_groupTasks hs hx
      refine ⟨lane_lt_of_mem_groupTasks hs hx, (hcover b').mpr ⟨x.2.1, ?_, hb⟩⟩
      rw [htile]
      exact Nat.div_lt_of_lt_mul hlt
    · rintro ⟨hi, hb⟩
      obtain ⟨tile, htile, hmem⟩ := (hcover b).mp hb
      obtain ⟨pid, hpid, hpid', task, htask⟩ := exists_groupTask li hs hi htile
      exact List.mem_flatMap.mpr ⟨_, List.mem_flatMap.mpr
        ⟨pid, List.mem_range.mpr (hnp' pid hpid hpid'), htask⟩, List.mem_map.mpr ⟨b, hmem, rfl⟩⟩

end Tasks

/-! ## Tiles -/

section Tiles

variable {nFull e be N n tile tile' b : ℕ}

theorem mem_tileOffsets : b ∈ tileOffsets nFull e be tile ↔
    ∃ lane < be, tile * be + lane < nFull ∧ ∃ i < e, b = (tile * be + lane) * e + i := by
  simp only [tileOffsets, List.mem_flatMap, List.mem_range]
  constructor
  · rintro ⟨lane, hlane, hb⟩
    split at hb
    case isTrue hlt =>
      obtain ⟨i, hi, rfl⟩ := List.mem_map.mp hb
      exact ⟨lane, hlane, hlt, i, List.mem_range.mp hi, rfl⟩
    case isFalse => cases hb
  · rintro ⟨lane, hlane, hlt, i, hi, rfl⟩
    refine ⟨lane, hlane, ?_⟩
    rw [if_pos hlt]
    exact List.mem_map.mpr ⟨i, List.mem_range.mpr hi, rfl⟩

theorem nodup_tileOffsets : (tileOffsets nFull e be tile).Nodup := by
  refine nodup_flatMap_of_disjoint List.nodup_range (fun lane _ => ?_) ?_
  · split
    · exact List.nodup_range.map fun i j h => Nat.add_left_cancel h
    · exact List.nodup_nil
  · intro lane _ lane' _ b hb hb'
    split at hb
    case isFalse => cases hb
    split at hb'
    case isFalse => cases hb'
    obtain ⟨i, hi, rfl⟩ := List.mem_map.mp hb
    obtain ⟨i', hi', heq⟩ := List.mem_map.mp hb'
    have hdiv := congrArg (· / e) heq
    rw [mul_add_div_of_lt (List.mem_range.mp hi), mul_add_div_of_lt (List.mem_range.mp hi')] at hdiv
    omega

theorem tile_eq_of_mem_tileOffsets (hb : b ∈ tileOffsets nFull e be tile)
    (hb' : b ∈ tileOffsets nFull e be tile') : tile = tile' := by
  obtain ⟨lane, hlane, -, i, hi, rfl⟩ := mem_tileOffsets.mp hb
  obtain ⟨lane', hlane', -, i', hi', heq⟩ := mem_tileOffsets.mp hb'
  have helt := congrArg (· / e) heq
  rw [mul_add_div_of_lt hi, mul_add_div_of_lt hi'] at helt
  have htile := congrArg (· / be) helt
  rwa [mul_add_div_of_lt hlane, mul_add_div_of_lt hlane'] at htile

theorem nodup_tmaTile : (tmaTile n N tile).Nodup := by
  refine List.nodup_range.filterMap fun i j b hi hj => ?_
  split at hi
  case isFalse => cases hi
  split at hj
  case isFalse => cases hj
  have hi := Option.some_inj.mp hi
  have hj := Option.some_inj.mp hj
  omega

theorem tile_eq_of_mem_tmaTile (hb : b ∈ tmaTile n N tile) (hb' : b ∈ tmaTile n N tile') :
    tile = tile' := by
  obtain ⟨i, hi, rfl, -⟩ := mem_tmaTile.mp hb
  obtain ⟨i', hi', heq, -⟩ := mem_tmaTile.mp hb'
  have htile := congrArg (· / N) heq
  rwa [mul_add_div_of_lt hi, mul_add_div_of_lt hi'] at htile

end Tiles

/-! ## The three decompositions -/

namespace PullKernelArgs

variable {a : PullKernelArgs} {srcOff : ℕ}

/-- What a vector kernel copies. -/
def pairs (a : PullKernelArgs) : List (ℕ × ℕ) :=
  taskPairs (tileOffsets (a.copyBytes / a.eltBytes) a.eltBytes a.blockElts)
    (allTasks a.groupRanks.length a.nTiles a.selfLocalIndex a.numPrograms a.numPrograms)

theorem map_act_pullKernel (htail : a.hasTail = false) :
    (a.pullKernel srcOff).map Op.act = a.pairs.map fun x => a.pullByte srcOff x.1 x.2 := by
  simp only [pullKernel, pairs, taskPairs, allTasks, htail, List.flatMap_assoc, List.map_flatMap,
    List.map_map, Bool.false_eq_true, false_and, if_false, List.append_nil]
  rfl

/-- **A vector kernel takes every byte once**, if the element width divides the count. -/
theorem takesAll_pairs (he : 0 < a.eltBytes) (hbe : 0 < a.blockElts) (hp : 0 < a.numPrograms)
    (hdvd : a.eltBytes ∣ a.copyBytes) : TakesAll a.pairs a.groupRanks.length a.copyBytes := by
  refine takesAll_taskPairs hp (le_refl _) (fun pid h _ => h) (fun _ => nodup_tileOffsets)
    (fun _ _ _ => tile_eq_of_mem_tileOffsets) fun b => ⟨fun hb => ?_, ?_⟩
  · rw [← Nat.div_mul_cancel hdvd] at hb
    exact exists_tile he hbe hb
  · rintro ⟨tile, -, hb⟩
    exact mem_tileOffsets_lt hb

end PullKernelArgs

namespace TmaLaunchArgs

variable {a : TmaLaunchArgs} {srcOff : ℕ}

/-- What a TMA kernel copies. -/
def pairs (a : TmaLaunchArgs) : List (ℕ × ℕ) :=
  taskPairs (tmaTile a.sliceBytes a.tileBytes)
    (allTasks a.groupRanks.length a.innerTiles a.selfLocalIndex a.numSms
      (min a.numSms (a.groupRanks.length * a.innerTiles)))

theorem map_act_tmaKernel : (a.tmaKernel srcOff).map Op.act = a.pairs.map fun x =>
    .copy (.comm (a.groupRanks.getD x.1 0) (a.commBufOffset + srcOff + x.2))
      (.output a.selfGlobalRank a.call (x.1 * a.sliceBytes + x.2)) := by
  simp only [tmaKernel, pairs, taskPairs, allTasks, List.flatMap_assoc, List.map_flatMap,
    List.map_map]
  rfl

/-- **A TMA kernel takes every byte once.** -/
theorem takesAll_pairs (hs : 0 < a.numSms) (ht : 0 < a.tileBytes) :
    TakesAll a.pairs a.groupRanks.length a.sliceBytes := by
  refine takesAll_taskPairs hs (min_le_left _ _) (fun pid h h' => lt_min h h')
    (fun _ => nodup_tmaTile) (fun _ _ _ => tile_eq_of_mem_tmaTile) fun b => ⟨exists_tmaTile ht, ?_⟩
  rintro ⟨tile, -, hb⟩
  obtain ⟨-, -, -, hlt⟩ := mem_tmaTile.mp hb
  exact hlt

end TmaLaunchArgs

/-- What the copy engine copies. -/
def copyEnginePairs (groupSize li n : ℕ) : List (ℕ × ℕ) :=
  (swizzledIndices groupSize li).flatMap fun i => (List.range n).map fun b => (i, b)

theorem map_act_copyEngine {call r : ℕ} {ranks : List ℕ} {off srcOff li n : ℕ} :
    (copyEngine call r ranks off srcOff li n).flatten.map Op.act =
      (copyEnginePairs ranks.length li n).map fun x =>
        .copy (.comm (ranks.getD x.1 0) (off + srcOff + x.2)) (.output r call (x.1 * n + x.2)) := by
  have hone : ∀ i, (cudaMemcpyAsync (fun b => .comm (ranks.getD i 0) (off + srcOff + b))
      (fun b => .output r call (i * n + b)) n).flatten.map Op.act =
      (List.range n).map fun b => (.copy (.comm (ranks.getD i 0) (off + srcOff + b))
        (.output r call (i * n + b)) : DataAct) := by
    intro i
    unfold cudaMemcpyAsync
    split
    case isTrue h0 => rw [h0]; rfl
    case isFalse =>
      rw [List.flatten_singleton, copyOps, List.map_map]
      rfl
  unfold copyEngine copyEnginePairs
  induction swizzledIndices ranks.length li with
  | nil => rfl
  | cons i l ih =>
    rw [List.flatMap_cons, List.flatMap_cons, List.flatten_append, List.map_append, List.map_append,
      ih, hone, List.map_map]
    rfl

/-- **The copy engine takes every byte once.** -/
theorem takesAll_copyEngine (groupSize li n : ℕ) :
    TakesAll (copyEnginePairs groupSize li n) groupSize n := by
  constructor
  · refine nodup_flatMap_of_disjoint ?_ (fun i _ => ?_) ?_
    · refine List.Nodup.map_on (fun d hd d' hd' h => ?_) List.nodup_range
      exact swizzle_inj (List.mem_range.mp hd) (List.mem_range.mp hd') h
    · exact List.nodup_range.map fun b b' h => congrArg Prod.snd h
    · intro i _ j _ z hz hz'
      obtain ⟨b, -, rfl⟩ := List.mem_map.mp hz
      obtain ⟨b', -, heq⟩ := List.mem_map.mp hz'
      exact (congrArg Prod.fst heq).symm
  · intro i b
    simp [copyEnginePairs, mem_swizzledIndices]

end GroupFreeCollectives
