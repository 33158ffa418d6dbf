import GroupFreeCollectives.Device
import GroupFreeCollectives.Lib.Tiling
import Mathlib.Data.Int.Bitwise
import Mathlib.Data.Set.Basic

/-!
# Vector widths and what the kernels share

`gfc/kernels/_common.py`, `_vec_for` of `gfc/runtime.py`, and the facts about widths
and copies that every data kernel uses.  What a kernel is for is the set of its actions
(`acts`): which program makes a copy, and when, only matters inside the kernel.
-/

namespace GroupFreeCollectives

open Tiling

/-! ## Vector widths -/

/-- The loop of `vec_width_bytes`, with the gcd so far. -/
def vecWidthLoop (align : ℤ) : List ℤ → ℕ
  | [] => if 16 ≤ align then 16 else if 8 ≤ align then 8 else if 4 ≤ align then 4 else 1
  | a :: as => if a ≤ 0 then 1 else vecWidthLoop (if align = 0 then a else Int.gcd align a) as

/-- `vec_width_bytes`. -/
def vecWidthBytes (alignments : List ℤ) : ℕ := vecWidthLoop 0 alignments

/-- `base_alignment`: the largest power of two dividing an address. -/
def baseAlignment (addr : ℤ) : ℤ := if addr = 0 then 1 <<< 62 else addr.land (-addr)

/-- `_vec_for`: the width for pointers and, last, a byte count that is not an
address. -/
def vecFor (ptrs : List ℤ) (size : ℤ) : ℕ := vecWidthBytes (ptrs.map baseAlignment ++ [size])

/-- The widths the kernels are specialised to. -/
def IsVecWidth (w : ℕ) : Prop := w = 16 ∨ w = 8 ∨ w = 4 ∨ w = 1

theorem IsVecWidth.pos {w : ℕ} (h : IsVecWidth w) : 0 < w := by
  rcases h with rfl | rfl | rfl | rfl <;> decide

theorem isVecWidth_vecWidthLoop (align : ℤ) (as : List ℤ) :
    IsVecWidth (vecWidthLoop align as) := by
  induction as generalizing align with
  | nil =>
    unfold vecWidthLoop IsVecWidth
    split_ifs <;> decide
  | cons a as ih =>
    rw [vecWidthLoop]
    split
    · exact Or.inr (Or.inr (Or.inr rfl))
    · exact ih _

theorem isVecWidth_vecWidthBytes (as : List ℤ) : IsVecWidth (vecWidthBytes as) :=
  isVecWidth_vecWidthLoop 0 as

theorem isVecWidth_vecFor (ptrs : List ℤ) (size : ℤ) : IsVecWidth (vecFor ptrs size) :=
  isVecWidth_vecWidthBytes _

/-! ## What operations do, whatever program makes them -/

/-- The actions of a list of operations. -/
def acts (ops : List (Op DataAct)) : Set DataAct := {d | ∃ o ∈ ops, o.act = d}

/-- The copies of `n` bytes. -/
def copies (src dst : ℕ → Cell) (n : ℕ) : Set DataAct := {d | ∃ b < n, d = .copy (src b) (dst b)}

/-- The copies of `n` bytes from every member of a group. -/
def groupCopies (ranks : List ℕ) (src dst : ℕ → ℕ → ℕ → Cell) (n : ℕ) : Set DataAct :=
  {d | ∃ i peer, ranks[i]? = some peer ∧ ∃ b < n, d = .copy (src i peer b) (dst i peer b)}

/-- A copy that is one operation of its stream: `copy_` of a tensor, or
`cudaMemcpyAsync`. -/
def copyOps (src dst : ℕ → Cell) (n : ℕ) : List (Op DataAct) :=
  (List.range n).map fun b => ⟨0, 0, .copy (src b) (dst b)⟩

@[simp] theorem acts_nil : acts [] = ∅ := by
  ext d
  simp [acts]

theorem mem_acts_flatten {ks : List (List (Op DataAct))} {d : DataAct} :
    d ∈ acts ks.flatten ↔ ∃ ops ∈ ks, d ∈ acts ops := by
  constructor
  · rintro ⟨o, ho, rfl⟩
    obtain ⟨ops, hops, ho⟩ := List.mem_flatten.mp ho
    exact ⟨ops, hops, o, ho, rfl⟩
  · rintro ⟨ops, hops, o, ho, rfl⟩
    exact ⟨o, List.mem_flatten.mpr ⟨ops, hops, ho⟩, rfl⟩

theorem acts_copyOps (src dst : ℕ → Cell) (n : ℕ) :
    acts (copyOps src dst n) = copies src dst n := by
  ext d
  simp only [acts, copyOps, copies, List.mem_map, List.mem_range, Set.mem_ofPred_eq]
  constructor
  · rintro ⟨o, ⟨b, hb, rfl⟩, rfl⟩
    exact ⟨b, hb, rfl⟩
  · rintro ⟨b, hb, rfl⟩
    exact ⟨_, ⟨b, hb, rfl⟩, rfl⟩

/-! ## Collectives -/

/-- The two collectives with a data path. -/
inductive Collective where
  | allGather
  | all2All
  deriving DecidableEq, Repr

/-- Where in a peer's communication buffer (and in its input) the segment for local
index `li` starts: `all_gather` pulls the whole slice, `all2all` the slice number
`li`. -/
def Collective.srcOffset (kind : Collective) (li sliceBytes : ℕ) : ℕ :=
  match kind with
  | .allGather => 0
  | .all2All => li * sliceBytes

/-- The bytes a rank stages: one slice, or one slice for each member. -/
def Collective.stagedBytes (kind : Collective) (groupSize sliceBytes : ℕ) : ℕ :=
  match kind with
  | .allGather => sliceBytes
  | .all2All => sliceBytes * groupSize

end GroupFreeCollectives
