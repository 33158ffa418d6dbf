import GroupFreeCollectives.Config
import GroupFreeCollectives.Lib.WordMix

/-!
# Group descriptors, the stable hash, epochs and tokens

`gfc/group.py`.  Python integers are `ℤ` where a caller may pass any of them (a
session nonce, an explicit `group_id`) and `ℕ` where the code only ever makes
non-negative ones (the hash state, the epochs).

A `GroupDescriptor` is an object: two descriptors with equal fields can be
different handles, and the runtime releases handles by identity.  The field
`handle` is that identity.  The mutable slot `ranks_dev` is not a field here but
part of the runtime state, indexed by the handle.
-/

namespace GroupFreeCollectives

/-- `_U64_MASK`. -/
def u64Mask : ℕ := (1 <<< 64) - 1

/-- `_splitmix64`. -/
def splitmix64 (x : ℕ) : ℕ :=
  let x := (x + 0x9E3779B97F4A7C15) &&& u64Mask
  let x := ((x ^^^ (x >>> 30)) * 0xBF58476D1CE4E5B9) &&& u64Mask
  let x := ((x ^^^ (x >>> 27)) * 0x94D049BB133111EB) &&& u64Mask
  (x ^^^ (x >>> 31)) &&& u64Mask

/-- The values `stable_hash64` accepts. -/
inductive Chunk where
  | bytes (data : List UInt8)
  | str (s : String)
  | tuple (vs : List ℤ)
  | int (v : ℤ)

/-- `int(v) & _U64_MASK`, the two's complement word of a Python integer. -/
def word64 (v : ℤ) : ℕ := (v % 2 ^ 64).toNat

/-- The words a chunk folds into the hash, in order. -/
def Chunk.words : Chunk → List ℕ
  | .bytes data => data.map (·.toNat)
  | .str s => s.toUTF8.toList.map (·.toNat)
  | .tuple vs => vs.map word64
  | .int v => [word64 v]

/-- The FNV offset that seeds the hash. -/
def fnvOffset : ℕ := 0xCBF29CE484222325

/-- The hash of a sequence of words from the state `h`: each word is xored in
and mixed. -/
def foldWords (h : ℕ) (ws : List ℕ) : ℕ := ws.foldl (fun h w => splitmix64 (h ^^^ w)) h

/-- `stable_hash64`, seeded from the FNV offset. -/
def stableHash64 (chunks : List Chunk) : ℕ :=
  foldWords fnvOffset (chunks.flatMap Chunk.words)

/-- `compute_token`: the hash of the three integers, with 0 remapped to 1. -/
def computeToken (sessionNonce groupId : ℤ) (epoch : ℕ) : ℕ :=
  let h := stableHash64 [.int sessionNonce, .int groupId, .int epoch]
  if h = 0 then 1 else h

/-- The dataclass `GroupDescriptor`, with what `__post_init__` requires of it. -/
structure GroupDescriptor where
  handle : ℕ
  groupId : ℤ
  ranks : List ℕ
  localIndex : ℤ
  size : ℕ
  size_eq : size = ranks.length
  localIndex_ge : -1 ≤ localIndex
  localIndex_lt : localIndex < size
  deriving DecidableEq, Repr

/-! ## The epoch manager -/

/-- `_EpochManager`: the next epoch of every group id, 0 where none was issued. -/
structure EpochManager where
  next : ℤ → ℕ

namespace EpochManager

/-- `_EpochManager()`. -/
def empty : EpochManager := ⟨fun _ => 0⟩

/-- `peek`. -/
def peek (m : EpochManager) (gid : ℤ) : ℕ := m.next gid

/-- The manager after `n` epochs of `gid` were issued. -/
def advance (m : EpochManager) (gid : ℤ) (n : ℕ) : EpochManager :=
  ⟨Function.update m.next gid (m.next gid + n)⟩

/-- `next_for_barrier`. -/
def nextForBarrier (m : EpochManager) (gid : ℤ) : ℕ × EpochManager :=
  (m.next gid, m.advance gid 1)

/-- `next_pair_for_collective`. -/
def nextPairForCollective (m : EpochManager) (gid : ℤ) : (ℕ × ℕ) × EpochManager :=
  ((m.next gid, m.next gid + 1), m.advance gid 2)

@[simp] theorem peek_empty (gid : ℤ) : empty.peek gid = 0 := rfl

@[simp] theorem peek_advance_self (m : EpochManager) (gid : ℤ) (n : ℕ) :
    (m.advance gid n).peek gid = m.peek gid + n := by
  simp [peek, advance]

theorem peek_advance_of_ne (m : EpochManager) {gid gid' : ℤ} (h : gid' ≠ gid) (n : ℕ) :
    (m.advance gid n).peek gid' = m.peek gid' := by
  simp [peek, advance, h]

@[simp] theorem advance_zero (m : EpochManager) (gid : ℤ) : m.advance gid 0 = m := by
  simp [advance]

theorem advance_advance (m : EpochManager) (gid : ℤ) (a b : ℕ) :
    (m.advance gid a).advance gid b = m.advance gid (a + b) := by
  simp [advance, Nat.add_assoc]

/-- Issuing epochs never lowers a counter. -/
theorem peek_le_peek_advance (m : EpochManager) (gid gid' : ℤ) (n : ℕ) :
    m.peek gid' ≤ (m.advance gid n).peek gid' := by
  by_cases h : gid' = gid
  · rw [h, peek_advance_self]
    exact Nat.le_add_right _ _
  · rw [peek_advance_of_ne m h]

end EpochManager

/-! ## The mixer is a bijection of the 64-bit words -/

open Set WordMix

/-- The inverse of `splitmix64` on 64-bit words, with the modular inverses of its
two multipliers. -/
def unsplitmix64 (y : ℕ) : ℕ :=
  unMix 64 0x61C8864680B583EB 30 0x96DE1B173F119089 27 0x319642B2D24D8EC3 31 y

theorem and_u64Mask (x : ℕ) : x &&& u64Mask = x % 2 ^ 64 :=
  Nat.and_two_pow_sub_one_eq_mod x 64

theorem splitmix64_eq (x : ℕ) :
    splitmix64 x =
      mix 64 0x9E3779B97F4A7C15 30 0xBF58476D1CE4E5B9 27 0x94D049BB133111EB 31 x := by
  have hlast : ∀ z, xorShift 31 (mulWord 64 0x94D049BB133111EB z) % 2 ^ 64 =
      xorShift 31 (mulWord 64 0x94D049BB133111EB z) := fun z =>
    Nat.mod_eq_of_lt (xorShift_lt (mulWord_lt 64 _ z))
  simp only [splitmix64, and_u64Mask]
  rw [mix, ← hlast]
  simp only [xorShift, mulWord, addWord]

/-- **`_splitmix64` is a bijection of the 64-bit words, with inverse
`unsplitmix64`.** -/
theorem wordInverse_splitmix64 : WordInverse 64 splitmix64 unsplitmix64 := by
  rw [funext splitmix64_eq]
  exact wordInverse_mix (by norm_num) (by norm_num) (by norm_num) (by norm_num) (by norm_num)
    (by norm_num)

theorem splitmix64_lt (x : ℕ) : splitmix64 x < 2 ^ 64 := by
  rw [splitmix64_eq]
  exact xorShift_lt (mulWord_lt 64 _ _)

theorem unsplitmix64_lt (y : ℕ) : unsplitmix64 y < 2 ^ 64 := addWord_lt 64 _ _

-- the two facts above are all that later proofs use of the mixer
attribute [irreducible] splitmix64 unsplitmix64

end GroupFreeCollectives
