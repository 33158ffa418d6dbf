import GroupFreeCollectives.Token
import GroupFreeCollectives.Runtime.StreamOrder

/-!
# Operations

An operation is what the members of a group do together: a bare barrier, a collective on
one of its data paths, or the two sides of a p2p transfer.  What the members agree on is
the `Request`; the first of its epochs makes it an `Operation`.  Every rank takes the
epochs from its own counters (`issue`), and two ranks that agree on the requests that
involve both take the same epochs for them (`filter_issue`).
-/

namespace GroupFreeCollectives

open Tiling

/-- A data path, as far as all members of a group take the same. -/
inductive PathKind where
  | oneShot
  | fused (numChannels chunkBytes : ℤ)
  | pipelined (chunks : ℕ)
  deriving DecidableEq

/-- The engine of a one-shot path is the rank's own choice. -/
def DataPath.pathKind : DataPath → PathKind
  | .oneShot _ => .oneShot
  | .fused numChannels chunkBytes => .fused numChannels chunkBytes
  | .pipelined chunks => .pipelined chunks

/-- What the members of a group do. -/
inductive Work where
  | barrier
  | collective (kind : Collective) (sliceBytes : ℕ) (path : PathKind)
  | p2p (protocol : Protocol) (src dst n : ℕ)
  deriving DecidableEq

namespace Work

variable (alignment : ℕ)

/-- How the epochs of an operation are used. -/
def shape : Work → Runtime.Shape
  | .barrier => .single
  | .collective _ _ .oneShot => .pair
  | .collective _ _ (.fused _ _) => .fused
  | .collective _ n (.pipelined chunks) => .chunked (layoutChunks n chunks alignment).length
  | .p2p .. => .pair

/-- The `k`-th barrier of an operation of `groupSize` ranks announces that rank `w` has
stored byte `x` of the communication buffer of rank `q`. -/
def Announces (groupSize k q x w : ℕ) : Work → Prop
  | .barrier | .collective _ _ (.fused _ _) => False
  | .collective kind n .oneShot => k = 0 ∧ w = q ∧ x < kind.stagedBytes groupSize n
  | .collective kind n (.pipelined chunks) => w = q ∧ ∃ chunk,
      (layoutChunks n chunks alignment)[k]? = some chunk ∧
        Runtime.chunkHolds kind groupSize n chunk x
  | .p2p .get src _ n => k = 0 ∧ q = src ∧ w = src ∧ x < n
  | .p2p .put src dst n => w = src ∧ x < n ∧ (k = 0 ∧ q = src ∨ k = 1 ∧ q = dst)

/-- The rank whose input the communication buffer of rank `q` holds: its own, but for the
receiver of a `put`. -/
def origin (q : ℕ) : Work → ℕ
  | .p2p .put src _ _ => src
  | _ => q

end Work

/-- What the members of an operation agree on. -/
structure Request where
  groupId : ℤ
  ranks : List ℕ
  work : Work
  deriving DecidableEq

/-- A request, with its first epoch. -/
structure Operation extends Request where
  epoch : ℕ
  deriving DecidableEq

namespace Operation

variable (nonce : ℤ) (alignment : ℕ) (o : Operation)

/-- The tokens of the barriers of an operation, in order. -/
def tokens : List ℕ :=
  (o.work.shape alignment).offsets.map fun k => computeToken nonce o.groupId (o.epoch + k)

/-- The step base of an operation on the fused path. -/
def stepBase : Option ℕ :=
  match o.work with
  | .collective _ _ (.fused _ _) => some (computeToken nonce o.groupId (o.epoch + 1))
  | _ => none

variable {nonce alignment o}

theorem ne_zero_of_mem_tokens {tok : ℕ} (h : tok ∈ o.tokens nonce alignment) : tok ≠ 0 := by
  obtain ⟨k, -, rfl⟩ := List.mem_map.mp h
  exact computeToken_ne_zero

/-- The first token of an operation. -/
theorem token_mem_tokens : computeToken nonce o.groupId o.epoch ∈ o.tokens nonce alignment := by
  refine List.mem_map.mpr ⟨0, ?_, rfl⟩
  cases o.work.shape alignment <;> simp [Runtime.Shape.offsets]

end Operation

/-! ## Epochs -/

section Issue

variable {alignment q : ℕ} {rs : List Request}

/-- The operations of a rank's requests, with epochs from its counters. -/
def issue (alignment : ℕ) (m : EpochManager) : List Request → List Operation
  | [] => []
  | r :: rs => ⟨r, m.peek r.groupId⟩ ::
      issue alignment (m.advance r.groupId (r.work.shape alignment).numEpochs) rs

/-- **Ranks that agree on the requests that involve both agree on their epochs**, if a
group id stands for one rank list. -/
theorem filter_issue {m m' : EpochManager}
    (hid : ∀ r ∈ rs, ∀ r' ∈ rs, r.groupId = r'.groupId → r.ranks = r'.ranks)
    (hm : ∀ r ∈ rs, q ∈ r.ranks → m.peek r.groupId = m'.peek r.groupId) :
    (issue alignment m rs).filter (q ∈ ·.ranks) =
      issue alignment m' (rs.filter (q ∈ ·.ranks)) := by
  induction rs generalizing m m' with
  | nil => rfl
  | cons r rs ih =>
    have hid' : ∀ r ∈ rs, ∀ r' ∈ rs, r.groupId = r'.groupId → r.ranks = r'.ranks :=
      fun x hx y hy => hid x (List.mem_cons_of_mem r hx) y (List.mem_cons_of_mem r hy)
    by_cases hq : q ∈ r.ranks
    · have hpeek := hm r List.mem_cons_self hq
      rw [issue, List.filter_cons_of_pos (by simpa using hq),
        List.filter_cons_of_pos (by simpa using hq), issue, hpeek]
      refine congrArg _ (ih hid' fun x hx hqx => ?_)
      by_cases hgid : x.groupId = r.groupId
      · rw [hgid, EpochManager.peek_advance_self, EpochManager.peek_advance_self, hpeek]
      · rw [EpochManager.peek_advance_of_ne _ hgid, EpochManager.peek_advance_of_ne _ hgid]
        exact hm x (List.mem_cons_of_mem r hx) hqx
    · rw [issue, List.filter_cons_of_neg (by simpa using hq),
        List.filter_cons_of_neg (by simpa using hq)]
      refine ih hid' fun x hx hqx => ?_
      have hgid : x.groupId ≠ r.groupId := by
        intro h
        rw [hid r List.mem_cons_self x (List.mem_cons_of_mem r hx) h.symm] at hq
        exact hq hqx
      rw [EpochManager.peek_advance_of_ne _ hgid]
      exact hm x (List.mem_cons_of_mem r hx) hqx

end Issue

end GroupFreeCollectives
