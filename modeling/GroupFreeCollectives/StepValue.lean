import GroupFreeCollectives.Kernels.Fused
import GroupFreeCollectives.Token

/-!
# Step values

A fused call waits for `token + k + 1` modulo `2 ^ 64` in the cells of its chunk `k`,
where the token is that of its step-base epoch.  Tokens are never 0, but the sum wraps:
for every chunk there is one token whose step value is 0, the initial content of every
cell, and the epoch with that token can be computed (`stepValue_eq_zero_iff`).  Step
values of one chunk differ where the tokens do (`stepValue_inj`), so two calls on one
group leave the same value in a cell exactly when their epochs are the two that share
the token 1.
-/

namespace GroupFreeCollectives

variable {nonce gid : ℤ} {b b' e e' k : ℕ}

/-- The token whose step value for chunk `k` is 0. -/
def wrappingToken (k : ℕ) : ℕ := (2 ^ 64 - (k + 1) % 2 ^ 64) % 2 ^ 64

theorem wrappingToken_lt (k : ℕ) : wrappingToken k < 2 ^ 64 := Nat.mod_lt _ (by norm_num)

/-- Step values of one chunk differ where the step bases do. -/
theorem stepValue_inj (hb : b < 2 ^ 64) (hb' : b' < 2 ^ 64)
    (h : stepValue b k = stepValue b' k) : b = b' := by
  unfold stepValue at h
  omega

theorem stepValue_eq_zero_iff_eq (hb : b < 2 ^ 64) : stepValue b k = 0 ↔ b = wrappingToken k := by
  unfold stepValue wrappingToken
  omega

/-- **The epoch whose step value for a chunk is the initial content of the cells.** -/
theorem stepValue_eq_zero_iff (he : e < 2 ^ 64) :
    stepValue (computeToken nonce gid e) k = 0 ↔ e ∈ epochsOfToken nonce gid (wrappingToken k) := by
  rw [stepValue_eq_zero_iff_eq computeToken_lt, computeToken_eq_iff he (wrappingToken_lt k)]

/-- **When a wait cannot be satisfied by a value of another call.**  The value awaited
for chunk `k` differs from the initial 0, and from what an earlier call on the same
group with another step-base epoch left in the cell, exactly when its epoch is not the
one whose token wraps to 0 there and the two epochs are not the two exceptional ones. -/
theorem awaited_value_is_fresh_iff (cfg : Config) (nonce gid : ℤ) (_hnonce : nonce ≠ 0)
    (e e' k : ℕ) (he : e < 2 ^ 64) (he' : e' < 2 ^ 64) (hne : e ≠ e')
    (_hk : k < cfg.fusedMaxChunksPerChannel) :
    (stepValue (computeToken nonce gid e) k ≠ 0 ∧
      stepValue (computeToken nonce gid e) k ≠ stepValue (computeToken nonce gid e') k) ↔
    (e ∉ epochsOfToken nonce gid (wrappingToken k) ∧
      ¬ (e ∈ exceptionalEpochs nonce gid ∧ e' ∈ exceptionalEpochs nonce gid)) := by
  rw [Ne, stepValue_eq_zero_iff he, ← computeToken_eq_computeToken_iff he he' hne]
  refine and_congr_right fun _ => not_congr ⟨fun h => ?_, fun h => by rw [h]⟩
  exact stepValue_inj computeToken_lt computeToken_lt h

/-- The theorem at chunk 3 of the epochs 1 and 4 of group 7. -/
theorem awaited_value_is_fresh_iff_witness :
    stepValue (computeToken 1 7 4) 3 ≠ 0 ∧
      stepValue (computeToken 1 7 4) 3 ≠ stepValue (computeToken 1 7 1) 3 :=
  (awaited_value_is_fresh_iff .default 1 7 (by decide) 4 1 3 (by norm_num) (by norm_num)
    (by decide) (by decide +kernel)).mpr (by decide +kernel)

/-- With nonce 1, the epoch 16889718331651271625 of group 7 has the token `2 ^ 64 - 1`,
so its first chunk is awaited with the value 0, which every fresh cell holds. -/
theorem awaited_value_can_be_zero :
    ¬ ∀ (cfg : Config) (nonce gid : ℤ), nonce ≠ 0 → ∀ e e' k : ℕ, e < 2 ^ 64 → e' < 2 ^ 64 →
      e ≠ e' → k < cfg.fusedMaxChunksPerChannel →
        stepValue (computeToken nonce gid e) k ≠ 0 ∧
        stepValue (computeToken nonce gid e) k ≠ stepValue (computeToken nonce gid e') k :=
  fun h => (h .default 1 7 (by decide) 16889718331651271625 0 0 (by norm_num) (by norm_num)
    (by decide) (by decide +kernel)).1 (by decide +kernel)

end GroupFreeCollectives
