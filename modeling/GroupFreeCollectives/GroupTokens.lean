import GroupFreeCollectives.Token
import GroupFreeCollectives.Device

/-!
# Tokens of two groups at one epoch

The registry and the epoch manager know a group by its id, any Python integer.  The hash
knows it by the id's two's complement word.  The id is the middle one of the three words
folded in, and what is folded in behind it is undone like what comes before, so for a fixed
nonce and epoch the hash is a bijection of the group words (`stableHash64_group_eq_iff`).

So two ids get one token in two ways only (`groups_told_apart_iff`): their words are the same, or
they are the two words whose hashes are 0 and 1, which the remapping of 0 makes one.
-/

namespace GroupFreeCollectives

open WordMix

/-- The hash state before the group is folded in. -/
def nonceHash (sessionNonce : ℤ) : ℕ := stableHash64 [.int sessionNonce]

/-- The group word whose hash with this nonce and epoch is `v`. -/
def groupHashing (sessionNonce : ℤ) (epoch v : ℕ) : ℕ :=
  nonceHash sessionNonce ^^^ unsplitmix64 (unsplitmix64 v ^^^ epoch)

/-- The two group words that get the token 1. -/
def exceptionalGroups (sessionNonce : ℤ) (epoch : ℕ) : List ℕ :=
  [groupHashing sessionNonce epoch 0, groupHashing sessionNonce epoch 1]

variable {nonce gid gid' : ℤ} {e v : ℕ}

/-- **The group word of a hash value is unique.** -/
theorem stableHash64_group_eq_iff (he : e < 2 ^ 64) (hv : v < 2 ^ 64) :
    stableHash64 [.int nonce, .int gid, .int e] = v ↔ word64 gid = groupHashing nonce e v := by
  have hwords : [Chunk.int nonce, .int gid, .int e].flatMap Chunk.words =
      [Chunk.int nonce].flatMap Chunk.words ++ word64 gid :: [e] := by
    simp [Chunk.words, word64_natCast he]
  rw [stableHash64_word_eq_iff hwords hv, wordHashing, unfoldMix_cons, unfoldMix_nil, groupHashing,
    nonceHash, stableHash64]

theorem computeToken_eq_one_iff (he : e < 2 ^ 64) :
    computeToken nonce gid e = 1 ↔ word64 gid ∈ exceptionalGroups nonce e := by
  rw [exceptionalGroups, List.mem_pair, ← stableHash64_group_eq_iff he (by norm_num),
    ← stableHash64_group_eq_iff he (by norm_num), computeToken_eq]
  split_ifs with hzero
  · simp [hzero]
  · simp [hzero]

/-- **Two groups share a token exactly when their words are the same or both exceptional.** -/
theorem computeToken_groups_eq_iff (he : e < 2 ^ 64) :
    computeToken nonce gid e = computeToken nonce gid' e ↔
      word64 gid = word64 gid' ∨
        word64 gid ∈ exceptionalGroups nonce e ∧ word64 gid' ∈ exceptionalGroups nonce e := by
  constructor
  · intro heq
    by_cases hone : computeToken nonce gid' e = 1
    · exact Or.inr ⟨(computeToken_eq_one_iff he).mp (heq.trans hone),
        (computeToken_eq_one_iff he).mp hone⟩
    · -- a token other than 1 is the hash value itself
      have hhash : ∀ {g : ℤ}, computeToken nonce g e ≠ 1 →
          computeToken nonce g e = stableHash64 [.int nonce, .int g, .int e] := by
        intro g hg
        rw [computeToken_eq] at hg ⊢
        split_ifs at hg ⊢
        · exact absurd rfl hg
        · rfl
      rw [hhash (heq ▸ hone), hhash hone] at heq
      left
      rw [(stableHash64_group_eq_iff he (stableHash64_lt _)).mp heq,
        ← (stableHash64_group_eq_iff he (stableHash64_lt _)).mp rfl]
  · rintro (hword | ⟨hone, hone'⟩)
    · have hhash : stableHash64 [.int nonce, .int gid, .int e] =
          stableHash64 [.int nonce, .int gid', .int e] :=
        (stableHash64_group_eq_iff he (stableHash64_lt _)).mpr
          (hword.trans ((stableHash64_group_eq_iff he (stableHash64_lt _)).mp rfl))
      rw [computeToken_eq, computeToken_eq, hhash]
    · rw [(computeToken_eq_one_iff he).mpr hone, (computeToken_eq_one_iff he).mpr hone']

/-! ## Waits -/

/-- The groups have different tokens at the epoch, and no content of a signal cell lets a
barrier of the one and a barrier of the other pass. -/
def TellsApart (sessionNonce : ℤ) (epoch : ℕ) (gid gid' : ℤ) : Prop :=
  computeToken sessionNonce gid epoch ≠ computeToken sessionNonce gid' epoch ∧
    ∀ (α : Type) (m : Memory α) (worldSize rank peer : ℕ),
      (Act.await peer (computeToken sessionNonce gid epoch)).guard worldSize rank m →
        ¬ (Act.await peer (computeToken sessionNonce gid' epoch)).guard worldSize rank m

/-- **Two ids are told apart at an epoch, unless they have the same word or the two
exceptional ones.** -/
theorem groups_told_apart_iff (nonce gid gid' : ℤ) (e : ℕ) (he : e < 2 ^ 64) :
    TellsApart nonce e gid gid' ↔
      ¬ (gid % 2 ^ 64 = gid' % 2 ^ 64 ∨
        word64 gid ∈ exceptionalGroups nonce e ∧ word64 gid' ∈ exceptionalGroups nonce e) := by
  have hword : gid % 2 ^ 64 = gid' % 2 ^ 64 ↔ word64 gid = word64 gid' := by
    rw [word64, word64]
    omega
  rw [hword, ← computeToken_groups_eq_iff he]
  constructor
  · exact fun h => h.1
  · exact fun hne => ⟨hne, fun α m worldSize rank peer h h' => hne (h.symm.trans h')⟩

/-- The theorem at the epoch 0 of groups 7 and 8. -/
theorem groups_told_apart_iff_witness : TellsApart 1 0 7 8 :=
  (groups_told_apart_iff 1 7 8 0 (by norm_num)).mpr (by decide +kernel)

/-- The ids 0 and `2 ^ 64` have one word. -/
theorem congruent_ids_share_tokens :
    ¬ ∀ (nonce gid gid' : ℤ) (e : ℕ), e < 2 ^ 64 → gid ≠ gid' → TellsApart nonce e gid gid' := by
  intro h
  exact (h 1 0 (2 ^ 64) 0 (by norm_num) (by norm_num)).1 (by decide +kernel)

end GroupFreeCollectives
