import GroupFreeCollectives.Hash
import Mathlib.Data.List.Range
import Mathlib.Data.List.Nodup
import Mathlib.Data.List.Infix

/-!
# Barrier tokens of one group

A token is the hash of `(session_nonce, group_id, epoch)`.  The epoch is the last
word folded in, so for a fixed nonce and group the hash is a bijection of the
64-bit epochs (`stableHash64_eq_iff`), and the epoch behind a hash value can be
computed: `epochHashing`.

The remapping of the hash value 0 to 1 costs this bijection one pair.  For every
nonce and group there is one epoch that hashes to 0 and one that hashes to 1, the
two `exceptionalEpochs`, and both get the token 1.  Every other pair of epochs has
different tokens, so a session repeats a token of the group exactly when it issues
both exceptional epochs.
-/

namespace GroupFreeCollectives

open WordMix

/-! ## The epoch behind a hash value -/

/-- The hash state before the epoch is folded in. -/
def groupHash (sessionNonce groupId : ℤ) : ℕ :=
  stableHash64 [.int sessionNonce, .int groupId]

/-- The epoch whose hash with this nonce and group is `v`. -/
def epochHashing (sessionNonce groupId : ℤ) (v : ℕ) : ℕ :=
  groupHash sessionNonce groupId ^^^ unsplitmix64 v

/-- The epochs whose token is `v`: none for 0, two for 1, one for every other
word. -/
def epochsOfToken (sessionNonce groupId : ℤ) (v : ℕ) : List ℕ :=
  if v = 0 then []
  else if v = 1 then [epochHashing sessionNonce groupId 0, epochHashing sessionNonce groupId 1]
  else [epochHashing sessionNonce groupId v]

/-- The two epochs that share the token 1. -/
def exceptionalEpochs (sessionNonce groupId : ℤ) : List ℕ :=
  epochsOfToken sessionNonce groupId 1

variable {nonce gid : ℤ} {e e' v : ℕ}

theorem epochHashing_lt : epochHashing nonce gid v < 2 ^ 64 :=
  Nat.xor_lt_two_pow (stableHash64_lt _) (unsplitmix64_lt v)

/-- **The epoch of a hash value is unique.** -/
theorem stableHash64_eq_iff (he : e < 2 ^ 64) (hv : v < 2 ^ 64) :
    stableHash64 [.int nonce, .int gid, .int e] = v ↔ e = epochHashing nonce gid v := by
  have hwords : [Chunk.int nonce, .int gid, .int e].flatMap Chunk.words =
      [Chunk.int nonce, .int gid].flatMap Chunk.words ++ [e] := by
    simp [Chunk.words, word64_natCast he]
  rw [stableHash64_word_eq_iff hwords hv, wordHashing, unfoldMix_nil, epochHashing, groupHash,
    stableHash64]

theorem computeToken_eq :
    computeToken nonce gid e =
      if stableHash64 [.int nonce, .int gid, .int e] = 0 then 1
      else stableHash64 [.int nonce, .int gid, .int e] := rfl

theorem computeToken_ne_zero : computeToken nonce gid e ≠ 0 := by
  rw [computeToken_eq]
  split <;> omega

theorem computeToken_lt : computeToken nonce gid e < 2 ^ 64 := by
  rw [computeToken_eq]
  split
  · norm_num
  · exact stableHash64_lt _

/-- **The epochs of a token**, computed from the token. -/
theorem computeToken_eq_iff (he : e < 2 ^ 64) (hv : v < 2 ^ 64) :
    computeToken nonce gid e = v ↔ e ∈ epochsOfToken nonce gid v := by
  have h0 : stableHash64 [.int nonce, .int gid, .int e] = 0 ↔ e = epochHashing nonce gid 0 :=
    stableHash64_eq_iff he (by norm_num)
  have hv' : stableHash64 [.int nonce, .int gid, .int e] = v ↔ e = epochHashing nonce gid v :=
    stableHash64_eq_iff he hv
  rw [computeToken_eq, epochsOfToken]
  split_ifs with hz hv0 hv1 hv0 hv1
  · -- the hash is 0, so the token is 1
    simp [hv0]
  · simp [hv1, ← h0, hz]
  · simp only [List.mem_singleton, ← hv', hz]
    omega
  · simp [hv0, hz]
  · subst hv1
    simp [← h0, ← hv', hz]
  · simp [← hv']

theorem epochHashing_injective (hv : v < 2 ^ 64) {v' : ℕ} (hv' : v' < 2 ^ 64)
    (h : epochHashing nonce gid v = epochHashing nonce gid v') : v = v' := by
  have h1 : stableHash64 [.int nonce, .int gid, .int (epochHashing nonce gid v)] = v :=
    (stableHash64_eq_iff epochHashing_lt hv).mpr rfl
  have h2 : stableHash64 [.int nonce, .int gid, .int (epochHashing nonce gid v')] = v' :=
    (stableHash64_eq_iff epochHashing_lt hv').mpr rfl
  rw [← h1, ← h2, h]

theorem mem_exceptionalEpochs (he : e < 2 ^ 64) :
    e ∈ exceptionalEpochs nonce gid ↔ computeToken nonce gid e = 1 :=
  (computeToken_eq_iff he (by norm_num)).symm

/-- **Two epochs share a token exactly when they are the two exceptional ones.** -/
theorem computeToken_eq_computeToken_iff (he : e < 2 ^ 64) (he' : e' < 2 ^ 64) (hne : e ≠ e') :
    computeToken nonce gid e = computeToken nonce gid e' ↔
      e ∈ exceptionalEpochs nonce gid ∧ e' ∈ exceptionalEpochs nonce gid := by
  constructor
  · intro h
    have h1 := (computeToken_eq_iff he computeToken_lt).mp h
    have h2 : e' ∈ epochsOfToken nonce gid (computeToken nonce gid e') :=
      (computeToken_eq_iff he' computeToken_lt).mp rfl
    have hone : computeToken nonce gid e' = 1 := by
      by_contra hn
      -- any other token has a single epoch
      simp only [epochsOfToken, computeToken_ne_zero, if_false, if_neg hn,
        List.mem_singleton] at h1 h2
      exact hne (h1.trans h2.symm)
    rw [hone] at h1 h2
    exact ⟨h1, h2⟩
  · rintro ⟨h1, h2⟩
    rw [(mem_exceptionalEpochs he).mp h1, (mem_exceptionalEpochs he').mp h2]

/-! ## A session's epochs -/

/-- A request to the epoch manager, as the runtime makes them. -/
inductive EpochRequest where
  | barrier (gid : ℤ)
  | pair (gid : ℤ)

namespace EpochManager

/-- The epochs one request takes, with their group, and the manager after it. -/
def serve (m : EpochManager) : EpochRequest → List (ℤ × ℕ) × EpochManager
  | .barrier gid =>
      let r := m.nextForBarrier gid
      ([(gid, r.1)], r.2)
  | .pair gid =>
      let r := m.nextPairForCollective gid
      ([(gid, r.1.1), (gid, r.1.2)], r.2)

/-- The epochs a sequence of requests takes, in order. -/
def serveAll (m : EpochManager) : List EpochRequest → List (ℤ × ℕ) × EpochManager
  | [] => ([], m)
  | r :: rs =>
      let s := m.serve r
      let t := s.2.serveAll rs
      (s.1 ++ t.1, t.2)

end EpochManager

/-- The epochs of one group among those issued. -/
def epochsFor (gid : ℤ) (es : List (ℤ × ℕ)) : List ℕ :=
  (es.filter fun x => x.1 = gid).map Prod.snd

theorem epochsFor_append (gid : ℤ) (es es' : List (ℤ × ℕ)) :
    epochsFor gid (es ++ es') = epochsFor gid es ++ epochsFor gid es' := by
  simp [epochsFor]

/-- One request issues the next epochs of its group and none of another. -/
theorem epochsFor_serve (m : EpochManager) (r : EpochRequest) (gid : ℤ) :
    ∃ n, (m.serve r).2.peek gid = m.peek gid + n ∧
      epochsFor gid (m.serve r).1 = List.range' (m.peek gid) n := by
  cases r with
  | barrier g =>
    by_cases h : g = gid
    · exact ⟨1, by simp [EpochManager.serve, EpochManager.nextForBarrier, h],
        by simp [EpochManager.serve, EpochManager.nextForBarrier, epochsFor, h,
          EpochManager.peek]⟩
    · exact ⟨0, by simp [EpochManager.serve, EpochManager.nextForBarrier,
          EpochManager.peek_advance_of_ne m (Ne.symm h)],
        by simp [EpochManager.serve, EpochManager.nextForBarrier, epochsFor, h]⟩
  | pair g =>
    by_cases h : g = gid
    · exact ⟨2, by simp [EpochManager.serve, EpochManager.nextPairForCollective, h],
        by simp [EpochManager.serve, EpochManager.nextPairForCollective, epochsFor, h,
          EpochManager.peek, List.range'_succ]⟩
    · exact ⟨0, by simp [EpochManager.serve, EpochManager.nextPairForCollective,
          EpochManager.peek_advance_of_ne m (Ne.symm h)],
        by simp [EpochManager.serve, EpochManager.nextPairForCollective, epochsFor, h]⟩

/-- **Every epoch is issued once, in order, without gaps.** -/
theorem epochsFor_serveAll (m : EpochManager) (rs : List EpochRequest) (gid : ℤ) :
    ∃ n, (m.serveAll rs).2.peek gid = m.peek gid + n ∧
      epochsFor gid (m.serveAll rs).1 = List.range' (m.peek gid) n := by
  induction rs generalizing m with
  | nil => exact ⟨0, rfl, rfl⟩
  | cons r rs ih =>
    obtain ⟨a, ha, hea⟩ := epochsFor_serve m r gid
    obtain ⟨b, hb, heb⟩ := ih (m.serve r).2
    refine ⟨a + b, ?_, ?_⟩
    · show ((m.serve r).2.serveAll rs).2.peek gid = _
      rw [hb, ha, Nat.add_assoc]
    · show epochsFor gid ((m.serve r).1 ++ ((m.serve r).2.serveAll rs).1) = _
      rw [epochsFor_append, hea, heb, ha]
      exact List.range'_append_1

theorem epochsFor_serveAll_empty (rs : List EpochRequest) (gid : ℤ) :
    epochsFor gid (EpochManager.empty.serveAll rs).1 =
      List.range ((EpochManager.empty.serveAll rs).2.peek gid) := by
  obtain ⟨n, hn, he⟩ := epochsFor_serveAll .empty rs gid
  rw [he, hn, EpochManager.peek_empty, Nat.zero_add, List.range_eq_range']

/-! ## When a session repeats a token -/

theorem nodup_tokens_range_iff {n : ℕ} (hn : n ≤ 2 ^ 64) :
    ((List.range n).map (computeToken nonce gid)).Nodup ↔
      ∃ e ∈ exceptionalEpochs nonce gid, n ≤ e := by
  have hexc : exceptionalEpochs nonce gid =
      [epochHashing nonce gid 0, epochHashing nonce gid 1] := rfl
  have hne : epochHashing nonce gid 0 ≠ epochHashing nonce gid 1 := fun h =>
    absurd (epochHashing_injective (by norm_num) (by norm_num) h) (by norm_num)
  constructor
  · intro hnd
    by_contra hcon
    push Not at hcon
    have h0 := hcon (epochHashing nonce gid 0) (by simp [hexc])
    have h1 := hcon (epochHashing nonce gid 1) (by simp [hexc])
    -- both exceptional epochs were issued, with one token
    have htok : computeToken nonce gid (epochHashing nonce gid 0) =
        computeToken nonce gid (epochHashing nonce gid 1) :=
      (computeToken_eq_computeToken_iff epochHashing_lt epochHashing_lt hne).mpr
        ⟨by simp [hexc], by simp [hexc]⟩
    exact hne (List.inj_on_of_nodup_map hnd (List.mem_range.mpr h0) (List.mem_range.mpr h1) htok)
  · rintro ⟨x, hx, hnx⟩
    refine List.Nodup.map_on (fun a ha b hb htok => ?_) List.nodup_range
    by_contra hab
    have ha' := List.mem_range.mp ha
    have hb' := List.mem_range.mp hb
    obtain ⟨hea, heb⟩ := (computeToken_eq_computeToken_iff (by omega) (by omega) hab).mp htok
    -- `a`, `b` and the unissued `x` would be three exceptional epochs
    rw [hexc, List.mem_pair] at hx hea heb
    omega

/-- **Tokens of one group, and tokens of one session.**  Two different epochs get
different tokens, both non-zero 64-bit words, exactly when they are not the two
exceptional epochs of the nonce and group; and the tokens a session issues for the
group are pairwise different exactly when it leaves one of the two exceptional
epochs unissued. -/
theorem tokens_of_group_never_repeat_iff (nonce gid : ℤ) :
    (∀ e₁ e₂ : ℕ, e₁ < 2 ^ 64 → e₂ < 2 ^ 64 → e₁ ≠ e₂ →
      ((computeToken nonce gid e₁ ≠ computeToken nonce gid e₂ ∧
        (computeToken nonce gid e₁ ≠ 0 ∧ computeToken nonce gid e₁ < 2 ^ 64) ∧
        (computeToken nonce gid e₂ ≠ 0 ∧ computeToken nonce gid e₂ < 2 ^ 64)) ↔
      ¬ (e₁ ∈ exceptionalEpochs nonce gid ∧ e₂ ∈ exceptionalEpochs nonce gid))) ∧
    (∀ rs : List EpochRequest, (EpochManager.empty.serveAll rs).2.peek gid ≤ 2 ^ 64 →
      (((epochsFor gid (EpochManager.empty.serveAll rs).1).map (computeToken nonce gid)).Nodup ↔
        ∃ e ∈ exceptionalEpochs nonce gid, (EpochManager.empty.serveAll rs).2.peek gid ≤ e)) := by
  refine ⟨fun e₁ e₂ h₁ h₂ hne => ?_, fun rs hrs => ?_⟩
  · rw [← computeToken_eq_computeToken_iff h₁ h₂ hne]
    exact ⟨fun h => h.1, fun h => ⟨h, ⟨computeToken_ne_zero, computeToken_lt⟩,
      ⟨computeToken_ne_zero, computeToken_lt⟩⟩⟩
  · rw [epochsFor_serveAll_empty]
    exact nodup_tokens_range_iff hrs

/-- The theorem at the epochs 0 and 1 of group 7, and at the session of one
collective on it. -/
theorem tokens_of_group_never_repeat_iff_witness :
    (computeToken 1 7 0 ≠ computeToken 1 7 1 ∧
      (computeToken 1 7 0 ≠ 0 ∧ computeToken 1 7 0 < 2 ^ 64) ∧
      (computeToken 1 7 1 ≠ 0 ∧ computeToken 1 7 1 < 2 ^ 64)) ∧
    ((epochsFor 7 (EpochManager.empty.serveAll [.pair 7]).1).map (computeToken 1 7)).Nodup :=
  ⟨((tokens_of_group_never_repeat_iff 1 7).1 0 1 (by norm_num) (by norm_num)
      (by norm_num)).mpr (by decide +kernel),
    ((tokens_of_group_never_repeat_iff 1 7).2 [.pair 7] (by decide +kernel)).mpr
      (by decide +kernel)⟩

/-- With nonce 1, the epochs 13460795183619545481 and 2535695536381645791 of
group 7 share their token: the first hashes to 0. -/
theorem tokens_of_group_repeat :
    ¬ ∀ (nonce gid : ℤ) (e₁ e₂ : ℕ), e₁ < 2 ^ 64 → e₂ < 2 ^ 64 → e₁ ≠ e₂ →
      (computeToken nonce gid e₁ ≠ computeToken nonce gid e₂ ∧
        (computeToken nonce gid e₁ ≠ 0 ∧ computeToken nonce gid e₁ < 2 ^ 64) ∧
        (computeToken nonce gid e₂ ≠ 0 ∧ computeToken nonce gid e₂ < 2 ^ 64)) := fun h =>
  (h 1 7 13460795183619545481 2535695536381645791 (by norm_num) (by norm_num)
    (by norm_num)).1 (by decide +kernel)

end GroupFreeCollectives
