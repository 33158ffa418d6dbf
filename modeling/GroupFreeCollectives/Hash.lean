import GroupFreeCollectives.Group

/-!
# The hash, word by word

`stable_hash64` folds the words of its chunks into one state.  The mixer is a bijection of
the 64-bit words (`wordInverse_splitmix64`), so the hash is one of every single word, with any
chunks before it and behind it (`bijOn_stableHash64`).  The word of a hash value can be
computed from the other words (`stableHash64_word_eq_iff`).
-/

namespace GroupFreeCollectives

open Set WordMix

/-! ## Words -/

theorem word64_lt (v : ℤ) : word64 v < 2 ^ 64 := by
  have h1 := Int.emod_lt_of_pos v (show (0 : ℤ) < 2 ^ 64 by norm_num)
  have h2 := Int.emod_nonneg v (show (2 ^ 64 : ℤ) ≠ 0 by norm_num)
  rw [word64]
  omega

theorem word64_natCast {e : ℕ} (he : e < 2 ^ 64) : word64 e = e := by
  have h : ((e : ℤ) % 2 ^ 64) = e := Int.emod_eq_of_lt (by omega) (by exact_mod_cast he)
  rw [word64, h, Int.toNat_natCast]

/-- A chunk folds in words only. -/
theorem Chunk.lt_of_mem_words {c : Chunk} {x : ℕ} (hx : x ∈ c.words) : x < 2 ^ 64 := by
  have hbyte : ∀ {data : List UInt8}, x ∈ data.map (·.toNat) → x < 2 ^ 64 := by
    intro data hx
    obtain ⟨b, -, rfl⟩ := List.mem_map.mp hx
    exact b.toNat_lt.trans (by norm_num)
  cases c with
  | bytes data => exact hbyte hx
  | str s => exact hbyte hx
  | tuple vs =>
    obtain ⟨v, -, rfl⟩ := List.mem_map.mp hx
    exact word64_lt v
  | int v =>
    rw [List.mem_singleton.mp hx]
    exact word64_lt v

theorem lt_of_words_eq {chunks : List Chunk} {ws : List ℕ}
    (h : chunks.flatMap Chunk.words = ws) : ∀ x ∈ ws, x < 2 ^ 64 := by
  subst h
  intro x hx
  obtain ⟨c, -, hx⟩ := List.mem_flatMap.mp hx
  exact c.lt_of_mem_words hx

/-- Hash states are words, once a word has been folded in. -/
theorem foldWords_lt {h : ℕ} (hh : h < 2 ^ 64) (ws : List ℕ) : foldWords h ws < 2 ^ 64 := by
  induction ws generalizing h with
  | nil => exact hh
  | cons w ws ih => exact ih (splitmix64_lt _)

theorem stableHash64_lt (chunks : List Chunk) : stableHash64 chunks < 2 ^ 64 :=
  foldWords_lt (by norm_num [fnvOffset]) _

/-! ## The hash as a function of one word -/

variable {us vs : List ℕ} {chunks : List Chunk} {x v : ℕ}

/-- The word between the words `us` and `vs` with which the hash is `v`. -/
def wordHashing (us vs : List ℕ) (v : ℕ) : ℕ :=
  foldWords fnvOffset us ^^^ unsplitmix64 (unfoldMix unsplitmix64 vs v)

theorem wordInverse_foldWords (hus : ∀ x ∈ us, x < 2 ^ 64) (hvs : ∀ x ∈ vs, x < 2 ^ 64) :
    WordInverse 64 (fun x => foldWords fnvOffset (us ++ x :: vs)) (wordHashing us vs) :=
  wordInverse_foldMix_word wordInverse_splitmix64 (by norm_num [fnvOffset]) hus hvs

/-- The chunks fold in words before and behind each of their words. -/
theorem wordInverse_of_words (h : chunks.flatMap Chunk.words = us ++ x :: vs) :
    WordInverse 64 (fun x => foldWords fnvOffset (us ++ x :: vs)) (wordHashing us vs) := by
  have hlt := List.forall_mem_append.mp (lt_of_words_eq h)
  exact wordInverse_foldWords hlt.1 (List.forall_mem_cons.mp hlt.2).2

/-- **The word of a hash value is unique**, given the other words. -/
theorem stableHash64_word_eq_iff (h : chunks.flatMap Chunk.words = us ++ x :: vs)
    (hv : v < 2 ^ 64) : stableHash64 chunks = v ↔ x = wordHashing us vs v := by
  have hx : x < 2 ^ 64 := lt_of_words_eq h x (by simp)
  rw [stableHash64, h]
  exact (wordInverse_of_words h).eq_iff hx hv

/-- **The hash is a bijection in the word at any position.** -/
theorem bijOn_stableHash64 {chunks : ℕ → List Chunk}
    (h : ∀ x < 2 ^ 64, (chunks x).flatMap Chunk.words = us ++ x :: vs) :
    BijOn (fun x => stableHash64 (chunks x)) (Iio (2 ^ 64)) (Iio (2 ^ 64)) := by
  refine (wordInverse_of_words (h 0 (by norm_num))).bijOn.congr fun x hx => ?_
  dsimp only
  rw [stableHash64, h x hx]

theorem bijOn_stableHash64_int (pre post : List Chunk) :
    BijOn (fun x : ℕ => stableHash64 (pre ++ .int x :: post)) (Iio (2 ^ 64)) (Iio (2 ^ 64)) := by
  have hwords : ∀ x : ℕ, x < 2 ^ 64 → (pre ++ .int x :: post).flatMap Chunk.words =
      pre.flatMap Chunk.words ++ x :: post.flatMap Chunk.words := by
    intro x hx
    simp [Chunk.words, word64_natCast hx]
  exact bijOn_stableHash64 hwords

theorem bijOn_stableHash64_tuple (pre post : List Chunk) (us vs : List ℤ) :
    BijOn (fun x : ℕ => stableHash64 (pre ++ .tuple (us ++ (x : ℤ) :: vs) :: post))
      (Iio (2 ^ 64)) (Iio (2 ^ 64)) := by
  have hwords : ∀ x : ℕ, x < 2 ^ 64 →
      (pre ++ .tuple (us ++ (x : ℤ) :: vs) :: post).flatMap Chunk.words =
        (pre.flatMap Chunk.words ++ us.map word64) ++
          x :: (vs.map word64 ++ post.flatMap Chunk.words) := by
    intro x hx
    simp [Chunk.words, word64_natCast hx]
  exact bijOn_stableHash64 hwords

end GroupFreeCollectives
