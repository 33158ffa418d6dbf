import Mathlib.Data.Nat.Bitwise
import Mathlib.Data.Nat.Bits
import Mathlib.Data.List.Nodup
import Mathlib.Data.List.Range
import Mathlib.Data.Nat.ModEq
import Mathlib.Tactic.Ring
import Mathlib.Tactic.Linarith

/-!
# Strided loops and tiles

Loops over a range with a step, and the tilings they make.

* `stepRange a b s` is the loop `for x in range(a, b, s)`; the tiles of width `s` at its
  values cover the range exactly (`mem_tile_iff`), and loops started at every offset
  below the stride take every index once (`exists_mem_stepRange_iff`).
* `cdiv` is division rounding up, `alignUp` rounds up to a multiple of a power of two by
  masking low bits.
* `Contiguous a l b`: the runs `(offset, size)` of `l` are nonempty, follow one another and
  make up the range from `a` to `b`.
* `exists_swizzle`: visiting `0, …, n - 1` in rotated order visits all of them.
-/

namespace Tiling

variable {a b s i j n x : ℕ}

/-! ## Division rounding up -/

/-- `a / b`, rounded up. -/
def cdiv (a b : ℕ) : ℕ := (a + b - 1) / b

theorem lt_cdiv_iff (hb : 0 < b) : i < cdiv a b ↔ i * b < a := by
  rw [cdiv, Nat.lt_iff_add_one_le, Nat.le_div_iff_mul_le hb, Nat.add_mul, Nat.one_mul]
  omega

theorem cdiv_le_iff (hb : 0 < b) : cdiv a b ≤ i ↔ a ≤ i * b := by
  rw [← not_lt, lt_cdiv_iff hb, not_lt]

theorem le_cdiv_mul (hb : 0 < b) : a ≤ cdiv a b * b := by
  have h : ¬ cdiv a b < cdiv a b := lt_irrefl _
  rw [lt_cdiv_iff hb] at h
  omega

@[simp] theorem cdiv_zero (hb : 0 < b) : cdiv 0 b = 0 := by
  rw [cdiv, Nat.zero_add]
  exact Nat.div_eq_of_lt (by omega)

/-! ## Loops with a step -/

/-- The values of `for x in range(a, b, s)`. -/
def stepRange (a b s : ℕ) : List ℕ := List.range' a (cdiv (b - a) s) s

theorem mem_stepRange (hs : 0 < s) : x ∈ stepRange a b s ↔ ∃ i, x = a + s * i ∧ x < b := by
  rw [stepRange, List.mem_range']
  constructor
  · rintro ⟨i, hi, rfl⟩
    rw [lt_cdiv_iff hs, Nat.mul_comm] at hi
    exact ⟨i, rfl, by omega⟩
  · rintro ⟨i, rfl, hlt⟩
    refine ⟨i, ?_, rfl⟩
    rw [lt_cdiv_iff hs, Nat.mul_comm]
    omega

/-- A loop that has reached its bound takes no further value. -/
theorem stepRange_of_le (h : b ≤ a) : stepRange a b s = [] := by
  rcases Nat.eq_zero_or_pos s with rfl | hs
  · rw [stepRange, cdiv, Nat.div_zero, List.range'_zero]
  · rw [stepRange, Nat.sub_eq_zero_of_le h, cdiv_zero hs, List.range'_zero]

/-- A loop goes on by its step. -/
theorem stepRange_of_lt (hs : 0 < s) (h : a < b) :
    stepRange a b s = a :: stepRange (a + s) b s := by
  have hcount : cdiv (b - a) s = cdiv (b - (a + s)) s + 1 := by
    refine eq_of_forall_lt_iff fun i => ?_
    rw [lt_cdiv_iff hs]
    cases i with
    | zero => omega
    | succ i =>
      rw [Nat.succ_lt_succ_iff, lt_cdiv_iff hs, Nat.succ_mul]
      omega
  rw [stepRange, stepRange, hcount, List.range'_succ]

/-- The tiles at the values of a loop cover its range, and nothing else below the
bound. -/
theorem mem_tile_iff (hs : 0 < s) :
    (∃ o ∈ stepRange a b s, ∃ k < s, j = o + k ∧ j < b) ↔ a ≤ j ∧ j < b := by
  constructor
  · rintro ⟨o, ho, k, -, rfl, hlt⟩
    obtain ⟨i, rfl, -⟩ := (mem_stepRange hs).mp ho
    exact ⟨by rw [Nat.add_assoc]; exact Nat.le_add_right _ _, hlt⟩
  · rintro ⟨haj, hjb⟩
    have hdm := Nat.div_add_mod (j - a) s
    have hmod : (j - a) % s < s := Nat.mod_lt _ hs
    refine ⟨a + s * ((j - a) / s), (mem_stepRange hs).mpr ⟨_, rfl, ?_⟩, (j - a) % s, hmod, ?_, hjb⟩
    · omega
    · omega

/-- Loops that start at every offset below the stride take every index between them. -/
theorem exists_mem_stepRange_iff (hs : 0 < s) :
    (∃ p < s, x ∈ stepRange p n s) ↔ x < n := by
  constructor
  · rintro ⟨p, -, hx⟩
    obtain ⟨i, -, hlt⟩ := (mem_stepRange hs).mp hx
    exact hlt
  · intro hlt
    refine ⟨x % s, Nat.mod_lt _ hs, (mem_stepRange hs).mpr ⟨x / s, ?_, hlt⟩⟩
    exact (Nat.mod_add_div x s).symm

/-- A loop takes no value twice. -/
theorem nodup_stepRange (hs : 0 < s) : (stepRange a b s).Nodup := List.nodup_range' s hs

/-- A concatenation has no duplicates if its parts have none and share nothing. -/
theorem nodup_flatMap_of_disjoint {α β : Type*} {l : List α} {f : α → List β} (hl : l.Nodup)
    (hf : ∀ x ∈ l, (f x).Nodup) (hdisj : ∀ x ∈ l, ∀ y ∈ l, ∀ z ∈ f x, z ∈ f y → x = y) :
    (l.flatMap f).Nodup := by
  refine List.nodup_flatMap.mpr ⟨hf, hl.imp_of_mem fun {x y} hx hy hne z hz hz' => ?_⟩
  exact hne (hdisj x hx y hy z hz hz')

/-! ## Contiguous runs -/

/-- The runs of a list follow one another from `a` to `b`. -/
def Contiguous : ℕ → List (ℕ × ℕ) → ℕ → Prop
  | a, [], b => a = b
  | a, r :: l, b => r.1 = a ∧ 0 < r.2 ∧ Contiguous (a + r.2) l b

namespace Contiguous

variable {l : List (ℕ × ℕ)} {r : ℕ × ℕ}

theorem le (h : Contiguous a l b) : a ≤ b := by
  induction l generalizing a with
  | nil => exact h.le
  | cons r l ih => exact le_trans (Nat.le_add_right _ _) (ih h.2.2)

/-- A run is nonempty and lies in the range. -/
theorem bounds (h : Contiguous a l b) (hr : r ∈ l) : a ≤ r.1 ∧ 0 < r.2 ∧ r.1 + r.2 ≤ b := by
  induction l generalizing a with
  | nil => cases hr
  | cons r' l ih =>
    obtain ⟨h1, h2, h3⟩ := h
    rcases List.mem_cons.mp hr with rfl | hr
    · exact ⟨h1.ge, h2, h1 ▸ h3.le⟩
    · obtain ⟨h4, h5, h6⟩ := ih h3 hr
      exact ⟨by omega, h5, h6⟩

/-- Every point of the range lies in a run. -/
theorem exists_run (h : Contiguous a l b) (ha : a ≤ x) (hb : x < b) :
    ∃ (k : ℕ) (r : ℕ × ℕ), l[k]? = some r ∧ r.1 ≤ x ∧ x < r.1 + r.2 := by
  induction l generalizing a with
  | nil =>
    obtain rfl : a = b := h
    omega
  | cons r l ih =>
    obtain ⟨h1, h2, h3⟩ := h
    by_cases hx : x < a + r.2
    · exact ⟨0, r, rfl, by omega, by omega⟩
    · obtain ⟨k, r', hk, hr'⟩ := ih h3 (by omega)
      exact ⟨k + 1, r', hk, hr'⟩

/-- No run occurs twice. -/
theorem nodup (h : Contiguous a l b) : l.Nodup := by
  induction l generalizing a with
  | nil => exact List.nodup_nil
  | cons r l ih =>
    obtain ⟨h1, h2, h3⟩ := h
    refine List.nodup_cons.mpr ⟨fun hmem => ?_, ih h3⟩
    have := (h3.bounds hmem).1
    omega

/-- No point lies in two runs. -/
theorem eq_of_mem_runs {k k' : ℕ} {r' : ℕ × ℕ} (h : Contiguous a l b) (hk : l[k]? = some r)
    (hk' : l[k']? = some r') (hx : r.1 ≤ x ∧ x < r.1 + r.2) (hx' : r'.1 ≤ x ∧ x < r'.1 + r'.2) :
    k = k' := by
  induction l generalizing a k k' with
  | nil => simp at hk
  | cons r₀ l ih =>
    obtain ⟨h1, h2, h3⟩ := h
    -- the runs behind the first one start where it ends
    have hlater : ∀ {k : ℕ} {r : ℕ × ℕ}, l[k]? = some r → a + r₀.2 ≤ r.1 := by
      intro k r hr
      exact (h3.bounds (List.mem_of_getElem? hr)).1
    cases k with
    | zero =>
      obtain rfl : r₀ = r := by simpa using hk
      cases k' with
      | zero => rfl
      | succ k' =>
        have := hlater (by simpa using hk')
        omega
    | succ k =>
      cases k' with
      | zero =>
        obtain rfl : r₀ = r' := by simpa using hk'
        have := hlater (by simpa using hk)
        omega
      | succ k' =>
        have heq : k = k' := ih h3 (by simpa using hk) (by simpa using hk')
        rw [heq]

end Contiguous

/-! ## Alignment -/

/-- `(x + a - 1) & ~(a - 1)`. -/
def alignUp (x a : ℕ) : ℕ := Nat.ldiff (x + a - 1) (a - 1)

theorem ldiff_two_pow_sub_one (x k : ℕ) : Nat.ldiff x (2 ^ k - 1) = x / 2 ^ k * 2 ^ k := by
  apply Nat.eq_of_testBit_eq
  intro i
  rw [Nat.testBit_ldiff, Nat.testBit_two_pow_sub_one, ← Nat.shiftRight_eq_div_pow,
    ← Nat.shiftLeft_eq, Nat.testBit_shiftLeft, Nat.testBit_shiftRight]
  by_cases hik : i < k
  · simp [hik]
  · have hki : k ≤ i := by omega
    simp [hik, hki]

theorem alignUp_eq (ha : a.isPowerOfTwo) : alignUp x a = cdiv x a * a := by
  obtain ⟨k, rfl⟩ := ha
  rw [alignUp, ldiff_two_pow_sub_one, cdiv]

theorem le_alignUp (ha : a.isPowerOfTwo) : x ≤ alignUp x a := by
  rw [alignUp_eq ha]
  exact le_cdiv_mul (Nat.pos_of_isPowerOfTwo ha)

theorem dvd_alignUp (ha : a.isPowerOfTwo) : a ∣ alignUp x a := by
  rw [alignUp_eq ha]
  exact Dvd.intro_left _ rfl

/-- Rounding up stays below the next multiple. -/
theorem alignUp_lt (ha : a.isPowerOfTwo) : alignUp x a < x + a := by
  have hpos := Nat.pos_of_isPowerOfTwo ha
  have hmul := Nat.div_mul_le_self (x + a - 1) a
  rw [alignUp_eq ha, cdiv]
  omega

/-- An aligned bound survives rounding up. -/
theorem alignUp_le (ha : a.isPowerOfTwo) (hdvd : a ∣ n) (h : x ≤ n) : alignUp x a ≤ n := by
  obtain ⟨q, rfl⟩ := hdvd
  rw [alignUp_eq ha, Nat.mul_comm a q]
  refine Nat.mul_le_mul_right a ((cdiv_le_iff (Nat.pos_of_isPowerOfTwo ha)).mpr ?_)
  rwa [Nat.mul_comm q a]

/-! ## Rotated order -/

/-- Every index below `n` is visited when `0, …, n - 1` is rotated. -/
theorem exists_swizzle (hj : j < n) (i : ℕ) : ∃ d < n, (d + i + 1) % n = j := by
  have hn : 0 < n := by omega
  refine ⟨(j + (n - 1) * (i + 1)) % n, Nat.mod_lt _ hn, ?_⟩
  have hsum : j + (n - 1) * (i + 1) + i + 1 = j + n * (i + 1) := by
    obtain ⟨m, rfl⟩ := Nat.exists_eq_add_of_lt hn
    simp only [Nat.zero_add, Nat.add_sub_cancel]
    ring
  rw [Nat.add_assoc, Nat.mod_add_mod, ← Nat.add_assoc, hsum, Nat.add_mul_mod_self_left,
    Nat.mod_eq_of_lt hj]

/-- Rotated order visits no index twice. -/
theorem swizzle_inj (hi : i < n) (hj : j < n) {c : ℕ} (h : (i + c + 1) % n = (j + c + 1) % n) :
    i = j := by
  have hmod : i + (c + 1) ≡ j + (c + 1) [MOD n] := h
  exact (Nat.ModEq.add_right_cancel' (c + 1) hmod).eq_of_lt_of_lt hi hj

/-! ## Rows of one length -/

/-- Quotient of a number that is written with its remainder. -/
theorem mul_add_div_of_lt {q d r : ℕ} (hr : r < d) : (q * d + r) / d = q := by
  rw [Nat.mul_comm, Nat.mul_add_div (by omega), Nat.div_eq_of_lt hr, Nat.add_zero]

/-- Row and place of an index. -/
theorem pair_eq_iff {n i b j : ℕ} (hb : b < n) : i * n + b = j ↔ i = j / n ∧ b = j % n := by
  constructor
  · rintro rfl
    rw [mul_add_div_of_lt hb, Nat.mul_comm, Nat.mul_add_mod, Nat.mod_eq_of_lt hb]
    exact ⟨rfl, rfl⟩
  · rintro ⟨rfl, rfl⟩
    rw [Nat.mul_comm]
    exact Nat.div_add_mod j n

theorem pair_inj {n i i' b b' : ℕ} (hb : b < n) (hb' : b' < n)
    (h : i * n + b = i' * n + b') : i = i' ∧ b = b' := by
  obtain ⟨hi, hbj⟩ := (pair_eq_iff hb).mp h
  obtain ⟨hi', hbj'⟩ := (pair_eq_iff hb').mp (rfl : i' * n + b' = _)
  exact ⟨hi.trans hi'.symm, hbj.trans hbj'.symm⟩

end Tiling
