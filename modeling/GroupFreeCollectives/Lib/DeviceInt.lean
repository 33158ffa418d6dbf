import GroupFreeCollectives.Lib.Tiling
import Mathlib.Data.Int.Order.Basic

/-!
# Integers of a width that depends on the value

A kernel language that types an integer argument by its value gives it 32 bits if it is
below `2 ^ 31` and 64 bits otherwise.  An operation on two integers has the larger width of
the two, and its result wraps in that width.

`DInt` is such an integer.  An operation is exact where the result fits (`wrap_of_fits`),
and a sum that just misses is negative (`wrap_neg`).  `cdiv` is division rounding up as
kernels write it, with the addition before the division: `cdiv_eq` and `cdiv_nonpos` are its
two outcomes.
-/

namespace DeviceInt

/-- The least integer that does not fit. -/
def bound (wide : Bool) : ℤ := if wide then 2 ^ 63 else 2 ^ 31

/-- Two's complement of 64 or 32 bits. -/
def wrap (wide : Bool) (x : ℤ) : ℤ := (x + bound wide) % (2 * bound wide) - bound wide

variable {wide : Bool} {x : ℤ}

@[simp] theorem bound_false : bound false = 2 ^ 31 := by simp [bound]

@[simp] theorem bound_true : bound true = 2 ^ 63 := by simp [bound]

theorem bound_pos (wide : Bool) : 0 < bound wide := by
  cases wide <;> simp

theorem bound_le (wide : Bool) : bound wide ≤ 2 ^ 63 := by
  cases wide <;> simp

theorem wrap_of_mem (hge : -bound wide ≤ x) (hlt : x < bound wide) : wrap wide x = x := by
  rw [wrap, Int.emod_eq_of_lt (by omega) (by omega)]
  omega

theorem wrap_of_fits (hnonneg : 0 ≤ x) (hfits : x < bound wide) : wrap wide x = x :=
  wrap_of_mem (by have := bound_pos wide; omega) hfits

/-- A result in the second half of the range comes out negative. -/
theorem wrap_neg (hge : bound wide ≤ x) (hlt : x < 2 * bound wide) : wrap wide x < 0 := by
  have hpos := bound_pos wide
  have hsub : (x + bound wide) % (2 * bound wide) = x + bound wide - 2 * bound wide := by
    rw [← Int.sub_emod_right, Int.emod_eq_of_lt (by omega) (by omega)]
  rw [wrap, hsub]
  omega

theorem neg_bound_le_wrap (wide : Bool) (x : ℤ) : -bound wide ≤ wrap wide x := by
  have hpos := bound_pos wide
  have hmod := Int.emod_nonneg (x + bound wide) (by omega : 2 * bound wide ≠ 0)
  rw [wrap]
  omega

theorem wrap_lt_bound (wide : Bool) (x : ℤ) : wrap wide x < bound wide := by
  have hpos := bound_pos wide
  have hmod := Int.emod_lt_of_pos (x + bound wide) (by omega : 0 < 2 * bound wide)
  rw [wrap]
  omega

/-- What does not fit loses a whole turn at least. -/
theorem wrap_le_sub (hge : bound wide ≤ x) : wrap wide x ≤ x - 2 * bound wide := by
  have hpos := bound_pos wide
  have hquot : 1 ≤ (x + bound wide) / (2 * bound wide) :=
    (Int.le_ediv_iff_mul_le (by omega)).mpr (by omega)
  have hsum := Int.mul_ediv_add_emod (x + bound wide) (2 * bound wide)
  have hmul := mul_le_mul_of_nonneg_left hquot (by omega : 0 ≤ 2 * bound wide)
  rw [wrap]
  omega

/-- What is taken away from a wrapped number is taken away from the number. -/
theorem wrap_wrap_sub (wide : Bool) (x y : ℤ) :
    wrap wide (wrap wide x - y) = wrap wide (x - y) := by
  have hsub : wrap wide x - y + bound wide = (x + bound wide) % (2 * bound wide) - y := by
    rw [wrap]
    omega
  have hsum : x - y + bound wide = x + bound wide - y := by omega
  rw [wrap, hsub, Int.emod_sub_emod, wrap, hsum]

/-- Wrapping does not increase what is above the least integer. -/
theorem wrap_le (hge : -bound wide ≤ x) : wrap wide x ≤ x := by
  have hquot : 0 ≤ (x + bound wide) / (2 * bound wide) :=
    Int.ediv_nonneg (by omega) (by have := bound_pos wide; omega)
  have hsum := Int.mul_ediv_add_emod (x + bound wide) (2 * bound wide)
  have hmul := mul_nonneg (by have := bound_pos wide; omega : 0 ≤ 2 * bound wide) hquot
  rw [wrap]
  omega

/-- A quotient is not further from zero than its numerator. -/
theorem neg_le_tdiv {b w : ℤ} {d : ℕ} (hb : 0 ≤ b) (hw : -b ≤ w) : -b ≤ w.tdiv d := by
  rcases le_or_gt 0 w with hpos | hneg
  · have := Int.tdiv_nonneg hpos (Int.natCast_nonneg d)
    omega
  · obtain ⟨v, rfl⟩ : ∃ v : ℕ, w = -(v : ℤ) := ⟨(-w).toNat, by omega⟩
    have hquot : ((v / d : ℕ) : ℤ) ≤ v := by exact_mod_cast Nat.div_le_self v d
    rw [Int.neg_tdiv, ← Int.ofNat_tdiv]
    generalize v / d = q at hquot ⊢
    omega

/-! ## Typed integers -/

/-- An integer of 64 or 32 bits. -/
structure DInt where
  wide : Bool
  val : ℤ
  deriving DecidableEq, Repr

namespace DInt

/-- An integer argument or literal. -/
def lit (x : ℤ) : DInt := if x < 2 ^ 31 then ⟨false, wrap false x⟩ else ⟨true, wrap true x⟩

/-- A cast. -/
def cast (wide : Bool) (x : DInt) : DInt := ⟨wide, wrap wide x.val⟩

/-- An operation in the larger width. -/
def binop (f : ℤ → ℤ → ℤ) (x y : DInt) : DInt :=
  ⟨x.wide || y.wide, wrap (x.wide || y.wide) (f x.val y.val)⟩

instance : Add DInt := ⟨binop (· + ·)⟩
instance : Sub DInt := ⟨binop (· - ·)⟩
instance : Mul DInt := ⟨binop (· * ·)⟩
/-- Division rounds towards zero. -/
instance : Div DInt := ⟨binop Int.tdiv⟩

theorem add_val (x y : DInt) : (x + y).val = wrap (x.wide || y.wide) (x.val + y.val) := rfl

theorem sub_val (x y : DInt) : (x - y).val = wrap (x.wide || y.wide) (x.val - y.val) := rfl

theorem mul_val (x y : DInt) : (x * y).val = wrap (x.wide || y.wide) (x.val * y.val) := rfl

theorem div_val (x y : DInt) :
    (x / y).val = wrap (x.wide || y.wide) (x.val.tdiv y.val) := rfl

theorem wide_add (x y : DInt) : (x + y).wide = (x.wide || y.wide) := rfl

theorem wide_sub (x y : DInt) : (x - y).wide = (x.wide || y.wide) := rfl

theorem wide_div (x y : DInt) : (x / y).wide = (x.wide || y.wide) := rfl

/-! ## Literals -/

theorem lit_of_lt {n : ℕ} (h : n < 2 ^ 31) : lit n = ⟨false, n⟩ := by
  have hlt : (n : ℤ) < 2 ^ 31 := by omega
  rw [lit, if_pos hlt, wrap_of_fits (Int.natCast_nonneg n) (by rwa [bound_false])]

theorem lit_of_ge {n : ℕ} (h : 2 ^ 31 ≤ n) (h' : n < 2 ^ 63) : lit n = ⟨true, n⟩ := by
  have hge : ¬ (n : ℤ) < 2 ^ 31 := by omega
  have hlt : (n : ℤ) < 2 ^ 63 := by omega
  rw [lit, if_neg hge, wrap_of_fits (Int.natCast_nonneg n) (by rwa [bound_true])]

/-- An argument that 64 bits hold has its value. -/
theorem lit_val {n : ℕ} (h : n < 2 ^ 63) :
    (lit n).val = n ∧ (lit n).wide = decide (2 ^ 31 ≤ n) := by
  by_cases hn : n < 2 ^ 31
  · rw [lit_of_lt hn]
    exact ⟨rfl, (decide_eq_false (not_le.mpr hn)).symm⟩
  · rw [lit_of_ge (not_lt.mp hn) h]
    exact ⟨rfl, (decide_eq_true (not_lt.mp hn)).symm⟩

/-- An argument is not below the range of its width, and not above its value. -/
theorem neg_bound_le_lit (x : ℤ) : -bound (lit x).wide ≤ (lit x).val := by
  unfold lit
  split_ifs <;> exact neg_bound_le_wrap _ x

theorem lit_lt_bound (x : ℤ) : (lit x).val < bound (lit x).wide := by
  unfold lit
  split_ifs <;> exact wrap_lt_bound _ x

theorem lit_le (n : ℕ) : (lit n).val ≤ n := by
  unfold lit
  split_ifs
  · exact wrap_le (by have := bound_pos false; omega)
  · exact wrap_le (by have := bound_pos true; omega)

/-! ## Operations on natural numbers -/

section Nat

variable {x y : DInt} {m n : ℕ}

theorem add_nat (hx : x.val = m) (hy : y.val = n)
    (hfits : ((m + n : ℕ) : ℤ) < bound (x.wide || y.wide)) : (x + y).val = (m + n : ℕ) := by
  rw [add_val, hx, hy, ← Nat.cast_add]
  exact wrap_of_fits (Int.natCast_nonneg _) hfits

theorem sub_nat (hx : x.val = m) (hy : y.val = n) (hle : n ≤ m)
    (hfits : (m : ℤ) < bound (x.wide || y.wide)) : (x - y).val = (m - n : ℕ) := by
  rw [sub_val, hx, hy, ← Nat.cast_sub hle]
  refine wrap_of_fits (Int.natCast_nonneg _) (lt_of_le_of_lt ?_ hfits)
  exact_mod_cast Nat.sub_le m n

theorem mul_nat (hx : x.val = m) (hy : y.val = n)
    (hfits : ((m * n : ℕ) : ℤ) < bound (x.wide || y.wide)) : (x * y).val = (m * n : ℕ) := by
  rw [mul_val, hx, hy, ← Nat.cast_mul]
  exact wrap_of_fits (Int.natCast_nonneg _) hfits

/-- A product with a number that is not positive does not wrap, if that with its opposite
does not. -/
theorem mul_nonpos_nat (hx : x.val = m) (hneg : -(n : ℤ) ≤ y.val) (hnonpos : y.val ≤ 0)
    (hfits : ((m * n : ℕ) : ℤ) < bound (x.wide || y.wide)) : (x * y).val ≤ 0 := by
  have hge := mul_le_mul_of_nonneg_left hneg (Int.natCast_nonneg m)
  have hle := mul_le_mul_of_nonneg_left hnonpos (Int.natCast_nonneg m)
  rw [mul_neg, ← Nat.cast_mul] at hge
  rw [mul_zero] at hle
  have hpos := bound_pos (x.wide || y.wide)
  rw [mul_val, hx, wrap_of_mem (by omega) (by omega)]
  exact hle

theorem div_nat (hx : x.val = m) (hy : y.val = n)
    (hfits : (m : ℤ) < bound (x.wide || y.wide)) : (x / y).val = (m / n : ℕ) := by
  rw [div_val, hx, hy, ← Int.ofNat_tdiv]
  refine wrap_of_fits (Int.natCast_nonneg _) (lt_of_le_of_lt ?_ hfits)
  exact_mod_cast Nat.div_le_self m n

end Nat

/-! ## Division rounding up -/

/-- `cdiv`. -/
def cdiv (x d : DInt) : DInt := (x + d - lit 1) / d

section Cdiv

variable {x : DInt} {n d : ℕ}

theorem wide_cdiv (hd : d < 2 ^ 31) : (cdiv x (lit d)).wide = x.wide := by
  have hone : lit 1 = ⟨false, (1 : ℕ)⟩ := lit_of_lt (by norm_num)
  rw [cdiv, lit_of_lt hd, hone, wide_div, wide_sub, wide_add]
  simp

/-- The numerator of `cdiv` wraps once. -/
theorem cdiv_val (hd : 0 < d) (hd' : d < 2 ^ 31) :
    (cdiv x (lit d)).val = wrap x.wide ((wrap x.wide (x.val + (d - 1 : ℕ))).tdiv d) := by
  have hone : lit 1 = ⟨false, (1 : ℕ)⟩ := lit_of_lt (by norm_num)
  have hnum : (x + lit d - lit 1).val = wrap x.wide (x.val + (d - 1 : ℕ)) := by
    rw [sub_val, add_val, wide_add, lit_of_lt hd', hone, Bool.or_false, Bool.or_false,
      wrap_wrap_sub, Nat.cast_sub hd]
    exact congrArg (wrap x.wide) (by dsimp only; omega)
  rw [cdiv, div_val, hnum, wide_sub, wide_add, lit_of_lt hd', hone]
  simp

/-- Division rounding up is exact if the addition before the division fits. -/
theorem cdiv_eq (hx : x.val = n) (hd : 0 < d) (hd' : d < 2 ^ 31)
    (hfits : ((n + (d - 1) : ℕ) : ℤ) < bound x.wide) :
    (cdiv x (lit d)).val = (Tiling.cdiv n d : ℕ) := by
  rw [cdiv_val hd hd', hx, ← Nat.cast_add, wrap_of_fits (Int.natCast_nonneg _) hfits,
    ← Int.ofNat_tdiv, Tiling.cdiv, Nat.add_sub_assoc hd]
  refine wrap_of_fits (Int.natCast_nonneg _) (lt_of_le_of_lt ?_ hfits)
  exact_mod_cast Nat.div_le_self _ _

/-- If the addition before the division does not fit, the result is not positive. -/
theorem cdiv_nonpos (hx : x.val = n) (hd : 0 < d) (hd' : d < 2 ^ 31)
    (hover : bound x.wide ≤ ((n + (d - 1) : ℕ) : ℤ))
    (hlt : ((n + (d - 1) : ℕ) : ℤ) < 2 * bound x.wide) : (cdiv x (lit d)).val ≤ 0 := by
  rw [cdiv_val hd hd', hx, ← Nat.cast_add]
  have hneg := wrap_neg hover hlt
  have hquot := neg_le_tdiv (d := d) (bound_pos x.wide).le (neg_bound_le_wrap x.wide
    ((n + (d - 1) : ℕ) : ℤ))
  refine le_trans (wrap_le hquot) ?_
  exact le_trans (Int.tdiv_le_tdiv (by omega) hneg.le) (Int.zero_tdiv _).le

/-- It is not further from zero than the exact quotient. -/
theorem neg_cdiv_le (hx : x.val = n) (hd : 0 < d) (hd' : d < 2 ^ 31)
    (hover : bound x.wide ≤ ((n + (d - 1) : ℕ) : ℤ))
    (hlt : ((n + (d - 1) : ℕ) : ℤ) < 2 * bound x.wide) :
    -((Tiling.cdiv n d : ℕ) : ℤ) ≤ (cdiv x (lit d)).val := by
  have hneg := wrap_neg hover hlt
  have hge := neg_bound_le_wrap x.wide ((n + (d - 1) : ℕ) : ℤ)
  have hquot := neg_le_tdiv (d := d) (bound_pos x.wide).le hge
  obtain ⟨v, hv⟩ : ∃ v : ℕ, wrap x.wide ((n + (d - 1) : ℕ) : ℤ) = -(v : ℤ) :=
    ⟨(-wrap x.wide ((n + (d - 1) : ℕ) : ℤ)).toNat, by omega⟩
  rw [cdiv_val hd hd', hx, ← Nat.cast_add]
  rw [hv] at hneg hge hquot ⊢
  rw [Int.neg_tdiv, ← Int.ofNat_tdiv] at hquot ⊢
  have hle : v / d ≤ Tiling.cdiv n d := by
    rw [Tiling.cdiv, Nat.add_sub_assoc hd]
    exact Nat.div_le_div_right (by omega)
  have hpos := bound_pos x.wide
  generalize v / d = q at hquot hle ⊢
  rw [wrap_of_mem hquot (by omega)]
  omega

/-- **Division rounding up is exact exactly when the addition before the division fits.** -/
theorem cdiv_eq_iff (hx : x.val = n) (hn : (n : ℤ) < bound x.wide) (hd : 0 < d)
    (hd' : d < 2 ^ 31) :
    (cdiv x (lit d)).val = (Tiling.cdiv n d : ℕ) ↔ ((n + (d - 1) : ℕ) : ℤ) < bound x.wide := by
  refine ⟨fun heq => ?_, cdiv_eq hx hd hd'⟩
  by_contra hover
  have hdb : (d : ℤ) ≤ bound x.wide := by
    cases x.wide <;> simp <;> omega
  have hle := cdiv_nonpos hx hd hd' (not_lt.mp hover) (by omega)
  have hpos : 0 < Tiling.cdiv n d := (Tiling.lt_cdiv_iff hd).mpr (by omega)
  omega

/-- An argument that is too small by a divisor gives a quotient that is too small. -/
theorem cdiv_lt (hx : x.val + d ≤ n) (hn : 0 < n) (hd : 0 < d) (hd' : d < 2 ^ 31)
    (hge : -bound x.wide ≤ x.val) : (cdiv x (lit d)).val < (Tiling.cdiv n d : ℕ) := by
  rw [cdiv_val hd hd']
  have hnum : wrap x.wide (x.val + (d - 1 : ℕ)) ≤ (n - 1 : ℕ) := by
    have hle : wrap x.wide (x.val + (d - 1 : ℕ)) ≤ x.val + (d - 1 : ℕ) := wrap_le (by omega)
    omega
  have hquot := neg_le_tdiv (d := d) (bound_pos x.wide).le
    (neg_bound_le_wrap x.wide (x.val + (d - 1 : ℕ)))
  have hdiv : ((n - 1 : ℕ) : ℤ).tdiv d < (Tiling.cdiv n d : ℕ) := by
    rw [← Int.ofNat_tdiv]
    have hlt := (Tiling.lt_cdiv_iff hd (i := (n - 1) / d)).mpr
      (lt_of_le_of_lt (Nat.div_mul_le_self _ _) (by omega : n - 1 < n))
    exact_mod_cast hlt
  exact lt_of_le_of_lt (le_trans (wrap_le hquot) (Int.tdiv_le_tdiv (by omega) hnum)) hdiv

end Cdiv

end DInt

end DeviceInt
