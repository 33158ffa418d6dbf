import Mathlib.Data.Nat.Bitwise
import Mathlib.Data.Set.Function
import Mathlib.Order.Interval.Set.Basic

/-!
# Invertible mixing steps on machine words

A word of `w` bits is a natural number below `2 ^ w`, that is, a member of
`Set.Iio (2 ^ w)`.  The mixers of the splitmix family are compositions of three
kinds of step, and each of them is undone by a step of the same kind:

* adding a constant modulo `2 ^ w` (`addWord`), undone by adding the complement;
* multiplying by an odd constant modulo `2 ^ w` (`mulWord`), undone by
  multiplying with an inverse of the constant;
* xoring a word with its own right shift (`xorShift`), undone by re-expanding the
  shift, `unXorShift`.

`WordInverse w f g` says that `g` inverts `f` on the words of `w` bits, in both
directions and without leaving them, so that a mixer is inverted by composing the
inverses of its steps.

The one argument with content is the third.  Write `y = x ^ (x >> s)`.  Each
round of `unXorShift` pushes the error one more shift to the right: after `n`
rounds the word is `x ^ (x >> s (n + 1))`, and once `s (n + 1)` reaches the width
the error has left the word.

A hash folds words into a state: each is xored in, and the state is mixed (`foldMix`).  With
an invertible mixer this is a bijection of the states, and of every single word
(`wordInverse_foldMix_word`).
-/

namespace WordMix

open Set

/-! ## Inverses on words -/

/-- `f` and `g` are inverse bijections of the words of `w` bits. -/
structure WordInverse (w : ℕ) (f g : ℕ → ℕ) : Prop where
  invOn : InvOn g f (Iio (2 ^ w)) (Iio (2 ^ w))
  mapsTo : MapsTo f (Iio (2 ^ w)) (Iio (2 ^ w))
  mapsTo_inv : MapsTo g (Iio (2 ^ w)) (Iio (2 ^ w))

namespace WordInverse

variable {w : ℕ} {f g f' g' : ℕ → ℕ}

theorem symm (h : WordInverse w f g) : WordInverse w g f :=
  ⟨h.invOn.symm, h.mapsTo_inv, h.mapsTo⟩

/-- Doing nothing is undone by doing nothing. -/
theorem refl (w : ℕ) : WordInverse w id id :=
  ⟨⟨fun _ _ => rfl, fun _ _ => rfl⟩, fun _ hx => hx, fun _ hx => hx⟩

/-- Two mixing steps in sequence are inverted in the other order. -/
theorem comp (h' : WordInverse w f' g') (h : WordInverse w f g) :
    WordInverse w (f' ∘ f) (g ∘ g') where
  invOn := h.invOn.comp h'.invOn h.mapsTo h'.mapsTo_inv
  mapsTo := h'.mapsTo.comp h.mapsTo
  mapsTo_inv := h.mapsTo_inv.comp h'.mapsTo_inv

theorem bijOn (h : WordInverse w f g) : BijOn f (Iio (2 ^ w)) (Iio (2 ^ w)) :=
  h.invOn.bijOn h.mapsTo h.mapsTo_inv

/-- A word is the image of `x` exactly when `x` is its image under the inverse. -/
theorem eq_iff (h : WordInverse w f g) {x y : ℕ} (hx : x < 2 ^ w) (hy : y < 2 ^ w) :
    f x = y ↔ x = g y := by
  constructor
  · rintro rfl
    exact (h.invOn.1 hx).symm
  · rintro rfl
    exact h.invOn.2 hy

end WordInverse

/-! ## Xor with a right shift -/

/-- `x` xored with its own right shift by `s`. -/
def xorShift (s x : ℕ) : ℕ := x ^^^ (x >>> s)

/-- `n` rounds of re-expansion: the inverse of `xorShift s` on words of at most
`s * (n + 1)` bits. -/
def unXorShift (s : ℕ) : ℕ → ℕ → ℕ
  | 0, y => y
  | n + 1, y => y ^^^ (unXorShift s n y >>> s)

theorem shiftRight_eq_zero_of_lt {x w k : ℕ} (hx : x < 2 ^ w) (hk : w ≤ k) :
    x >>> k = 0 := by
  rw [Nat.shiftRight_eq_div_pow]
  exact Nat.div_eq_of_lt (lt_of_lt_of_le hx (Nat.pow_le_pow_right Nat.two_pos hk))

/-- What is left after `n` rounds is the word with its shift by `s * (n + 1)`. -/
theorem unXorShift_xorShift (s n x : ℕ) :
    unXorShift s n (xorShift s x) = x ^^^ (x >>> (s * (n + 1))) := by
  induction n with
  | zero => simp [unXorShift, xorShift]
  | succ n ih =>
    have hshift : x >>> (s * (n + 1)) >>> s = x >>> (s * (n + 1 + 1)) := by
      rw [← Nat.shiftRight_add, Nat.mul_succ s (n + 1)]
    rw [unXorShift, ih, Nat.shiftRight_xor_distrib, hshift, xorShift, Nat.xor_assoc,
      ← Nat.xor_assoc (x >>> s) (x >>> s), Nat.xor_self, Nat.zero_xor]

/-- Two consecutive rounds differ by a shift of the input. -/
theorem unXorShift_succ_xor (s n y : ℕ) :
    unXorShift s (n + 1) y ^^^ unXorShift s n y = y >>> (s * (n + 1)) := by
  induction n with
  | zero =>
    rw [unXorShift, unXorShift, Nat.xor_comm y, Nat.xor_assoc, Nat.xor_self, Nat.xor_zero,
      Nat.zero_add, Nat.mul_one, unXorShift]
  | succ n ih =>
    have hsplit : unXorShift s (n + 1 + 1) y ^^^ unXorShift s (n + 1) y =
        (unXorShift s (n + 1) y ^^^ unXorShift s n y) >>> s := by
      rw [Nat.shiftRight_xor_distrib]
      conv_lhs => rw [unXorShift, unXorShift]
      rw [Nat.xor_comm y, Nat.xor_assoc, ← Nat.xor_assoc y y, Nat.xor_self, Nat.zero_xor]
      rfl
    rw [hsplit, ih, ← Nat.shiftRight_add, Nat.mul_succ s (n + 1)]

theorem xorShift_lt {s x w : ℕ} (hx : x < 2 ^ w) : xorShift s x < 2 ^ w :=
  Nat.xor_lt_two_pow hx (lt_of_le_of_lt (Nat.shiftRight_le x s) hx)

theorem unXorShift_lt {s n y w : ℕ} (hy : y < 2 ^ w) : unXorShift s n y < 2 ^ w := by
  induction n with
  | zero => exact hy
  | succ n ih =>
    exact Nat.xor_lt_two_pow hy (lt_of_le_of_lt (Nat.shiftRight_le _ s) ih)

/-- **`xorShift` is inverted by enough rounds of `unXorShift`.** -/
theorem wordInverse_xorShift {s n w : ℕ} (hw : w ≤ s * (n + 1)) :
    WordInverse w (xorShift s) (unXorShift s n) := by
  refine ⟨⟨fun x hx => ?_, fun y hy => ?_⟩, fun _ hx => xorShift_lt hx,
    fun _ hy => unXorShift_lt hy⟩
  · rw [unXorShift_xorShift, shiftRight_eq_zero_of_lt hx hw, Nat.xor_zero]
  · -- the rounds have become stationary, so one more round changes nothing
    have hstat : unXorShift s (n + 1) y = unXorShift s n y := by
      have h := unXorShift_succ_xor s n y
      rw [shiftRight_eq_zero_of_lt hy hw] at h
      exact Nat.xor_eq_zero_iff.mp h
    calc xorShift s (unXorShift s n y)
        = unXorShift s (n + 1) y ^^^ (unXorShift s n y >>> s) := by rw [hstat]; rfl
      _ = y := by rw [unXorShift, Nat.xor_assoc, Nat.xor_self, Nat.xor_zero]

/-! ## Adding and multiplying modulo `2 ^ w` -/

/-- Adding the constant `c` in words of `w` bits. -/
def addWord (w c x : ℕ) : ℕ := (x + c) % 2 ^ w

/-- Multiplying by the constant `m` in words of `w` bits. -/
def mulWord (w m x : ℕ) : ℕ := (x * m) % 2 ^ w

theorem addWord_lt (w c x : ℕ) : addWord w c x < 2 ^ w := Nat.mod_lt _ (Nat.two_pow_pos w)

theorem mulWord_lt (w m x : ℕ) : mulWord w m x < 2 ^ w := Nat.mod_lt _ (Nat.two_pow_pos w)

theorem leftInvOn_addWord {w c d : ℕ} (h : (c + d) % 2 ^ w = 0) :
    LeftInvOn (addWord w d) (addWord w c) (Iio (2 ^ w)) := by
  intro x hx
  rw [addWord, addWord, Nat.mod_add_mod, Nat.add_assoc, ← Nat.add_mod_mod, h, Nat.add_zero]
  exact Nat.mod_eq_of_lt hx

theorem leftInvOn_mulWord {w m k : ℕ} (h : (m * k) % 2 ^ w = 1) :
    LeftInvOn (mulWord w k) (mulWord w m) (Iio (2 ^ w)) := by
  intro x hx
  rw [mulWord, mulWord, Nat.mod_mul_mod, Nat.mul_assoc, Nat.mul_mod, h, Nat.mul_one,
    Nat.mod_mod]
  exact Nat.mod_eq_of_lt hx

/-- Adding a constant is undone by adding its complement. -/
theorem wordInverse_addWord {w c d : ℕ} (h : (c + d) % 2 ^ w = 0) :
    WordInverse w (addWord w c) (addWord w d) :=
  ⟨⟨leftInvOn_addWord h, leftInvOn_addWord (by rwa [Nat.add_comm])⟩,
    fun x _ => addWord_lt w c x, fun x _ => addWord_lt w d x⟩

/-- Multiplying by a constant is undone by multiplying with its inverse. -/
theorem wordInverse_mulWord {w m k : ℕ} (h : (m * k) % 2 ^ w = 1) :
    WordInverse w (mulWord w m) (mulWord w k) :=
  ⟨⟨leftInvOn_mulWord h, leftInvOn_mulWord (by rwa [Nat.mul_comm])⟩,
    fun x _ => mulWord_lt w m x, fun x _ => mulWord_lt w k x⟩

/-! ## The mixer of the splitmix family -/

/-- Add a constant, then three xor-shifts with a multiplication between each two. -/
def mix (w c s₁ m₁ s₂ m₂ s₃ x : ℕ) : ℕ :=
  xorShift s₃ (mulWord w m₂ (xorShift s₂ (mulWord w m₁ (xorShift s₁ (addWord w c x)))))

/-- The steps of `mix` undone in reverse order, with two rounds for each
xor-shift. -/
def unMix (w d s₁ k₁ s₂ k₂ s₃ y : ℕ) : ℕ :=
  addWord w d (unXorShift s₁ 2 (mulWord w k₁ (unXorShift s₂ 2
    (mulWord w k₂ (unXorShift s₃ 2 y)))))

/-- **The mixer is a bijection of words** when its multipliers are invertible and
its shifts cover a third of the width. -/
theorem wordInverse_mix {w c d s₁ m₁ k₁ s₂ m₂ k₂ s₃ : ℕ} (hc : (c + d) % 2 ^ w = 0)
    (h₁ : w ≤ s₁ * (2 + 1)) (hm₁ : (m₁ * k₁) % 2 ^ w = 1) (h₂ : w ≤ s₂ * (2 + 1))
    (hm₂ : (m₂ * k₂) % 2 ^ w = 1) (h₃ : w ≤ s₃ * (2 + 1)) :
    WordInverse w (mix w c s₁ m₁ s₂ m₂ s₃) (unMix w d s₁ k₁ s₂ k₂ s₃) :=
  (wordInverse_xorShift h₃).comp ((wordInverse_mulWord hm₂).comp
    ((wordInverse_xorShift h₂).comp ((wordInverse_mulWord hm₁).comp
      ((wordInverse_xorShift h₁).comp (wordInverse_addWord hc)))))

/-- Xoring with a word is its own inverse. -/
theorem wordInverse_xor {a w : ℕ} (ha : a < 2 ^ w) :
    WordInverse w (a ^^^ ·) (a ^^^ ·) :=
  ⟨⟨fun x _ => Nat.xor_xor_cancel_left a x, fun x _ => Nat.xor_xor_cancel_left a x⟩,
    fun _ hx => Nat.xor_lt_two_pow ha hx, fun _ hx => Nat.xor_lt_two_pow ha hx⟩

/-! ## Folding words into a state -/

section Fold

variable {w h : ℕ} {f g : ℕ → ℕ}

/-- Each word is xored into the state `h`, which is then mixed. -/
def foldMix (f : ℕ → ℕ) (h : ℕ) (ws : List ℕ) : ℕ := ws.foldl (fun h x => f (h ^^^ x)) h

/-- The state before the words were folded in, with the last one taken out first. -/
def unfoldMix (g : ℕ → ℕ) (ws : List ℕ) (y : ℕ) : ℕ := ws.foldr (fun x y => g y ^^^ x) y

@[simp] theorem unfoldMix_nil (g : ℕ → ℕ) (y : ℕ) : unfoldMix g [] y = y := rfl

@[simp] theorem unfoldMix_cons (g : ℕ → ℕ) (x : ℕ) (ws : List ℕ) (y : ℕ) :
    unfoldMix g (x :: ws) y = g (unfoldMix g ws y) ^^^ x := rfl

theorem foldMix_append (f : ℕ → ℕ) (h : ℕ) (us vs : List ℕ) :
    foldMix f h (us ++ vs) = foldMix f (foldMix f h us) vs := List.foldl_append

/-- **Folding words in is a bijection of the states.** -/
theorem wordInverse_foldMix (hf : WordInverse w f g) {ws : List ℕ} (hws : ∀ x ∈ ws, x < 2 ^ w) :
    WordInverse w (fun h => foldMix f h ws) (unfoldMix g ws) := by
  induction ws with
  | nil => exact .refl w
  | cons x ws ih =>
    have hstep : WordInverse w (fun h => f (h ^^^ x)) (fun y => g y ^^^ x) := by
      simp only [Nat.xor_comm _ x]
      exact hf.comp (wordInverse_xor (hws x List.mem_cons_self))
    exact (ih fun y hy => hws y (List.mem_cons_of_mem x hy)).comp hstep

/-- **The fold is a bijection in every single word**, with any words before it and behind
it. -/
theorem wordInverse_foldMix_word (hf : WordInverse w f g) (hh : h < 2 ^ w) {us vs : List ℕ}
    (hus : ∀ x ∈ us, x < 2 ^ w) (hvs : ∀ x ∈ vs, x < 2 ^ w) :
    WordInverse w (fun x => foldMix f h (us ++ x :: vs))
      (fun y => foldMix f h us ^^^ g (unfoldMix g vs y)) := by
  have hpre : foldMix f h us < 2 ^ w := (wordInverse_foldMix hf hus).mapsTo hh
  simp only [foldMix_append]
  exact (wordInverse_foldMix hf hvs).comp (hf.comp (wordInverse_xor hpre))

end Fold

end WordMix
