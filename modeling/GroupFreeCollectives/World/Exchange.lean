import GroupFreeCollectives.World.Operation

/-!
# What a schedule is for

A schedule of collectives has a meaning that does not mention streams, barriers or
communication buffers.  Every rank has one memory.  An `Exchange` is a request together with
the addresses of its members' tensors, and it happens all at once: every byte of an output is
what some member had at that moment in its input (`Exchange.source?`), and nothing else
changes.  A list of exchanges happens one after another (`runAll`).

An exchange concerns its members only (`apply_of_not_mem`), so a rank's memory depends on
how many of its own exchanges have happened (`runAll_take_congr`).  It does not depend on the
data path of a collective or on the protocol of a transfer (`runAll_congr`).
-/

namespace GroupFreeCollectives

/-- The memory of every rank, by address. -/
abbrev Heaps (α : Type) := ℕ → ℕ → α

/-- A request, with the addresses of its members' tensors. -/
structure Exchange extends Request where
  input : ℕ → ℕ
  output : ℕ → ℕ

namespace Exchange

variable {α : Type} {x y : Exchange} {h : Heaps α} {p q a b : ℕ}

/-- The rank and the address that byte `b` of member `p`'s output comes from. -/
def source? (x : Exchange) (p b : ℕ) : Option (ℕ × ℕ) :=
  if p ∈ x.ranks then
    match x.work with
    | .barrier => none
    | .collective kind n _ =>
      if b < x.ranks.length * n then
        let q := x.ranks.getD (b / n) 0
        some (q, x.input q + (kind.srcOffset (x.ranks.idxOf p) n + b % n))
      else none
    | .p2p _ src dst n => if p = dst ∧ b < n then some (src, x.input src + b) else none
  else none

/-- The memories after the exchange. -/
def apply (x : Exchange) (h : Heaps α) : Heaps α := fun p a =>
  if x.output p ≤ a then
    match x.source? p (a - x.output p) with
    | some s => h s.1 s.2
    | none => h p a
  else h p a

/-- A byte that the exchange delivers. -/
theorem apply_output {s : ℕ × ℕ} (hs : x.source? p b = some s) :
    x.apply h p (x.output p + b) = h s.1 s.2 := by
  rw [apply, if_pos (Nat.le_add_right _ _), Nat.add_sub_cancel_left, hs]

/-- A byte that the exchange leaves alone. -/
theorem apply_of_not_output (hs : ∀ b, x.output p + b = a → x.source? p b = none) :
    x.apply h p a = h p a := by
  unfold apply
  split
  case isTrue hle => rw [hs _ (Nat.add_sub_cancel' hle)]
  case isFalse => rfl

/-- **An exchange concerns its members only.** -/
theorem apply_of_not_mem (hp : p ∉ x.ranks) : x.apply h p = h p := by
  funext a
  exact apply_of_not_output fun b _ => if_neg hp

/-! ## Sources -/

theorem source?_collective {kind : Collective} {n i : ℕ} {path : PathKind}
    (hwork : x.work = .collective kind n path) (hp : p ∈ x.ranks) (hq : x.ranks[i]? = some q)
    (hb : b < n) : x.source? p (i * n + b) =
      some (q, x.input q + (kind.srcOffset (x.ranks.idxOf p) n + b)) := by
  have hi := (List.getElem?_eq_some_iff.mp hq).1
  have hlt : i * n + b < x.ranks.length * n := by
    calc i * n + b < (i + 1) * n := by
          rw [Nat.succ_mul]
          omega
      _ ≤ x.ranks.length * n := Nat.mul_le_mul_right _ hi
  obtain ⟨hdiv, hmod⟩ : i = (i * n + b) / n ∧ b = (i * n + b) % n :=
    (Tiling.pair_eq_iff hb).mp rfl
  have hget : x.ranks.getD i 0 = q := by
    rw [List.getD_eq_getElem?_getD, hq, Option.getD_some]
  simp only [source?, hwork, if_pos hp, if_pos hlt]
  rw [← hdiv, ← hmod, hget]

theorem source?_p2p {protocol : Protocol} {src n : ℕ} (hwork : x.work = .p2p protocol src p n)
    (hp : p ∈ x.ranks) (hb : b < n) : x.source? p b = some (src, x.input src + b) := by
  simp only [source?, hwork, if_pos hp, true_and, if_pos hb]

/-- What has a source is a segment of a collective or a byte of a transfer. -/
theorem source?_cases {s : ℕ × ℕ} (hs : x.source? p b = some s) :
    p ∈ x.ranks ∧ ((∃ kind n path i q b', x.work = .collective kind n path ∧
        x.ranks[i]? = some q ∧ b' < n ∧ b = i * n + b') ∨
      ∃ protocol src n, x.work = .p2p protocol src p n ∧ b < n) := by
  unfold source? at hs
  split at hs
  case isFalse => cases hs
  case isTrue hp =>
    refine ⟨hp, ?_⟩
    split at hs
    case h_1 => cases hs
    case h_2 kind n path hwork =>
      split at hs
      case isFalse => cases hs
      case isTrue hlt =>
        have hn : 0 < n := by
          rcases Nat.eq_zero_or_pos n with rfl | hn
          · simp at hlt
          · exact hn
        have hi : b / n < x.ranks.length := Nat.div_lt_of_lt_mul (by rwa [Nat.mul_comm])
        exact Or.inl ⟨kind, n, path, b / n, _, b % n, hwork, List.getElem?_eq_getElem hi,
          Nat.mod_lt _ hn, by rw [Nat.mul_comm, Nat.div_add_mod]⟩
    case h_3 protocol src dst n hwork =>
      split at hs
      case isFalse => cases hs
      case isTrue h =>
        obtain ⟨rfl, hb⟩ := h
        exact Or.inr ⟨protocol, src, n, hwork, hb⟩

end Exchange

/-! ## Schedules -/

variable {α : Type} {xs ys : List Exchange} {h : Heaps α} {p k k' : ℕ}

/-- The memories after a list of exchanges. -/
def runAll (xs : List Exchange) (h : Heaps α) : Heaps α := xs.foldl (fun h x => x.apply h) h

@[simp] theorem runAll_nil : runAll [] h = h := rfl

@[simp] theorem runAll_cons {x : Exchange} : runAll (x :: xs) h = runAll xs (x.apply h) := rfl

theorem runAll_append : runAll (xs ++ ys) h = runAll ys (runAll xs h) := List.foldl_append

/-- One exchange more. -/
theorem runAll_take_succ {x : Exchange} (hk : xs[k]? = some x) :
    runAll (xs.take (k + 1)) h = x.apply (runAll (xs.take k) h) := by
  rw [List.take_add_one, hk, runAll_append]
  rfl

/-- How many of the first `k` exchanges concern rank `p`. -/
def turns (xs : List Exchange) (p k : ℕ) : ℕ := (xs.take k).countP (p ∈ ·.ranks)

theorem turns_mono (hk : k ≤ k') : turns xs p k ≤ turns xs p k' :=
  (List.take_prefix_take_left hk).sublist.countP_le

theorem turns_succ {x : Exchange} (hk : xs[k]? = some x) (hp : p ∈ x.ranks) :
    turns xs p (k + 1) = turns xs p k + 1 := by
  rw [turns, List.take_add_one, hk, List.countP_append]
  simp [turns, hp]

/-- **A rank's memory depends on how many of its own exchanges have happened.** -/
theorem runAll_take_congr (hturns : turns xs p k = turns xs p k') :
    runAll (xs.take k) h p = runAll (xs.take k') h p := by
  wlog hle : k ≤ k' generalizing k k'
  · exact (this hturns.symm (Nat.le_of_not_le hle)).symm
  induction k', hle using Nat.le_induction with
  | base => rfl
  | succ k' hle ih =>
    have hmid : turns xs p k = turns xs p k' :=
      Nat.le_antisymm (turns_mono hle) (hturns ▸ turns_mono (Nat.le_succ k'))
    rw [ih hmid]
    cases hx : xs[k']? with
    | none => rw [List.take_add_one, hx, Option.toList_none, List.append_nil]
    | some x =>
      have hp : p ∉ x.ranks := by
        intro hp
        have hsucc := turns_succ hx hp
        omega
      rw [runAll_take_succ hx, Exchange.apply_of_not_mem hp]

/-! ## What the data path and the protocol do not change -/

/-- What moves: the data path of a collective and the protocol of a transfer are forgotten. -/
def Work.move : Work → Work
  | .barrier => .barrier
  | .collective kind n _ => .collective kind n .oneShot
  | .p2p _ src dst n => .p2p .put src dst n

/-- The same ranks exchange the same tensors. -/
structure Exchange.SameMove (x y : Exchange) : Prop where
  ranks : x.ranks = y.ranks
  work : x.work.move = y.work.move
  input : x.input = y.input
  output : x.output = y.output

theorem Exchange.SameMove.apply_eq {x y : Exchange} (hxy : x.SameMove y) :
    x.apply h = y.apply h := by
  have hsource : x.source? = y.source? := by
    funext p b
    obtain ⟨hranks, hwork, hinput, -⟩ := hxy
    unfold source?
    rw [hranks, hinput]
    cases hwx : x.work <;> cases hwy : y.work <;> rw [hwx, hwy] at hwork <;> cases hwork <;> rfl
  unfold apply
  rw [hsource, hxy.output]

/-- **Two schedules that move the same bytes have the same meaning.** -/
theorem runAll_congr (hxy : List.Forall₂ Exchange.SameMove xs ys) :
    runAll xs h = runAll ys h := by
  induction hxy generalizing h with
  | nil => rfl
  | cons hx _ ih => rw [runAll_cons, runAll_cons, hx.apply_eq, ih]

end GroupFreeCollectives
