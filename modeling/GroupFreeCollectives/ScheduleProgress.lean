import GroupFreeCollectives.Schedule
import Mathlib.Order.RelClasses
import Mathlib.Data.Set.Finite.Lattice

/-!
# Progress of barrier sequences

Agreement of every pair on their common barriers says nothing about three ranks and
three groups: in `cyclicSchedule` every two ranks have one common barrier, so every
pair agrees, and each rank waits in a barrier that its peer issues second.

What progress needs beyond agreement is that no barriers `x₁, …, xₙ, x₁` exist, each
before the next on some rank.  The order generated by `Precedes` is then well-founded,
and the least unfinished barrier can always continue: its members have nothing before
it left to do, and the tokens they publish stay in their cells until they are read.
-/

namespace GroupFreeCollectives

open TaskGraph Positions

namespace Schedule

variable {W : ℕ} (σ : Schedule W)

/-- Every barrier appears exactly once in the sequence of each of its members. -/
structure Once : Prop where
  nodup : ∀ p, (σ.seqs p).Nodup
  mem : ∀ p x q, x ∈ σ.seqs p → q ∈ x.ranks → x ∈ σ.seqs q

/-- Different barriers have different tokens. -/
def TokensDistinct (nonce : ℤ) : Prop :=
  ∀ p q x y, x ∈ σ.seqs p → y ∈ σ.seqs q → x.token nonce = y.token nonce → x = y

/-- The barrier `x` comes before `y` on some rank. -/
def Precedes (x y : BarrierInst) : Prop :=
  ∃ p i j : ℕ, i < j ∧ (σ.seqs p)[i]? = some x ∧ (σ.seqs p)[j]? = some y

/-- No cycle of barriers, each before the next on some rank. -/
def Acyclic : Prop := ∀ x, ¬ Relation.TransGen σ.Precedes x x

/-- The barrier a task belongs to. -/
def instOf (t : Task) : BarrierInst := ((σ.seqs t.rank)[t.idx]?).getD default

/-- The order in which progress is made: barriers by `Precedes`, then phases. -/
def Earlier : Task → Task → Prop :=
  InvImage (Prod.Lex (Relation.TransGen σ.Precedes) (· < ·)) fun t => (σ.instOf t, t.op.phase)

variable {σ} {nonce : ℤ} {p q i : ℕ} {x : BarrierInst}

theorem wellFounded_earlier (hacyc : σ.Acyclic) : WellFounded σ.Earlier := by
  have hfin : {x | ∃ p < W, x ∈ σ.seqs p}.Finite := by
    have hunion : {x | ∃ p < W, x ∈ σ.seqs p} = ⋃ p ∈ {p | p < W}, {x | x ∈ σ.seqs p} := by
      ext x
      simp
    rw [hunion]
    exact (Set.finite_lt_nat W).biUnion fun p _ => List.finite_toSet _
  have hwf : WellFounded (Relation.TransGen σ.Precedes) := by
    refine wellFounded_transGen_of_acyclic hfin (fun x y hxy => ?_) hacyc
    obtain ⟨p, i, j, -, hx, -⟩ := hxy
    have hmem := List.mem_of_getElem? hx
    exact ⟨p, σ.ranks_lt p x hmem p (σ.mem_ranks p x hmem), hmem⟩
  exact InvImage.wf _ (hwf.prod_lex wellFounded_lt)

theorem instOf_eq {o : Op Act} (h : (σ.seqs p)[i]? = some x) : σ.instOf ⟨p, i, o⟩ = x := by
  show ((σ.seqs p)[i]?).getD default = x
  rw [h]
  rfl

theorem earlier_of_before {u t : Task} (h : Before (σ.program nonce) u t) : σ.Earlier u t := by
  obtain ⟨r, i, o⟩ := u
  obtain ⟨r', i', o'⟩ := t
  obtain ⟨rfl, ⟨rfl, -, hlt⟩ | ⟨hlt, x, y, hx, hy, -⟩⟩ := h
  · exact Prod.Lex.right _ hlt
  · rw [getElem?_program] at hx hy
    obtain ⟨a, ha, -⟩ := Option.map_eq_some_iff.mp hx
    obtain ⟨b, hb, -⟩ := Option.map_eq_some_iff.mp hy
    refine Prod.Lex.left _ _ ?_
    rw [instOf_eq ha, instOf_eq hb]
    exact Relation.TransGen.single ⟨r, i, i', hlt, ha, hb⟩

theorem Once.nodup_map_common (honce : σ.Once) (htok : σ.TokensDistinct nonce) (p q : ℕ) :
    ((σ.common p q).map (BarrierInst.token nonce)).Nodup := by
  refine List.Nodup.map_on (fun x hx y hy heq => ?_) ((honce.nodup p).filter _)
  exact htok p p x y (List.mem_of_mem_filter hx) (List.mem_of_mem_filter hy) heq

/-- **Pairwise agreement and acyclicity are enough.**  When moreover no cycle of
barriers exists, each before the next on some rank, no reachable state is stuck. -/
theorem acyclic_schedule_never_stuck {α : Type} (honce : σ.Once) (hpair : σ.PairwiseAgree)
    (hacyc : σ.Acyclic) (htok : σ.TokensDistinct nonce) {m₀ : Memory α} (hm : m₀.Fresh)
    {s : State Task (Memory α)} (hs : Reachable (device (σ.program nonce) α W) m₀ s) :
    ¬ Stuck (device (σ.program nonce) α W) s := by
  have hwf : WellFormed (σ.program nonce) W := wellFormed
  have hag := edgesAgree hpair (ne_of_two_apart (honce.nodup_map_common htok))
  refine not_stuck_of_exists_enabled (exists_enabled (wellFounded_earlier hacyc)
    (fun u t _ _ => earlier_of_before) fun t htask hfresh hsmaller => ?_)
  obtain ⟨p, i, o⟩ := t
  obtain ⟨it, hit, ho⟩ := htask
  have hit' := hit
  rw [getElem?_program] at hit'
  obtain ⟨x, hx, rfl⟩ := Option.map_eq_some_iff.mp hit'
  obtain ⟨q, hq, rfl | rfl | rfl⟩ := mem_barrierKernel.mp ho
  · trivial
  · trivial
  · -- a wait: the bump of its program and the publication of its peer are smaller
    have he : OnEdge (σ.program nonce) p q i (x.token nonce) := onEdge_iff.mpr ⟨x, hx, hq, rfl⟩
    obtain ⟨j, hj, hpos⟩ := hag.exists_partner he
    obtain ⟨y, hy, hpy, htok'⟩ := onEdge_iff.mp hj
    have hyx : y = x :=
      htok q p y x (List.mem_of_getElem? hy) (List.mem_of_getElem? hx) htok'
    have hb : bumpTask p i q ∈ s.done := by
      refine hsmaller _ he.isTask_bump ?_
      exact Prod.Lex.right _ (show 0 < 2 by decide)
    have hd : publishTask q j p (x.token nonce) ∈ s.done := by
      refine hsmaller _ hj.isTask_publish ?_
      show Prod.Lex _ _ (σ.instOf ⟨q, j, _⟩, 1) (σ.instOf ⟨p, i, _⟩, 2)
      rw [instOf_eq hy, instOf_eq hx, hyx]
      exact Prod.Lex.right _ (by decide)
    exact await_guard hwf hag hm hs he hb hfresh hj hpos hd

/-! ## One global order -/

section OfList

variable {l : List BarrierInst} {hnd : ∀ x ∈ l, x.ranks.Nodup}
  {hlt : ∀ x ∈ l, ∀ q ∈ x.ranks, q < W}

theorem once_ofList (hl : l.Nodup) : (ofList l hnd hlt).Once where
  nodup _ := hl.filter _
  mem _ _ _ hx hq := mem_seqs_ofList.mpr ⟨(mem_seqs_ofList.mp hx).1, hq⟩

theorem tokensDistinct_ofList (h : (l.map (BarrierInst.token nonce)).Nodup) :
    (ofList l hnd hlt).TokensDistinct nonce := by
  intro p q x y hx hy heq
  exact List.inj_on_of_nodup_map h (mem_seqs_ofList.mp hx).1 (mem_seqs_ofList.mp hy).1 heq

/-- The order of the list leaves no cycle. -/
theorem acyclic_ofList (hl : l.Nodup) : (ofList l hnd hlt).Acyclic := by
  have hpw : l.Pairwise fun x y => l.idxOf x < l.idxOf y := by
    rw [List.pairwise_iff_getElem]
    intro i j hi hj hij
    rwa [hl.idxOf_getElem i hi, hl.idxOf_getElem j hj]
  have hprec : ∀ x y, (ofList l hnd hlt).Precedes x y → l.idxOf x < l.idxOf y := by
    rintro x y ⟨p, i, j, hij, hx, hy⟩
    obtain ⟨hi, rfl⟩ := List.getElem?_eq_some_iff.mp hx
    obtain ⟨hj, rfl⟩ := List.getElem?_eq_some_iff.mp hy
    exact List.pairwise_iff_getElem.mp (hpw.filter _) i j hi hj hij
  intro x hx
  have hlt : ∀ y, Relation.TransGen (ofList l hnd hlt).Precedes x y → l.idxOf x < l.idxOf y := by
    intro y hy
    induction hy with
    | single h => exact hprec _ _ h
    | tail _ h ih => exact ih.trans (hprec _ _ h)
  exact lt_irrefl _ (hlt x hx)

end OfList

/-- The theorem at three ranks with a common barrier and one of two of them, after the
first has bumped its counter for the second. -/
theorem acyclic_schedule_never_stuck_witness :
    ¬ Stuck (device ((ofList (W := 3) [⟨0, [0, 1], 0⟩, ⟨1, [0, 1, 2], 0⟩] (by decide)
        (by decide)).program 1) Unit 3)
      ⟨[bumpTask 0 0 1], (Act.bump 1).effect 3 0
        ⟨fun _ => (), fun _ _ => 0, fun _ _ => 0, fun _ _ => 0, fun _ _ => 0⟩⟩ :=
  acyclic_schedule_never_stuck (once_ofList (by decide)) pairwiseAgree_ofList
    (acyclic_ofList (by decide)) (tokensDistinct_ofList (by decide +kernel))
    ⟨fun _ _ => rfl, fun _ _ => rfl⟩
    (Reachable.init.fire ((enabled_iff _ _).mpr (by decide +kernel)))

/-! ## Agreement alone is not enough -/

/-- Three ranks and three groups of two: every rank issues the barrier it shares with
the next rank first, and the one it shares with the previous rank second. -/
def cyclicSchedule : Schedule 3 where
  seqs p :=
    match p with
    | 0 => [⟨0, [0, 1], 0⟩, ⟨2, [2, 0], 0⟩]
    | 1 => [⟨1, [1, 2], 0⟩, ⟨0, [0, 1], 0⟩]
    | 2 => [⟨2, [2, 0], 0⟩, ⟨1, [1, 2], 0⟩]
    | _ => []
  mem_ranks p x h := by
    rcases p with _ | _ | _ | _ <;> simp at h <;> rcases h with rfl | rfl <;> decide
  ranks_nodup p x h := by
    rcases p with _ | _ | _ | _ <;> simp at h <;> rcases h with rfl | rfl <;> decide
  ranks_lt p x h := by
    rcases p with _ | _ | _ | _ <;> simp at h <;> rcases h with rfl | rfl <;> decide

/-- What every rank does before it waits: its first barrier, up to the wait for the
peer. -/
def cyclicRun : List Task :=
  (List.range 3).flatMap fun (p : ℕ) =>
    let q := (p + 1) % 3
    let tok := computeToken 1 p 0
    [bumpTask p 0 p, bumpTask p 0 q, publishTask p 0 p tok, publishTask p 0 q tok,
      awaitTask p 0 p tok]

theorem pairwiseAgree_cyclicSchedule : cyclicSchedule.PairwiseAgree := by
  have hbound : ∀ p q, 3 ≤ q → cyclicSchedule.common p q = [] := by
    intro p q hq
    refine List.filter_eq_nil_iff.mpr fun x hx => ?_
    have hlt := cyclicSchedule.ranks_lt p x hx q
    intro hmem
    have := hlt (by simpa using hmem)
    omega
  have hbound' : ∀ p q, 3 ≤ p → cyclicSchedule.common p q = [] := by
    intro p q hp
    obtain ⟨k, rfl⟩ := Nat.exists_eq_add_of_le' hp
    rfl
  have hsmall : ∀ p < 3, ∀ q < 3, cyclicSchedule.common p q = cyclicSchedule.common q p := by
    decide
  intro p q
  by_cases hp : p < 3
  · by_cases hq : q < 3
    · exact hsmall p hp q hq
    · rw [hbound p q (by omega), hbound' q p (by omega)]
  · rw [hbound' p q (by omega), hbound q p (by omega)]

/-- Every member of a barrier of `cyclicSchedule` issues it, once. -/
theorem once_cyclicSchedule : cyclicSchedule.Once where
  nodup p := by
    rcases p with _ | _ | _ | _
    · decide
    · decide
    · decide
    · exact List.nodup_nil
  mem p x q hx hq := by
    have hall : ∀ p < 3, ∀ x ∈ cyclicSchedule.seqs p, ∀ q ∈ x.ranks,
        x ∈ cyclicSchedule.seqs q := by decide
    have hp := cyclicSchedule.ranks_lt p x hx p (cyclicSchedule.mem_ranks p x hx)
    exact hall p hp x hx q hq

theorem tokensDistinct_cyclicSchedule : cyclicSchedule.TokensDistinct 1 := by
  have hall : ∀ p < 3, ∀ q < 3, ∀ x ∈ cyclicSchedule.seqs p, ∀ y ∈ cyclicSchedule.seqs q,
      x.token 1 = y.token 1 → x = y := by decide +kernel
  intro p q x y hx hy
  have hp := cyclicSchedule.ranks_lt p x hx p (cyclicSchedule.mem_ranks p x hx)
  have hq := cyclicSchedule.ranks_lt q y hy q (cyclicSchedule.mem_ranks q y hy)
  exact hall p hp q hq x hx y hy

/-- Every rank waits in its first barrier for the peer that issues it second. -/
theorem cyclicRun_stuck :
    ∃ s, execute (cyclicSchedule.program 1) 3
      ⟨[], ⟨fun _ => (), fun _ _ => 0, fun _ _ => 0, fun _ _ => 0, fun _ _ => 0⟩⟩ cyclicRun =
        some s ∧
      awaitTask 0 0 1 (computeToken 1 0 0) ∉ s.done ∧
      ∀ r < 3, ∀ t ∈ rankTasks (cyclicSchedule.program 1) r,
        ¬ Enabled (device (cyclicSchedule.program 1) Unit 3) s t := by
  refine ⟨_, Option.eq_some_of_isSome (by decide +kernel), ?_, ?_⟩
  · decide +kernel
  · decide +kernel

/-- **Agreement of every pair does not prevent a deadlock**: `cyclicSchedule` satisfies
the documented constraint and reaches a stuck state. -/
theorem pairwise_agreement_can_deadlock :
    ¬ ∀ (W : ℕ) (σ : Schedule W) (nonce : ℤ), σ.Once → σ.PairwiseAgree →
      σ.TokensDistinct nonce → ∀ (m₀ : Memory Unit), m₀.Fresh →
      ∀ s, Reachable (device (σ.program nonce) Unit W) m₀ s →
        ¬ Stuck (device (σ.program nonce) Unit W) s := by
  intro h
  obtain ⟨s, hexec, hwait, hnone⟩ := cyclicRun_stuck
  refine h 3 cyclicSchedule 1 once_cyclicSchedule pairwiseAgree_cyclicSchedule
    tokensDistinct_cyclicSchedule _ ⟨fun _ _ => rfl, fun _ _ => rfl⟩ s
    (reachable_of_execute .init hexec) ⟨fun hfin => hwait (hfin _ ?_), ?_⟩
  · exact ⟨_, rfl, mem_barrierKernel.mpr ⟨1, by decide, Or.inr (Or.inr rfl)⟩⟩
  · refine not_enabled_of_all (n := 3) (fun r hr => ?_) hnone
    obtain ⟨k, rfl⟩ := Nat.exists_eq_add_of_le' hr
    rfl

end Schedule

end GroupFreeCollectives
