import GroupFreeCollectives.World.Ordered
import GroupFreeCollectives.World.Transfer

/-!
# One communication buffer for all groups

A rank has one communication buffer, which all its groups use.  In any interleaving of the
sessions of a world, a copy that reads such a buffer finds the bytes of its own operation:
what an earlier one left there is overwritten, and what a later one stores, or a `put` from
another rank, comes after (`buffer_reuse_is_safe`).  So a collective that has completed has
delivered the inputs of its members.
-/

namespace GroupFreeCollectives

open TaskGraph

variable {cfg : Config} {nonce : ℤ} {W : ℕ} {α : Type} {m₀ : Memory α}
  {s : State Task (Memory α)} {p q n i b : ℕ}

namespace Jobs

variable {J : Jobs cfg nonce W} {j : Job} {it : Item} {o : Op Act} {dst : Cell}

/-- **A collective that has completed has delivered the inputs of its members.** -/
theorem collective_delivers {current : StreamId} {a : CollectiveArgs} {path : DataPath}
    (htok : J.TokensDistinct) (hsteps : (J.world htok).StepsFresh) (hm : m₀.Zeroed)
    (hs : Reachable (device J.program α W) m₀ s)
    (hj : (J.jobs p)[n]? = some (.collective current a path))
    (hdone : Completed J.program s p a.call) (hq : a.row[i]? = some q) (hb : b < a.sliceBytes) :
    ∃ k j', (J.jobs q)[k]? = some j' ∧ J.operation q k = J.operation p n ∧
      s.mem.byte (.output p a.call (i * a.sliceBytes + b)) =
        m₀.byte (.input q j'.call (a.kind.srcOffset (a.row.idxOf p) a.sliceBytes + b)) := by
  obtain ⟨e, hx⟩ := exists_part hj
  obtain ⟨k, y, hy, hyx, hval⟩ := hsteps.output_eq hm hs hx rfl (Completed.copied hdone hx) hq hb
  obtain ⟨j', e', hj', rfl⟩ := exists_job hy
  exact ⟨k, j', hj', operation_eq_operation hx hy hyx, hval⟩

end Jobs

/-! ## The sessions of a world -/

namespace Sessions

variable (S : Sessions cfg nonce W)

/-- Call number `k` of rank `q`, which is job `j`, and call number `n` of rank `p` are one
operation. -/
def Meets (q k : ℕ) (j : Job) (p n : ℕ) : Prop :=
  (S.toJobs.jobs q)[k]? = some j ∧ S.toJobs.operation q k = S.toJobs.operation p n

/-- A collective that has completed has in segment `i` of its output what the `i`-th rank of the
group passed: all of it, or the slice for this rank. -/
def DeliversInputs (m₀ : Memory α) (s : State Task (Memory α)) : Prop :=
  ∀ (p n i q b : ℕ) (current : StreamId) (a : CollectiveArgs) (path : DataPath),
    (S.toJobs.jobs p)[n]? = some (.collective current a path) → Completed S.program s p a.call →
    a.group.ranks[i]? = some q → b < a.sliceBytes →
    ∃ k j', S.Meets q k j' p n ∧ s.mem.byte (.output p a.call (i * a.sliceBytes + b)) =
      m₀.byte (.input q j'.call (a.kind.srcOffset (a.group.ranks.idxOf p) a.sliceBytes + b))

section Safe

variable {S : Sessions cfg nonce W} (htok : S.toJobs.TokensDistinct)
  (hsteps : (S.toJobs.world htok).StepsFresh) (hm : m₀.Zeroed)
  (hs : Reachable (device S.program α W) m₀ s)
include hsteps hm hs

theorem deliversInputs : S.DeliversInputs m₀ s := by
  unfold DeliversInputs
  rw [S.program_eq] at hs ⊢
  intro p n i q b current a path hj hdone hq hb
  have hrow : a.row = a.group.ranks := by
    cases S.toJobs.valid p _ (List.mem_of_getElem? hj) with
    | collective _ hrow => exact hrow
  rw [← hrow] at hq ⊢
  obtain ⟨k, j', hj', hop, hval⟩ := Jobs.collective_delivers htok hsteps hm hs hj hdone hq hb
  exact ⟨k, j', ⟨hj', hop⟩, hval⟩

end Safe

end Sessions

section Pair

/-- No call takes the fused path. -/
theorem stepBase_of_mem_pairSessions {p : ℕ} {x : Contribution}
    (hx : x ∈ pairSessions.toJobs.parts p) : x.op.stepBase 1 = none := by
  have hall : ∀ p < 2, ∀ x ∈ pairSessions.toJobs.parts p, x.op.stepBase 1 = none := by
    decide +kernel
  obtain ⟨j, hj, -⟩ := Jobs.exists_of_mem_parts hx
  exact hall p (Jobs.lt_of_mem_jobs hj) x hx

theorem pairSessions_stepsFresh :
    (pairSessions.toJobs.world pairSessions_tokensDistinct).StepsFresh where
  bases_nodup p := by
    have hnil : (pairSessions.toJobs.parts p).filterMap (fun x => x.op.stepBase 1) = [] :=
      List.filterMap_eq_nil_iff.mpr fun _ hx => stepBase_of_mem_pairSessions hx
    rw [Jobs.world_parts, hnil]
    exact List.nodup_nil
  ne_zero p x hx F := by
    have hnone := stepBase_of_mem_pairSessions hx
    rw [Operation.stepBase, F.work_eq] at hnone
    cases hnone

end Pair

end GroupFreeCollectives
