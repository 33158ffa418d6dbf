import GroupFreeCollectives.Execution
import GroupFreeCollectives.World.Progress
import GroupFreeCollectives.World.Sessions

/-!
# Schedules that all ranks take from one list

Let one list order the requests of a world, and every rank submit those that it is a member
of.  The epochs of the requests follow from the list alone (`issueAll`): a counter for each
group gives every rank the epochs that its own counters do (`issue_filter`), also where two
groups without a common rank have one id.  So the list numbers the operations, every rank
follows the numbers, and no state that any interleaving reaches is stuck.
-/

namespace GroupFreeCollectives

open TaskGraph Positions

/-! ## Epochs from the list -/

/-- The operations of a list of requests, with a counter for each group. -/
def issueAll (alignment : ℕ) (c : ℤ × List ℕ → ℕ) : List Request → List Operation
  | [] => []
  | r :: rs => ⟨r, c (r.groupId, r.ranks)⟩ ::
      issueAll alignment (Function.update c (r.groupId, r.ranks)
        (c (r.groupId, r.ranks) + (r.work.shape alignment).numEpochs)) rs

section Issue

variable {alignment p : ℕ} {rs : List Request} {m : EpochManager} {c : ℤ × List ℕ → ℕ}

/-- **The counters of a rank give its requests the epochs that the list gives them.** -/
theorem issue_filter
    (hid : ∀ r ∈ rs, p ∈ r.ranks → ∀ r' ∈ rs, p ∈ r'.ranks → r.groupId = r'.groupId →
      r.ranks = r'.ranks)
    (hm : ∀ r ∈ rs, p ∈ r.ranks → m.peek r.groupId = c (r.groupId, r.ranks)) :
    issue alignment m (rs.filter (p ∈ ·.ranks)) =
      (issueAll alignment c rs).filter (p ∈ ·.ranks) := by
  induction rs generalizing m c with
  | nil => rfl
  | cons r rs ih =>
    have hid' : ∀ r ∈ rs, p ∈ r.ranks → ∀ r' ∈ rs, p ∈ r'.ranks → r.groupId = r'.groupId →
        r.ranks = r'.ranks := fun x hx hpx y hy hpy =>
      hid x (List.mem_cons_of_mem r hx) hpx y (List.mem_cons_of_mem r hy) hpy
    by_cases hp : p ∈ r.ranks
    · have hpeek := hm r List.mem_cons_self hp
      rw [List.filter_cons_of_pos (by simpa using hp), issue, issueAll,
        List.filter_cons_of_pos (by simpa using hp), hpeek]
      refine congrArg _ (ih hid' fun x hx hpx => ?_)
      by_cases hgid : x.groupId = r.groupId
      · have hranks := hid x (List.mem_cons_of_mem r hx) hpx r List.mem_cons_self hp hgid
        rw [hgid, hranks, EpochManager.peek_advance_self, Function.update_self, hpeek]
      · have hne : (x.groupId, x.ranks) ≠ (r.groupId, r.ranks) :=
          fun h => hgid (Prod.ext_iff.mp h).1
        rw [EpochManager.peek_advance_of_ne _ hgid, Function.update_of_ne hne]
        exact hm x (List.mem_cons_of_mem r hx) hpx
    · rw [List.filter_cons_of_neg (by simpa using hp), issueAll,
        List.filter_cons_of_neg (by simpa using hp)]
      refine ih hid' fun x hx hpx => ?_
      have hne : (x.groupId, x.ranks) ≠ (r.groupId, r.ranks) := by
        intro h
        have hranks : x.ranks = r.ranks := (Prod.ext_iff.mp h).2
        rw [hranks] at hpx
        exact hp hpx
      rw [Function.update_of_ne hne]
      exact hm x (List.mem_cons_of_mem r hx) hpx

/-- No epoch is below its counter. -/
theorem le_epoch_of_mem_issueAll {o : Operation} (h : o ∈ issueAll alignment c rs) :
    c (o.groupId, o.ranks) ≤ o.epoch := by
  induction rs generalizing c with
  | nil => cases h
  | cons r rs ih =>
    rcases List.mem_cons.mp h with rfl | h
    · exact le_refl _
    · refine le_trans ?_ (ih h)
      by_cases heq : (o.groupId, o.ranks) = (r.groupId, r.ranks)
      · rw [heq, Function.update_self]
        exact Nat.le_add_right _ _
      · rw [Function.update_of_ne heq]

theorem nodup_issueAll : (issueAll alignment c rs).Nodup := by
  induction rs generalizing c with
  | nil => exact List.nodup_nil
  | cons r rs ih =>
    refine List.nodup_cons.mpr ⟨fun h => ?_, ih⟩
    have hle := le_epoch_of_mem_issueAll h
    have hpos : 0 < (r.work.shape alignment).numEpochs := by
      cases r.work.shape alignment <;> simp [Runtime.Shape.numEpochs]
    rw [Function.update_self] at hle
    have hle : c (r.groupId, r.ranks) + (r.work.shape alignment).numEpochs ≤
        c (r.groupId, r.ranks) := hle
    omega

end Issue

/-! ## A list that the ranks follow -/

namespace Jobs

variable {cfg : Config} {nonce : ℤ} {W : ℕ} {J : Jobs cfg nonce W} {L : List Request}

/-- Every rank does the requests of the list that it is a member of, in the order of the
list. -/
def Follows (J : Jobs cfg nonce W) (L : List Request) : Prop :=
  ∀ p, (J.jobs p).map Job.request = L.filter (p ∈ ·.ranks)

theorem Follows.map_op (h : J.Follows L) (p : ℕ) : (J.parts p).map Contribution.op =
    (issueAll cfg.alignment (fun _ => 0) L).filter (p ∈ ·.ranks) := by
  have hmem : ∀ r ∈ L, p ∈ r.ranks → ∃ j ∈ J.jobs p, j.request = r := by
    intro r hr hp
    have hr' : r ∈ (J.jobs p).map Job.request := by
      rw [h p]
      exact List.mem_filter.mpr ⟨hr, by simpa using hp⟩
    exact List.mem_map.mp hr'
  have hissue : issue cfg.alignment .empty (L.filter (p ∈ ·.ranks)) =
      (issueAll cfg.alignment (fun _ => 0) L).filter (p ∈ ·.ranks) := by
    refine issue_filter (fun r hr hp r' hr' hp' hgid => ?_) fun _ _ _ => rfl
    obtain ⟨j, hj, rfl⟩ := hmem r hr hp
    obtain ⟨j', hj', rfl⟩ := hmem r' hr' hp'
    exact J.ids p j hj j' hj' hgid
  rw [parts, map_op_contributions, ← hissue, ← h p]
  -- without jobs there is nothing to compare
  cases hjobs : J.jobs p with
  | nil => rfl
  | cons j js =>
    have hj : j ∈ J.jobs p := by simp [hjobs]
    rw [(J.isRank p (lt_of_mem_jobs hj)).config_eq]

/-- **The list numbers the operations.** -/
theorem Follows.follows (h : J.Follows L) (htok : J.TokensDistinct) :
    (J.world htok).Follows fun o => (issueAll cfg.alignment (fun _ => 0) L).idxOf o := by
  intro p n n' x y hx hy hlt
  have hsome : ∀ {k : ℕ} {z : Contribution}, (J.parts p)[k]? = some z →
      ((J.parts p).map Contribution.op)[k]? = some z.op ∧
        (issueAll cfg.alignment (fun _ => 0) L)[
          (issueAll cfg.alignment (fun _ => 0) L).idxOf z.op]? = some z.op := by
    intro k z hz
    have hmem : z.op ∈ (J.parts p).map Contribution.op :=
      List.mem_map_of_mem (List.mem_of_getElem? hz)
    rw [h.map_op p] at hmem
    exact ⟨by rw [List.getElem?_map, hz]; rfl,
      List.getElem?_idxOf (List.mem_of_mem_filter hmem)⟩
  have hfilter : ((J.parts p).map Contribution.op).filter (fun _ => true) =
      (issueAll cfg.alignment (fun _ => 0) L).filter (p ∈ ·.ranks) := by
    rw [List.filter_true, h.map_op p]
  exact lt_of_filter_eq nodup_issueAll hfilter (hsome hx).1 (hsome hy).1 rfl rfl hlt (hsome hx).2
    (hsome hy).2

/-! ### Runs -/

variable {α : Type} {m₀ : Memory α} {s : State Task (Memory α)}

theorem program_eq_nil {p : ℕ} (hp : W ≤ p) : J.program p = [] := by
  rw [program, parts, J.jobs_eq_nil p hp]
  rfl

/-- In every state that any interleaving of the ranks reaches, if something of the list is left
to do then something can be done. -/
theorem Follows.exists_enabled (h : J.Follows L) (htok : J.TokensDistinct) (hm : m₀.Zeroed)
    (hs : Reachable (device J.program α W) m₀ s)
    (hnot : ¬ Finished (device J.program α W) s) : ∃ t, Enabled (device J.program α W) s t :=
  World.Follows.exists_enabled (h.follows htok) hm hs hnot

theorem Follows.exists_finished (h : J.Follows L) (htok : J.TokensDistinct) (hm : m₀.Zeroed)
    (hs : Reachable (device J.program α W) m₀ s) :
    ∃ s', Reachable (device J.program α W) m₀ s' ∧ Finished (device J.program α W) s' ∧
      ∀ t ∈ s.done, t ∈ s'.done :=
  hs.exists_finished (finite_tasks fun _ hp => program_eq_nil hp)
    fun _ hs hnot => h.exists_enabled htok hm hs hnot

end Jobs

/-! ## Sessions that follow a list -/

namespace Sessions

variable {cfg : Config} {nonce : ℤ} {W : ℕ} {S : Sessions cfg nonce W} {L : List Request}
  {α : Type} {m₀ : Memory α} {s : State Task (Memory α)}

theorem program_eq_nil {p : ℕ} (hp : W ≤ p) : S.program p = [] := by
  rw [program_eq, Jobs.program_eq_nil hp]

theorem exists_enabled (hL : S.toJobs.Follows L) (htok : S.toJobs.TokensDistinct)
    (hm : m₀.Zeroed) (hs : Reachable (device S.program α W) m₀ s)
    (hnot : ¬ Finished (device S.program α W) s) :
    ∃ t, Enabled (device S.program α W) s t := by
  rw [S.program_eq] at hs hnot ⊢
  exact hL.exists_enabled htok hm hs hnot

theorem exists_finished (hL : S.toJobs.Follows L) (htok : S.toJobs.TokensDistinct)
    (hm : m₀.Zeroed) (hs : Reachable (device S.program α W) m₀ s) :
    ∃ s', Reachable (device S.program α W) m₀ s' ∧ Finished (device S.program α W) s' ∧
      ∀ t ∈ s.done, t ∈ s'.done := by
  rw [S.program_eq] at hs ⊢
  exact hL.exists_finished htok hm hs

/-- **A globally ordered schedule never gets stuck**, and it can be finished from every state
that it reaches. -/
theorem ordered_schedule_never_stuck (hL : S.toJobs.Follows L)
    (htok : S.toJobs.TokensDistinct) (hm : m₀.Zeroed)
    (hs : Reachable (device S.program α W) m₀ s) :
    (¬ Finished (device S.program α W) s → ∃ t, Enabled (device S.program α W) s t) ∧
      ∃ s', Reachable (device S.program α W) m₀ s' ∧ Finished (device S.program α W) s' ∧
        ∀ t ∈ s.done, t ∈ s'.done :=
  ⟨exists_enabled hL htok hm hs, exists_finished hL htok hm hs⟩

end Sessions

/-! ## The two ranks -/

section Pair

variable {α : Type}

theorem PairChecked.follows {a b : List Runtime.Call} (h : PairChecked a b) :
    h.sessions.toJobs.Follows (pairRequests a b 0) := h.requests_eq

theorem pairSessions_follows :
    pairSessions.toJobs.Follows (pairRequests putCalls recvCalls 0) := pairChecked.follows

theorem exists_pairTask {p : ℕ} (hp : p < 2) :
    ∃ t, t.rank = p ∧ IsTask pairSessions.program t := by
  have hne : ∀ p < 2, rankTasks pairSessions.program p ≠ [] := by decide +kernel
  obtain ⟨t, ht⟩ := List.exists_mem_of_ne_nil _ (hne p hp)
  exact ⟨t, (mem_rankTasks _).mp ht⟩

/-- Both ranks have something to do. -/
theorem pairSessions_not_finished {s : State Task (Memory α)} (h : s.done.length ≤ 1) :
    ¬ Finished (device pairSessions.program α 2) s := by
  intro hfinished
  obtain ⟨t, hrank, ht⟩ := exists_pairTask Nat.zero_lt_two
  obtain ⟨t', hrank', ht'⟩ := exists_pairTask Nat.one_lt_two
  have hmem := hfinished t ht
  have hmem' := hfinished t' ht'
  match hdone : s.done with
  | [] => simp [hdone] at hmem
  | [u] =>
    rw [hdone, List.mem_singleton] at hmem hmem'
    rw [hmem] at hrank
    rw [hmem'] at hrank'
    omega
  | _ :: _ :: _ =>
    rw [hdone] at h
    simp at h

/-- The theorem for these ranks, after one of them has started. -/
theorem ordered_schedule_never_stuck_witness : ∃ (s s' : State Task (Memory Cell)) (t u : Task),
    Reachable (device pairSessions.program Cell 2) cellNames s ∧ s.done = [t] ∧
      Enabled (device pairSessions.program Cell 2) s u ∧
      Reachable (device pairSessions.program Cell 2) cellNames s' ∧
      Finished (device pairSessions.program Cell 2) s' ∧ t ∈ s'.done := by
  obtain ⟨t, ht⟩ := Sessions.exists_enabled pairSessions_follows pairSessions_tokensDistinct
    cellNames_zeroed .init (pairSessions_not_finished (Nat.zero_le 1))
  have hs := Reachable.init.fire ht
  obtain ⟨hstep, s', hs', hfinished, hsub⟩ := Sessions.ordered_schedule_never_stuck
    pairSessions_follows pairSessions_tokensDistinct cellNames_zeroed hs
  obtain ⟨u, hu⟩ := hstep (pairSessions_not_finished (le_refl 1))
  exact ⟨_, s', t, u, hs, rfl, hu, hs', hfinished, hsub t List.mem_cons_self⟩

end Pair

end GroupFreeCollectives
