import GroupFreeCollectives.Lib.Polling
import GroupFreeCollectives.World.Buffer

/-!
# The spin loops

A wait of the device is one operation that fires when its condition holds.  In the kernels it
is a loop.  `barrier_kernel` loads the cell of its peer until it finds the token, and the
receivers of the fused kernels load the cells of all peers, one lane each, until one round
of loads finds the step value in every one of them; in between the ranks go on.  From the second
round on the watchdog compares the clock of the GPU with the deadline and traps, also in
a round that was successful.  `spinning` is this machine, with the timeout of the configuration.

A token or a step value that has been seen stays until the wait has ended: the next
publication to its cell comes after it (`World.stable`).  So the loops do what the waits of
the device do (`spin_loops_refine_waits`), and the watchdog stops only a wait that lasted
longer than the timeout (`waits_end_in_time`).  After a trap the program of the wait is gone;
what the other programs of the rank still do is left open, since CUDA stops them at a time of
its own.
-/

namespace GroupFreeCollectives

open TaskGraph Positions Polling FusedKernelArgs

/-! ## The loops of the kernels -/

/-- `_timeout_ns`. -/
def Config.timeoutNs (cfg : Config) : ℕ := cfg.timeoutMs * 1000000

/-- The operations that spin. -/
def Act.spins : Act → Bool
  | .await _ _ | .data (.stepAwait _ _) => true
  | _ => false

/-- The lanes of a spin loop: the peer of a barrier program, the cells of a receiver. -/
def Act.lanes : Act → List ℕ
  | .await q _ => [q]
  | .data (.stepAwait cells _) => cells
  | _ => []

/-- A load of rank `r` finds what the loop waits for. -/
def Act.sees {α : Type} (worldSize r : ℕ) (m : Memory α) : Act → ℕ → Bool
  | .await q tok, _ => m.signal r (m.slot r q * worldSize + q) = tok
  | .data (.stepAwait _ v), c => m.stepPad r c = v
  | _, _ => false

/-- The condition of a wait is that every lane finds what it waits for. -/
theorem Act.guard_iff_sees {α : Type} {worldSize r : ℕ} {m : Memory α} (a : Act) :
    a.guard worldSize r m ↔
      (a.spins = true → ∀ i ∈ a.lanes, a.sees worldSize r m i = true) := by
  rcases a with _ | _ | _ | ⟨_ | _ | _⟩ | _ <;> simp [guard, spins, lanes, sees]

/-- The device with the spin loops of the kernels and their watchdog. -/
def spinning (cfg : Config) (prog : Program) (α : Type) (W : ℕ) :
    Poller (device prog α W) ℕ ℕ where
  waits t := t.op.act.spins = true
  lanes t := t.op.act.lanes
  sees m t := t.op.act.sees W t.rank m
  host := Task.rank
  timeout := cfg.timeoutNs
  guard_iff _ t := t.op.act.guard_iff_sees

/-! ## What has been seen stays -/

section Stable

variable {cfg cfg' : Config} {nonce : ℤ} {W : ℕ} {w : World cfg nonce W} {α : Type}
  {m₀ : Memory α} {s : State Task (Memory α)} {prog : Program} {t u : Task} {c v p q i tok : ℕ}

/-- A barrier's token stays in its cell until the wait for it ends. -/
theorem Synchronized.await_stays (h : Synchronized prog W) (hm : m₀.Fresh)
    (hs : Reachable (device prog α W) m₀ s) (he : OnEdge prog p q i tok)
    (hready : Ready (device prog α W) s (awaitTask p i q tok))
    (hguard : (device prog α W).guard s.mem (awaitTask p i q tok))
    (hu : Enabled (device prog α W) s u) (hne : u ≠ awaitTask p i q tok) :
    (device prog α W).guard ((device prog α W).effect s.mem u) (awaitTask p i q tok) := by
  obtain ⟨j, hj, hpos⟩ := h.edgesAgree.exists_partner he
  -- the peer has published, since the wait could end now
  have hpublished : publishTask q j p tok ∈ s.done := by
    have hmem := publish_mem_of_await h.wellFormed h.edgesAgree hm
      (hs.fire (hready.enabled hguard)) he List.mem_cons_self hj hpos
    refine (List.mem_cons.mp hmem).resolve_left fun heq => ?_
    cases congrArg (fun t => t.op.act) heq
  have hbump : bumpTask p i q ∈ s.done := hready.ready _ he.isTask_bump before_await_of_bump
  refine await_guard h.wellFormed h.edgesAgree hm (hs.fire hu) he
    (List.mem_cons_of_mem u hbump) ?_ hj hpos (List.mem_cons_of_mem u hpublished)
  simp [hready.fresh, Ne.symm hne]

namespace World

/-- The publication that a lane of a fused receiver waits for. -/
theorem exists_publication {cells : List ℕ} (ht : IsTask w.program t)
    (hact : t.op.act = .data (.stepAwait cells v)) (hc : c ∈ cells) :
    ∃ e, IsTask w.program e ∧ e.op.act = .data (.stepPublish t.rank c v) ∧
      ∀ u, IsTask w.program u → PublishesStep t.rank c u →
        u = e ∨ w.Earlier α u e ∨ w.Earlier α t u := by
  obtain ⟨n, x, m, op, hx, hop, heq, hact⟩ := exists_of_isTask ht hact
  rcases (part hx).cases with ⟨-, h⟩ | ⟨F, h⟩
  · obtain ⟨src, dst, hcopy⟩ := h.act_eq_copy m op hop
    rw [hact] at hcopy
    cases hcopy
  obtain ⟨ch, k, hch, hF⟩ := h.exists_fusedOp hop
  obtain ⟨rfl, rfl⟩ := FusedPart.of_stepAwait hF hact
  obtain ⟨q, hq, hne, rfl⟩ := (FusedPart.mem_cells h.nodup h.mem).mp hc
  -- the publication of the peer in this operation
  obtain ⟨n', ⟨call, o, its⟩, hy, rfl⟩ := exists_partner hx hq
  rcases (part hy).cases with ⟨hempty, -⟩ | ⟨F', h'⟩
  · exact hempty.elim F
  obtain rfl := Subsingleton.elim F F'
  obtain ⟨m', hop'⟩ := h'.exists_hasOp hch (.publish h.mem hne.symm)
  refine ⟨_, isTask_task hy hop', rfl, fun u hu hpub => ?_⟩
  rw [heq]
  exact stepPublish_cases hx h hch hop hy rfl (h'.between_tokens hop').2.2 hop' hu hpub

/-- A step value stays in its cell until the receiver's wait for it ends. -/
theorem StepsFresh.stepAwait_stays (hw : w.StepsFresh) (hm : m₀.Zeroed)
    (hs : Reachable (device w.program α W) m₀ s) {cells : List ℕ}
    (hready : Ready (device w.program α W) s t) (hact : t.op.act = .data (.stepAwait cells v))
    (hc : c ∈ cells) (hcell : s.mem.stepPad t.rank c = v)
    (hu : Enabled (device w.program α W) s u) (hne : u ≠ t) :
    ((device w.program α W).effect s.mem u).stepPad t.rank c = v := by
  obtain ⟨e, htask, hpub, hcases⟩ := exists_publication (α := α) hready.task hact hc
  -- the value can only come from that publication
  have hpublished : e ∈ s.done := by
    have hv : v ≠ 0 := hw.synchronized.ne_zero t hready.task cells v hact
    rcases hs.last_writer (fun m => m.stepPad t.rank c) (PublishesStep t.rank c)
      (fun m u hu => stepPad_frame m u hu) with ⟨hz, -⟩ | ⟨e', s', ⟨v', he'⟩, hmem, -, -, hval, -⟩
    · exact absurd (hcell.symm.trans (hz.trans (hm.stepPad _ _))) hv
    · have heq : v' = v := by
        rw [← hcell, hval, stepPad_effect_publish s'.mem he']
      rw [heq] at he'
      rwa [hw.synchronized.unique e e' htask (hs.task_of_mem hmem) _ _ _ hpub he']
  have hfresh : t ∉ ((device w.program α W).fire s u).done := by
    simp [hready.fresh, Ne.symm hne]
  obtain ⟨e', s', rfl, -, -, -, hval⟩ := (hs.fire hu).good_writer
    (fun mem => mem.stepPad t.rank c) (w.synchronized.tokenSound hm.toFresh) stepPad_frame
    ⟨_, hpub⟩ (List.mem_cons_of_mem u hpublished) hfresh hcases
  exact hval.trans (stepPad_effect_publish s'.mem hpub)

/-- **What a lane has seen stays** until its wait ends. -/
theorem StepsFresh.stable (hw : w.StepsFresh) (hm : m₀.Zeroed) :
    Stable (spinning cfg' w.program α W) m₀ := by
  intro s t u i hs hready hspins hi hsees hu hne
  cases hact : t.op.act with
  | await q tok =>
    obtain ⟨he, heq⟩ := IsTask.eq_awaitTask hready.task hact
    rw [heq] at hready hsees hne ⊢
    simpa [spinning, Act.sees, awaitTask, Act.guard] using w.synchronized.await_stays hm.toFresh hs
      he hready (by simpa [spinning, Act.sees, awaitTask, Act.guard] using hsees) hu hne
  | data d =>
    cases d with
    | stepAwait cells v =>
      have hcell : s.mem.stepPad t.rank i = v := by
        simpa [spinning, Act.sees, hact] using hsees
      have hmem : i ∈ cells := by simpa [spinning, Act.lanes, hact] using hi
      simpa [spinning, Act.sees, hact] using
        hw.stepAwait_stays hm hs hready hact hmem hcell hu hne
    | _ => simp [spinning, Act.spins, hact] at hspins
  | _ => simp [spinning, Act.spins, hact] at hspins

end World

end Stable

/-! ## The sessions of all ranks -/

namespace Sessions

variable {cfg : Config} {nonce : ℤ} {W : ℕ} {S : Sessions cfg nonce W} {α : Type}
  {m₀ : Memory α} {M : Machine Task (Memory α) ℕ ℕ} {clock : ℕ → ℕ}

theorem stable (htok : S.toJobs.TokensDistinct) (hsteps : (S.toJobs.world htok).StepsFresh)
    (hm : m₀.Zeroed) : Stable (spinning cfg S.program α W) m₀ := by
  rw [S.program_eq]
  exact hsteps.stable hm

/-- **The spin loops do what the waits of the device do**: they reach the same states and no
others, whatever time passes and whichever waits the watchdog stops, and a globally ordered
schedule can be finished from every state in which no wait was stopped or is past its
deadline. -/
theorem spin_loops_refine_waits (htok : S.toJobs.TokensDistinct)
    (hsteps : (S.toJobs.world htok).StepsFresh) (hm : m₀.Zeroed) (clock : ℕ → ℕ) :
    (∀ s, (∃ M, Reaches (spinning cfg S.program α W) (Machine.start m₀ clock) M ∧ M.state = s) ↔
      Reachable (device S.program α W) m₀ s) ∧
    ∀ L, S.toJobs.Follows L →
      ∀ M, Reaches (spinning cfg S.program α W) (Machine.start m₀ clock) M → M.trapped = [] →
        InTime (spinning cfg S.program α W) M →
        ∃ M', Reaches (spinning cfg S.program α W) M M' ∧ M'.trapped = [] ∧
          Finished (device S.program α W) M'.state := by
  have hstable := stable (α := α) htok hsteps hm
  refine ⟨fun s => reaches_iff hstable, fun L hL M hM htrapped htime => ?_⟩
  exact Polling.exists_finished hstable (finite_tasks fun _ hp => program_eq_nil hp)
    (fun s hs hnot => exists_enabled hL htok hm hs hnot) hM htime htrapped

/-- **Waits end in time.**  A wait that the watchdog has stopped was not over, and by the clock
of its rank it has lasted longer than the timeout.  A wait whose condition holds fails one more
round of loads at most, and so does one past its deadline. -/
theorem waits_end_in_time (htok : S.toJobs.TokensDistinct)
    (hsteps : (S.toJobs.world htok).StepsFresh) (hm : m₀.Zeroed)
    (hM : Reaches (spinning cfg S.program α W) (Machine.start m₀ clock) M) :
    (∀ t ∈ M.trapped, t ∉ M.state.done ∧ 0 < cfg.timeoutMs ∧
      ∃ Q, Reaches (spinning cfg S.program α W) (Machine.start m₀ clock) Q ∧
        Reaches (spinning cfg S.program α W) Q M ∧ Ready (device S.program α W) Q.state t ∧
        Q.clock t.rank + cfg.timeoutNs < M.clock t.rank) ∧
    ∀ t w, M.spin t = some w → ∀ M' w', Reaches (spinning cfg S.program α W) M M' →
      M'.spin t = some w' →
      ((device S.program α W).guard M.state.mem t → w'.rounds ≤ w.rounds + 1) ∧
      (0 < cfg.timeoutMs → w.deadline < M.clock t.rank → w'.rounds ≤ max w.rounds 1) := by
  have hstable := stable (α := α) htok hsteps hm
  have hsound := sound_start.reaches hstable hM
  refine ⟨fun t ht => ?_, fun t w hw M' w' hreach hw' => ⟨fun hguard => ?_, fun hpos hlate => ?_⟩⟩
  · obtain ⟨hpos, hQ⟩ := exists_start_of_trapped hM ht
    exact ⟨(hsound.trapped t ht).2.2.fresh, Nat.pos_of_mul_pos_right hpos, hQ⟩
  · have hwaits := (hsound.ready t w hw).1
    exact rounds_le_of_guard hstable hsound hw
      (((spinning cfg S.program α W).guard_iff _ _).mp hguard hwaits) hreach hw'
  · exact rounds_le_of_expired (Nat.mul_pos hpos (by decide)) hw hlate hreach hw'

end Sessions

/-! ## Two ranks -/

section Pair

/-- Only its own program comes before an operation of a barrier that a rank begins with. -/
theorem eq_of_before_first {prog : Program} {p q tok : ℕ} {u : Task} {o : Op Act}
    (he : OnEdge prog p q 0 tok) (hu : IsTask prog u) (hb : Before prog u ⟨p, 0, o⟩)
    (ho : o.thread = q) (hphase : o.phase ≤ 2) :
    u = bumpTask p 0 q ∨ u = publishTask p 0 q tok ∧ 1 < o.phase := by
  obtain ⟨r, i, o'⟩ := u
  obtain ⟨rfl, ⟨rfl, hthread, hlt⟩ | ⟨hlt, -⟩⟩ : r = p ∧ _ := hb
  · obtain ⟨it, ranks, hit, hcmd, -⟩ := he.cmd
    obtain ⟨it', hit', ho'⟩ := hu
    obtain rfl : it = it' := Option.some_inj.mp (hit.symm.trans hit')
    rw [hcmd] at ho'
    obtain ⟨peer, -, rfl | rfl | rfl⟩ := mem_barrierKernel.mp ho'
    · obtain rfl : peer = q := hthread.trans ho
      exact Or.inl rfl
    · obtain rfl : peer = q := hthread.trans ho
      exact Or.inr ⟨rfl, hlt⟩
    · exact absurd hlt (Nat.not_lt_of_le hphase)
  · exact absurd hlt (Nat.not_lt_zero i)

/-- A rank that begins with a barrier reaches the wait for a peer on its own. -/
theorem exists_first_wait {prog : Program} {α : Type} {W p q tok : ℕ} (m₀ : Memory α)
    (he : OnEdge prog p q 0 tok) : ∃ s, Reachable (device prog α W) m₀ s ∧
      Ready (device prog α W) s (awaitTask p 0 q tok) ∧
      s.done = [publishTask p 0 q tok, bumpTask p 0 q] := by
  have hbump : Enabled (device prog α W) ⟨[], m₀⟩ (bumpTask p 0 q) := by
    refine ⟨he.isTask_bump, List.not_mem_nil, fun u hu hb => ?_, trivial⟩
    rcases eq_of_before_first he hu hb rfl (Nat.zero_le _) with rfl | ⟨-, hlt⟩
    · exact absurd hb.2 (by simp [bumpTask])
    · exact absurd hlt (Nat.not_lt_zero _)
  have hpublish : Enabled (device prog α W) ((device prog α W).fire ⟨[], m₀⟩ (bumpTask p 0 q))
      (publishTask p 0 q tok) := by
    refine ⟨he.isTask_publish, by simp [bumpTask, publishTask], fun u hu hb => ?_, trivial⟩
    rcases eq_of_before_first he hu hb rfl (Nat.le_succ 1) with rfl | ⟨-, hlt⟩
    · exact List.mem_cons_self
    · exact absurd hlt (Nat.lt_irrefl 1)
  refine ⟨_, (Reachable.init.fire hbump).fire hpublish, ⟨he.isTask_await, ?_, fun u hu hb => ?_⟩,
    rfl⟩
  · simp [bumpTask, publishTask, awaitTask]
  · rcases eq_of_before_first he hu hb rfl (Nat.le_refl 2) with rfl | ⟨rfl, -⟩
    · exact List.mem_cons_of_mem _ List.mem_cons_self
    · exact List.mem_cons_self

/-- The two ranks finish without a trap when no time passes. -/
theorem spin_loops_refine_waits_witness : ∃ M : Machine Task (Memory Cell) ℕ ℕ,
    Reaches (spinning .default pairSessions.program Cell 2) (Machine.start cellNames fun _ => 0) M ∧
      M.trapped = [] ∧ Finished (device pairSessions.program Cell 2) M.state :=
  (Sessions.spin_loops_refine_waits pairSessions_tokensDistinct pairSessions_stepsFresh
    cellNames_zeroed fun _ => 0).2 _ pairSessions_follows _ .refl rfl (by simp [InTime])

theorem exists_firstToken : ∃ tok, OnEdge pairSessions.program 0 1 0 tok := by
  have hsome : ((pairSessions.program 0)[0]?.bind (Item.tokenFor 1)).isSome := by decide +kernel
  obtain ⟨tok, htok⟩ := Option.isSome_iff_exists.mp hsome
  exact ⟨tok, Option.bind_eq_some_iff.mp htok⟩

/-- Rank 1 does nothing: the first wait of rank 0 is stopped after more than 30 seconds. -/
theorem waits_end_in_time_witness : ∃ (t : Task) (M Q : Machine Task (Memory Cell) ℕ ℕ),
    t.rank = 0 ∧ t ∈ M.trapped ∧ t ∉ M.state.done ∧
      Reaches (spinning .default pairSessions.program Cell 2) (Machine.start cellNames fun _ => 0)
        M ∧
      Reaches (spinning .default pairSessions.program Cell 2) Q M ∧
      Q.clock 0 + 30000000000 < M.clock 0 := by
  obtain ⟨tok, he⟩ := exists_firstToken
  obtain ⟨s, hs, hready, hdone⟩ := exists_first_wait (W := 2) cellNames he
  have hsync : Synchronized pairSessions.program 2 := by
    rw [pairSessions.program_eq]
    exact (pairSessions.toJobs.world pairSessions_tokensDistinct).synchronized
  -- rank 1 has not published
  have hguard : ¬ (device pairSessions.program Cell 2).guard s.mem (awaitTask 0 0 1 tok) := by
    intro hguard
    obtain ⟨j, -, hmem⟩ := exists_publish_of_await hsync.wellFormed cellNames_zeroed.toFresh
      (hs.fire (hready.enabled hguard)) he (hsync.ne_zero _ _ _ _ he) List.mem_cons_self
    simp [hdone, publishTask, bumpTask, awaitTask] at hmem
  obtain ⟨M, hM, -, htrapped⟩ := exists_trapped (p := spinning .default pairSessions.program Cell 2)
    (M := ⟨s, fun _ => 0, fun _ => none, []⟩) (t := awaitTask 0 0 1 tok) (by decide) rfl hready
    rfl List.not_mem_nil hguard
  have hreach := (reaches_of_reachable hs).trans hM
  obtain ⟨hfresh, -, Q, -, hQ, -, hlt⟩ := (Sessions.waits_end_in_time pairSessions_tokensDistinct
    pairSessions_stepsFresh cellNames_zeroed hreach).1 _ htrapped
  exact ⟨_, M, Q, rfl, htrapped, hfresh, hreach, hQ, hlt⟩

end Pair

end GroupFreeCollectives
