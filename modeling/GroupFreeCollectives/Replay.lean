import GroupFreeCollectives.ScheduleProgress
import Mathlib.Tactic.IntervalCases

/-!
# Barriers of a captured batch

The benchmarks capture a batch of calls into a CUDA graph and time its replays.  What is captured
of a barrier is its launch: `edge_seq` is in device memory and counts on, so the slots alternate
as they always do, but the token is an argument that the host has computed, and every replay uses
it again.

An edge has two slots, and each keeps the last token that was published there.  So a batch has to
have three tokens (`--graph-batch-iters` is at least 3 for bare barriers): then tokens two apart
differ, which is all that the two slots need.  With one or two tokens a rank that starts the third
barrier of the graph finds the token of the first one in its cells, and passes a barrier that
nobody else has entered (`captured_barriers_synchronise_iff`).
-/

namespace GroupFreeCollectives

open TaskGraph Positions

/-! ## What a benchmark executes -/

/-- How a benchmark uses a CUDA graph. -/
structure CudaGraph where
  /-- calls before the capture -/
  warmup : ℕ
  /-- captured calls -/
  batchIters : ℕ
  replays : ℕ
  /-- calls behind the last replay -/
  later : ℕ

namespace CudaGraph

variable (g : CudaGraph) {i : ℕ}

/-- The calls that the host makes. -/
def calls : ℕ := g.warmup + g.batchIters + g.later

/-- The calls that the device executes. -/
def executions : ℕ := g.warmup + g.batchIters * g.replays + g.later

/-- The call of the host that the device executes at place `i`.  A captured call is not executed
when it is made, but at every replay. -/
def call (i : ℕ) : ℕ :=
  if i < g.warmup then i
  else if i < g.warmup + g.batchIters * g.replays then
    g.warmup + (i - g.warmup) % g.batchIters
  else i - g.batchIters * g.replays + g.batchIters

variable {g}

theorem call_lt (hm : 0 < g.batchIters) (hi : i < g.executions) : g.call i < g.calls := by
  have hmod : (i - g.warmup) % g.batchIters < g.batchIters := Nat.mod_lt _ hm
  unfold executions at hi
  unfold call calls
  split_ifs <;> omega

/-- Calls that are at one place of two replays are a multiple of the batch apart. -/
theorem batchIters_le_of_mod_eq {a d : ℕ} (hd : 0 < d)
    (h : (a + d) % g.batchIters = a % g.batchIters) : g.batchIters ≤ d := by
  have hdvd : g.batchIters ∣ a + d - a :=
    (Nat.modEq_iff_dvd' (Nat.le_add_right a d)).mp (Nat.ModEq.symm h)
  rw [Nat.add_sub_cancel_left] at hdvd
  exact Nat.le_of_dvd hd hdvd

/-- **A call that is executed again is replayed**: all executions from the one to the other are
of the graph, and they are at least a batch. -/
theorem replayed_of_call_eq {d : ℕ} (hm : 0 < g.batchIters) (hd : 0 < d)
    (h : g.call (i + d) = g.call i) :
    g.batchIters ≤ d ∧ g.warmup ≤ i ∧ i + d < g.warmup + g.batchIters * g.replays := by
  have hmod : ∀ a, a % g.batchIters < g.batchIters := fun a => Nat.mod_lt a hm
  have hi := hmod (i - g.warmup)
  have hid := hmod (i + d - g.warmup)
  unfold call at h
  split_ifs at h
  · omega
  · omega
  · omega
  · omega
  · have heq : i - g.warmup + d = i + d - g.warmup := by omega
    refine ⟨batchIters_le_of_mod_eq (a := i - g.warmup) hd ?_, by omega, by omega⟩
    rw [heq]
    omega
  · omega
  · omega
  · omega
  · omega

/-- The third execution of a graph with one or two calls is the first once more. -/
theorem call_warmup_add_two (hm : 0 < g.batchIters) (hle : g.batchIters ≤ 2)
    (hthree : 3 ≤ g.batchIters * g.replays) : g.call (g.warmup + 2) = g.call g.warmup := by
  have htwo : 2 % g.batchIters = 0 := by
    interval_cases g.batchIters <;> rfl
  unfold call
  rw [if_neg (by omega), if_pos (by omega), if_neg (by omega), if_pos (by omega),
    Nat.add_sub_cancel_left, htwo, Nat.sub_self, Nat.zero_mod]

end CudaGraph

/-! ## The barriers of one group -/

namespace Schedule

variable {W : ℕ} (gid : ℤ) {ranks : List ℕ} (hnd : ranks.Nodup) (hlt : ∀ q ∈ ranks, q < W)

/-- The members of one group issue barriers with these epochs. -/
def oneGroup (epochs : ℕ → List ℕ) : Schedule W where
  seqs p := if p ∈ ranks then (epochs p).map (⟨gid, ranks, ·⟩) else []
  mem_ranks p x hx := by
    split at hx
    case isTrue hp =>
      obtain ⟨e, -, rfl⟩ := List.mem_map.mp hx
      exact hp
    case isFalse => cases hx
  ranks_nodup p x hx := by
    split at hx
    case isTrue =>
      obtain ⟨e, -, rfl⟩ := List.mem_map.mp hx
      exact hnd
    case isFalse => cases hx
  ranks_lt p x hx := by
    split at hx
    case isTrue =>
      obtain ⟨e, -, rfl⟩ := List.mem_map.mp hx
      exact hlt
    case isFalse => cases hx

section OneGroup

variable {gid hnd hlt} {nonce : ℤ} {epochs epochs' : ℕ → List ℕ} {l : List ℕ}
  {p q i j tok : ℕ}

theorem seqs_oneGroup_of_mem (hp : p ∈ ranks) :
    (oneGroup gid hnd hlt epochs).seqs p = (epochs p).map (⟨gid, ranks, ·⟩) := if_pos hp

theorem seqs_oneGroup_of_not_mem (hp : p ∉ ranks) :
    (oneGroup gid hnd hlt epochs).seqs p = [] := if_neg hp

theorem onEdge_oneGroup_iff : OnEdge ((oneGroup gid hnd hlt epochs).program nonce) p q i tok ↔
    p ∈ ranks ∧ q ∈ ranks ∧ ∃ e, (epochs p)[i]? = some e ∧ computeToken nonce gid e = tok := by
  rw [onEdge_iff]
  constructor
  · rintro ⟨x, hx, hq, rfl⟩
    by_cases hp : p ∈ ranks
    · rw [seqs_oneGroup_of_mem hp, List.getElem?_map] at hx
      obtain ⟨e, he, rfl⟩ := Option.map_eq_some_iff.mp hx
      exact ⟨hp, hq, e, he, rfl⟩
    · rw [seqs_oneGroup_of_not_mem hp] at hx
      cases hx
  · rintro ⟨hp, hq, e, he, rfl⟩
    exact ⟨⟨gid, ranks, e⟩, by rw [seqs_oneGroup_of_mem hp, List.getElem?_map, he]; rfl, hq, rfl⟩

/-- Every barrier of a member is on the edge to every other one. -/
theorem edgePos_oneGroup (hp : p ∈ ranks) (hq : q ∈ ranks) (hi : i ≤ (epochs p).length) :
    edgePos ((oneGroup gid hnd hlt epochs).program nonce) p q i = i := by
  rw [edgePos_program, seqs_oneGroup_of_mem hp, List.filter_eq_self.mpr, List.length_take,
    List.length_map, Nat.min_eq_left hi]
  intro x hx
  obtain ⟨e, -, rfl⟩ := List.mem_map.mp (List.mem_of_mem_take hx)
  simpa using hq

theorem OneGroup.edgePos_eq (he : OnEdge ((oneGroup gid hnd hlt epochs).program nonce) p q i tok) :
    edgePos ((oneGroup gid hnd hlt epochs).program nonce) p q i = i := by
  obtain ⟨hp, hq, e, he, -⟩ := onEdge_oneGroup_iff.mp he
  exact edgePos_oneGroup hp hq (List.getElem?_eq_some_iff.mp he).1.le

/-- **Tokens two apart that differ are enough**, if all members issue the same barriers. -/
theorem edgesAgree_oneGroup (htok : ∀ (n : ℕ) e e', l[n]? = some e → l[n + 2]? = some e' →
      computeToken nonce gid e ≠ computeToken nonce gid e') :
    EdgesAgree ((oneGroup gid hnd hlt fun _ => l).program nonce) := by
  have hcommon : ∀ p q, (oneGroup gid hnd hlt fun _ => l).common p q =
      if p ∈ ranks ∧ q ∈ ranks then l.map (⟨gid, ranks, ·⟩) else [] := by
    intro p q
    unfold common oneGroup
    by_cases hp : p ∈ ranks <;> by_cases hq : q ∈ ranks <;> simp [hp, hq]
  refine edgesAgree (fun p q => ?_) fun p q n x y hx hy => ?_
  · rw [hcommon, hcommon]
    simp only [and_comm]
  · rw [hcommon] at hx hy
    split at hx
    case isTrue hpq =>
      rw [if_pos hpq, List.getElem?_map] at hy
      rw [List.getElem?_map] at hx
      obtain ⟨e, he, rfl⟩ := Option.map_eq_some_iff.mp hx
      obtain ⟨e', he', rfl⟩ := Option.map_eq_some_iff.mp hy
      exact htok n e e' he he'
    case isFalse => cases hx

theorem program_oneGroup_eq_nil (p : ℕ) (hp : W ≤ p) :
    (oneGroup gid hnd hlt epochs).program nonce p = [] := by
  have hnot : p ∉ ranks := fun h => absurd (hlt p h) (Nat.not_lt.mpr hp)
  rw [program, seqs_oneGroup_of_not_mem hnot]
  rfl

/-- Fewer barriers make the first part of a program. -/
theorem program_oneGroup_mono (h : ∀ p, epochs p <+: epochs' p) (p : ℕ) :
    (oneGroup gid hnd hlt epochs).program nonce p <+:
      (oneGroup gid hnd hlt epochs').program nonce p := by
  obtain ⟨k, hk⟩ : ∃ k, epochs p = (epochs' p).take k := ⟨_, (List.prefix_iff_eq_take.mp (h p))⟩
  have hseqs : (oneGroup gid hnd hlt epochs).seqs p =
      ((oneGroup gid hnd hlt epochs').seqs p).take k := by
    by_cases hp : p ∈ ranks
    · rw [seqs_oneGroup_of_mem hp, seqs_oneGroup_of_mem hp, hk, List.map_take]
    · rw [seqs_oneGroup_of_not_mem hp, seqs_oneGroup_of_not_mem hp, List.take_nil]
  have hprogram : (oneGroup gid hnd hlt epochs).program nonce p =
      ((oneGroup gid hnd hlt epochs').program nonce p).take k := by
    rw [take_program, ← hseqs]
    rfl
  rw [hprogram]
  exact List.take_prefix k _

end OneGroup

/-! ## Runs -/

section Runs

variable {gid hnd hlt} {nonce : ℤ} {l : List ℕ} {p q i k tok : ℕ} {α : Type} {m₀ : Memory α}
  {s : State Task (Memory α)}

/-- What the first part of a program can do, the program can do. -/
theorem reachable_mono {prog prog' : Program} (h : ∀ p, prog p <+: prog' p)
    (hs : Reachable (device prog α W) m₀ s) : Reachable (device prog' α W) m₀ s := by
  have hget : ∀ {p i : ℕ}, i < (prog p).length → (prog' p)[i]? = (prog p)[i]? := by
    intro p i hi
    obtain ⟨rest, hrest⟩ := h p
    rw [← hrest, List.getElem?_append_left hi]
  have hlen : ∀ {t : Task}, IsTask prog t → t.idx < (prog t.rank).length := by
    rintro t ⟨it, hit, -⟩
    exact (List.getElem?_eq_some_iff.mp hit).1
  induction hs with
  | init => exact .init
  | @fire s t _ hen ih =>
    have hidx := hlen hen.task
    refine ih.fire ⟨?_, hen.fresh, fun u hu hut => ?_, hen.guard⟩
    · obtain ⟨it, hit, ho⟩ := hen.task
      exact ⟨it, (hget hidx).trans hit, ho⟩
    · obtain ⟨hrank, hcases⟩ := hut
      have hle : u.idx < (prog u.rank).length := by
        rw [hrank]
        rcases hcases with ⟨heq, -⟩ | ⟨hlt, -⟩ <;> omega
      obtain ⟨it, hit, ho⟩ := hu
      refine hen.ready u ⟨it, (hget hle).symm.trans hit, ho⟩ ⟨hrank, ?_⟩
      rw [hget hle, hget hidx] at hcases
      exact hcases

/-- Tasks in the order of their barriers and phases. -/
def Sooner : Task → Task → Prop :=
  InvImage (Prod.Lex (· < ·) (· < ·)) fun t => (t.idx, t.op.phase)

theorem sooner_of_before {prog : Program} {u t : Task} (h : Before prog u t) : Sooner u t := by
  obtain ⟨-, ⟨hidx, -, hphase⟩ | ⟨hlt, -⟩⟩ := h
  · show Prod.Lex _ _ (u.idx, u.op.phase) (t.idx, t.op.phase)
    rw [hidx]
    exact Prod.Lex.right _ hphase
  · exact Prod.Lex.left _ _ hlt

/-- Something can run, if every wait finds its token once everything sooner has fired. -/
theorem exists_enabled_of_await {σ : Schedule W}
    (hnot : ¬ Finished (device (σ.program nonce) α W) s)
    (hawait : ∀ p i q tok, OnEdge (σ.program nonce) p q i tok → awaitTask p i q tok ∉ s.done →
      (∀ u, IsTask (σ.program nonce) u → Sooner u (awaitTask p i q tok) → u ∈ s.done) →
      (device (σ.program nonce) α W).guard s.mem (awaitTask p i q tok)) :
    ∃ t, Enabled (device (σ.program nonce) α W) s t := by
  have hwf : WellFounded Sooner := InvImage.wf _ (wellFounded_lt.prod_lex wellFounded_lt)
  refine exists_enabled hwf (fun u t _ _ => sooner_of_before) (fun t ht hfresh hsmall => ?_) hnot
  cases hact : t.op.act with
  | await q tok =>
    obtain ⟨he, heq⟩ := IsTask.eq_awaitTask ht hact
    rw [heq] at hfresh hsmall ⊢
    exact hawait _ _ q tok he hfresh hsmall
  | data d =>
    obtain ⟨it, hit, ho⟩ := ht
    obtain ⟨x, -, -, hcmd⟩ := exists_of_mem_program (List.mem_of_getElem? hit)
    rw [hcmd] at ho
    obtain ⟨q, -, heq | heq | heq⟩ := mem_barrierKernel.mp ho <;> rw [heq] at hact <;> cases hact
  | _ =>
    rw [device_guard, hact]
    trivial

/-- **Members that issue the same barriers can come to their end**, from every state that is
reached. -/
theorem exists_finished_oneGroup
    (htok : ∀ (n : ℕ) e e', l[n]? = some e → l[n + 2]? = some e' →
      computeToken nonce gid e ≠ computeToken nonce gid e') (hm : m₀.Fresh)
    (hs : Reachable (device ((oneGroup gid hnd hlt fun _ => l).program nonce) α W) m₀ s) :
    ∃ s', Reachable (device ((oneGroup gid hnd hlt fun _ => l).program nonce) α W) m₀ s' ∧
      Finished (device ((oneGroup gid hnd hlt fun _ => l).program nonce) α W) s' ∧
      ∀ t ∈ s.done, t ∈ s'.done := by
  refine hs.exists_finished (finite_tasks program_oneGroup_eq_nil) fun x hx hnot =>
    exists_enabled_of_await hnot fun p i q tok he hfresh hsmall => ?_
  obtain ⟨hp, hq, e, hget, htoken⟩ := onEdge_oneGroup_iff.mp he
  have hj : OnEdge ((oneGroup gid hnd hlt fun _ => l).program nonce) q p i tok :=
    onEdge_oneGroup_iff.mpr ⟨hq, hp, e, hget, htoken⟩
  refine await_guard wellFormed (edgesAgree_oneGroup htok) hm hx he ?_ hfresh hj ?_ ?_
  · exact hsmall _ he.isTask_bump (Prod.Lex.right _ Nat.two_pos)
  · rw [OneGroup.edgePos_eq he, OneGroup.edgePos_eq hj]
  · exact hsmall _ hj.isTask_publish (Prod.Lex.right _ Nat.one_lt_two)

/-! ## A token that is still there -/

/-- The first `k + 2` calls, and for rank `p` one more. -/
def ahead (l : List ℕ) (k p r : ℕ) : List ℕ := l.take (if r = p then k + 3 else k + 2)

theorem getElem?_ahead {r n e : ℕ} : (ahead l k p r)[n]? = some e ↔
    l[n]? = some e ∧ (n < k + 2 ∨ n = k + 2 ∧ r = p) := by
  unfold ahead
  rw [List.getElem?_take]
  by_cases hr : r = p
  · rw [if_pos hr]
    by_cases hn : n < k + 3
    · rw [if_pos hn]
      exact ⟨fun h => ⟨h, by omega⟩, fun h => h.1⟩
    · rw [if_neg hn]
      exact ⟨nofun, fun h => by omega⟩
  · rw [if_neg hr]
    by_cases hn : n < k + 2
    · rw [if_pos hn]
      exact ⟨fun h => ⟨h, Or.inl hn⟩, fun h => h.1⟩
    · rw [if_neg hn]
      exact ⟨nofun, fun h => by omega⟩

theorem take_prefix_ahead (r : ℕ) : l.take (k + 2) <+: ahead l k p r := by
  unfold ahead
  split <;> exact List.take_prefix_take_left (by omega)

/-- **A stale token ends a wait**: behind the barriers before it, rank `p` finds in its cells what
the barrier two before has left there, or what it has published there itself. -/
theorem ahead_guard {e e' : ℕ} (hk : l[k]? = some e) (hk' : l[k + 2]? = some e')
    (hstale : computeToken nonce gid e = computeToken nonce gid e') (hm : m₀.Fresh)
    (hs : Reachable (device ((oneGroup gid hnd hlt (ahead l k p)).program nonce) α W) m₀ s)
    (hdone : ∀ r n q tok, n < k + 2 →
      OnEdge ((oneGroup gid hnd hlt (ahead l k p)).program nonce) r q n tok →
        publishTask r n q tok ∈ s.done)
    (he : OnEdge ((oneGroup gid hnd hlt (ahead l k p)).program nonce) p q (k + 2) tok)
    (hbump : bumpTask p (k + 2) q ∈ s.done) (hfresh : awaitTask p (k + 2) q tok ∉ s.done) :
    (device ((oneGroup gid hnd hlt (ahead l k p)).program nonce) α W).guard s.mem
      (awaitTask p (k + 2) q tok) := by
  obtain ⟨hp, hq, x, hx, rfl⟩ := onEdge_oneGroup_iff.mp he
  obtain rfl : x = e' := Option.some_inj.mp ((getElem?_ahead.mp hx).1.symm.trans hk')
  have hfirst : OnEdge ((oneGroup gid hnd hlt (ahead l k p)).program nonce) q p k
      (computeToken nonce gid e) :=
    onEdge_oneGroup_iff.mpr ⟨hq, hp, e, getElem?_ahead.mpr ⟨hk, by omega⟩, rfl⟩
  have hpublished := hdone q k p _ (by omega) hfirst
  have hslot := (slot_of_inFlight wellFormed hm hs he hbump hfresh).1
  rw [OneGroup.edgePos_eq he, Nat.add_mod_right] at hslot
  rw [device_guard]
  show s.mem.signal p (s.mem.slot p q * W + q) = _
  rw [hslot]
  rcases signal_cell wellFormed hm (hlt q hq) hs (k % 2) with
    ⟨-, hnone⟩ | ⟨j, tokj, hj, hpar, -, hval, hlast⟩
  · exact absurd hpublished (hnone k _ hfirst (by rw [OneGroup.edgePos_eq hfirst]))
  · have hle := hlast k _ hfirst (by rw [OneGroup.edgePos_eq hfirst]) hpublished
    rw [OneGroup.edgePos_eq hfirst, OneGroup.edgePos_eq hj] at hle
    rw [OneGroup.edgePos_eq hj] at hpar
    obtain ⟨-, -, y, hy, rfl⟩ := onEdge_oneGroup_iff.mp hj
    obtain ⟨hget, hcases⟩ := getElem?_ahead.mp hy
    -- the last publication in the slot is that of the barrier `k`, or of this one
    obtain hjk | hjk : j = k ∨ j = k + 2 := by omega
    · rw [hjk, hk] at hget
      rw [hval, ← hstale, Option.some_inj.mp hget]
    · rw [hjk, hk'] at hget
      rw [hval, Option.some_inj.mp hget]

/-- **A rank passes a barrier alone** that waits for what the barrier two before it has left. -/
theorem exists_ahead {e e' : ℕ} (hk : l[k]? = some e) (hk' : l[k + 2]? = some e')
    (hstale : computeToken nonce gid e = computeToken nonce gid e')
    (htok : ∀ (n : ℕ) e e', (l.take (k + 2))[n]? = some e → (l.take (k + 2))[n + 2]? = some e' →
      computeToken nonce gid e ≠ computeToken nonce gid e') (hm : m₀.Fresh) (hp : p ∈ ranks) :
    ∃ s : State Task (Memory α),
      Reachable (device ((oneGroup gid hnd hlt fun _ => l).program nonce) α W) m₀ s ∧
      (∀ q ∈ ranks, awaitTask p (k + 2) q (computeToken nonce gid e') ∈ s.done) ∧
      ∀ q ≠ p, ∀ tok, publishTask q (k + 2) p tok ∉ s.done := by
  -- all members finish the barriers before it
  obtain ⟨s₁, hs₁, hfinished₁, -⟩ : ∃ s₁ : State Task (Memory α),
      Reachable (device ((oneGroup gid hnd hlt fun _ => l.take (k + 2)).program nonce) α W) m₀ s₁ ∧
      Finished (device ((oneGroup gid hnd hlt fun _ => l.take (k + 2)).program nonce) α W) s₁ ∧
      ∀ t ∈ (⟨[], m₀⟩ : State Task (Memory α)).done, t ∈ s₁.done :=
    exists_finished_oneGroup htok hm .init
  have hlow : ∀ {r q n tok}, n < k + 2 →
      OnEdge ((oneGroup gid hnd hlt (ahead l k p)).program nonce) r q n tok →
      OnEdge ((oneGroup gid hnd hlt fun _ => l.take (k + 2)).program nonce) r q n tok := by
    intro r q n tok hn he
    obtain ⟨hr, hq, x, hx, htoken⟩ := onEdge_oneGroup_iff.mp he
    refine onEdge_oneGroup_iff.mpr ⟨hr, hq, x, ?_, htoken⟩
    rw [List.getElem?_take_of_lt hn, (getElem?_ahead.mp hx).1]
  -- and then `p` does its next one
  have hstep : ∀ x, (Reachable (device ((oneGroup gid hnd hlt (ahead l k p)).program nonce) α W)
        m₀ x ∧ ∀ t ∈ s₁.done, t ∈ x.done) →
      ¬ Finished (device ((oneGroup gid hnd hlt (ahead l k p)).program nonce) α W) x →
      ∃ t, Enabled (device ((oneGroup gid hnd hlt (ahead l k p)).program nonce) α W) x t ∧
        Reachable (device ((oneGroup gid hnd hlt (ahead l k p)).program nonce) α W) m₀
          ((device ((oneGroup gid hnd hlt (ahead l k p)).program nonce) α W).fire x t) ∧
        ∀ u ∈ s₁.done, u ∈ t :: x.done := by
    rintro x ⟨hx, hsub⟩ hnot
    have hen : ∃ t,
        Enabled (device ((oneGroup gid hnd hlt (ahead l k p)).program nonce) α W) x t := by
      refine exists_enabled_of_await hnot fun r i q tok he hfresh hsmall => ?_
      obtain ⟨-, -, y, hy, -⟩ := onEdge_oneGroup_iff.mp he
      obtain ⟨-, hi | ⟨rfl, rfl⟩⟩ := getElem?_ahead.mp hy
      · exact absurd (hsub _ (hfinished₁ _ (hlow hi he).isTask_await)) hfresh
      · exact ahead_guard hk hk' hstale hm hx
          (fun r n q tok hn he => hsub _ (hfinished₁ _ (hlow hn he).isTask_publish)) he
          (hsmall _ he.isTask_bump (Prod.Lex.right _ Nat.two_pos)) hfresh
    obtain ⟨t, hen⟩ := hen
    exact ⟨t, hen, hx.fire hen, fun u hu => List.mem_cons_of_mem t (hsub u hu)⟩
  obtain ⟨s, ⟨hs, -⟩, hfinished⟩ := exists_finished_of (finite_tasks program_oneGroup_eq_nil) hstep
    ⟨reachable_mono (program_oneGroup_mono take_prefix_ahead) hs₁, fun t ht => ht⟩
  refine ⟨s, reachable_mono (program_oneGroup_mono fun r => List.take_prefix _ l) hs,
    fun q hq => hfinished _ ?_, fun q hne tok hd => ?_⟩
  · exact (onEdge_oneGroup_iff.mpr ⟨hp, hq, e', getElem?_ahead.mpr ⟨hk', by omega⟩,
      rfl⟩).isTask_await
  · have he : OnEdge ((oneGroup gid hnd hlt (ahead l k p)).program nonce) q p (k + 2) tok :=
      (IsTask.eq_publishTask (hs.task_of_mem hd) rfl).1
    obtain ⟨-, -, x, hx, -⟩ := onEdge_oneGroup_iff.mp he
    obtain ⟨-, hcases⟩ := getElem?_ahead.mp hx
    omega

end Runs

/-! ## The benchmark -/

section Benchmark

variable (g : CudaGraph)

/-- The barriers that the ranks of a benchmark execute.  Call `k` of a group takes its epoch `k`. -/
def benchmark : Schedule W := oneGroup gid hnd hlt fun _ => (List.range g.executions).map g.call

variable {gid hnd hlt g} {nonce : ℤ} {α : Type} {m₀ : Memory α}

theorem getElem?_executions {i : ℕ} {e : ℕ} :
    ((List.range g.executions).map g.call)[i]? = some e ↔ i < g.executions ∧ g.call i = e := by
  rw [List.getElem?_map, Option.map_eq_some_iff]
  simp only [List.getElem?_eq_some_iff, List.length_range, List.getElem_range]
  constructor
  · rintro ⟨_, ⟨hi, rfl⟩, heq⟩
    exact ⟨hi, heq⟩
  · rintro ⟨hi, heq⟩
    exact ⟨i, ⟨hi, rfl⟩, heq⟩

/-- Two executions have one token only if they are of one call. -/
theorem call_eq_of_token_eq (hm : 0 < g.batchIters)
    (htok : ((List.range g.calls).map (computeToken nonce gid)).Nodup) {i j e e' : ℕ}
    (hi : ((List.range g.executions).map g.call)[i]? = some e)
    (hj : ((List.range g.executions).map g.call)[j]? = some e')
    (h : computeToken nonce gid e = computeToken nonce gid e') : g.call i = g.call j := by
  obtain ⟨hlt, rfl⟩ := getElem?_executions.mp hi
  obtain ⟨hlt', rfl⟩ := getElem?_executions.mp hj
  exact List.inj_on_of_nodup_map htok (List.mem_range.mpr (CudaGraph.call_lt hm hlt))
    (List.mem_range.mpr (CudaGraph.call_lt hm hlt')) h

/-- **Replayed barriers synchronise exactly if the graph has three of them**: a rank that has
ended a barrier has what every member published for this execution of it, in every state that is
reached.  Then everything can also come to its end. -/
theorem captured_barriers_synchronise_iff (hranks : 2 ≤ ranks.length) (hm : 0 < g.batchIters)
    (hthree : 3 ≤ g.batchIters * g.replays)
    (htok : ((List.range g.calls).map (computeToken nonce gid)).Nodup) (hm₀ : m₀.Fresh) :
    ((∀ s, Reachable (device ((benchmark gid hnd hlt g).program nonce) α W) m₀ s →
        ∀ p i x, ((benchmark gid hnd hlt g).seqs p)[i]? = some x →
          (∀ q ∈ ranks, awaitTask p i q (x.token nonce) ∈ s.done) →
            ∀ q ∈ ranks, publishTask q i p (x.token nonce) ∈ s.done) ↔ 3 ≤ g.batchIters) ∧
    (3 ≤ g.batchIters → ∀ s, Reachable (device ((benchmark gid hnd hlt g).program nonce) α W) m₀ s →
      ∃ s', Reachable (device ((benchmark gid hnd hlt g).program nonce) α W) m₀ s' ∧
        Finished (device ((benchmark gid hnd hlt g).program nonce) α W) s' ∧
          ∀ t ∈ s.done, t ∈ s'.done) := by
  have hapart : 3 ≤ g.batchIters → ∀ (n : ℕ) e e',
      ((List.range g.executions).map g.call)[n]? = some e →
      ((List.range g.executions).map g.call)[n + 2]? = some e' →
        computeToken nonce gid e ≠ computeToken nonce gid e' := by
    intro hthree n e e' hn hn' heq
    have hcall := call_eq_of_token_eq hm htok hn hn' heq
    have hle := (CudaGraph.replayed_of_call_eq hm Nat.two_pos hcall.symm).1
    omega
  refine ⟨⟨fun h => ?_, fun hbatch s hs p i x hx hd q hq => ?_⟩, fun hbatch s hs =>
    exists_finished_oneGroup (hapart hbatch) hm₀ hs⟩
  · by_contra hlt'
    -- the third barrier of the graph has the token of the first
    obtain ⟨p, q, hp, hq, hpq⟩ : ∃ p q, p ∈ ranks ∧ q ∈ ranks ∧ q ≠ p := by
      match ranks, hnd, hranks with
      | p :: q :: _, hnd, _ =>
        exact ⟨p, q, by simp, by simp, fun heq => by simp [heq] at hnd⟩
    have hlast : g.warmup + 2 < g.executions := by
      unfold CudaGraph.executions
      omega
    have hbefore : ∀ (n : ℕ) e e',
        (((List.range g.executions).map g.call).take (g.warmup + 2))[n]? = some e →
        (((List.range g.executions).map g.call).take (g.warmup + 2))[n + 2]? = some e' →
          computeToken nonce gid e ≠ computeToken nonce gid e' := by
      intro n e e' hn hn' heq
      have hlen := (List.getElem?_eq_some_iff.mp hn').1
      rw [List.length_take] at hlen
      rw [List.getElem?_take_of_lt (by omega)] at hn hn'
      -- what is before that is executed for the first time
      have hcall := call_eq_of_token_eq hm htok hn hn' heq
      have hle := (CudaGraph.replayed_of_call_eq hm Nat.two_pos hcall.symm).2.1
      omega
    have hstale : computeToken nonce gid (g.call g.warmup) =
        computeToken nonce gid (g.call (g.warmup + 2)) := by
      rw [CudaGraph.call_warmup_add_two hm (by omega) hthree]
    obtain ⟨s, hs, hawait, hnot⟩ : ∃ s : State Task (Memory α),
        Reachable (device ((benchmark gid hnd hlt g).program nonce) α W) m₀ s ∧ _ :=
      exists_ahead (getElem?_executions.mpr ⟨by omega, rfl⟩) (getElem?_executions.mpr ⟨hlast, rfl⟩)
        hstale hbefore hm₀ hp
    have hx : ((benchmark gid hnd hlt g).seqs p)[g.warmup + 2]? =
        some ⟨gid, ranks, g.call (g.warmup + 2)⟩ := by
      rw [benchmark, seqs_oneGroup_of_mem hp, List.getElem?_map,
        getElem?_executions.mpr ⟨hlast, rfl⟩]
      rfl
    exact hnot q hpq _ (h s hs p _ _ hx hawait q hq)
  · have hp : p ∈ ranks := by
      by_contra hp
      rw [benchmark, seqs_oneGroup_of_not_mem hp] at hx
      cases hx
    have he : ∀ {r r'}, r ∈ ranks → r' ∈ ranks →
        OnEdge ((benchmark gid hnd hlt g).program nonce) r r' i (x.token nonce) := by
      intro r r' hr hr'
      rw [benchmark, seqs_oneGroup_of_mem hp, List.getElem?_map] at hx
      obtain ⟨e, he, rfl⟩ := Option.map_eq_some_iff.mp hx
      exact onEdge_oneGroup_iff.mpr ⟨hr, hr', e, he, rfl⟩
    refine publish_mem_of_await wellFormed (edgesAgree_oneGroup (hapart hbatch)) hm₀ hs (he hp hq)
      (hd q hq) (he hq hp) ?_
    rw [OneGroup.edgePos_eq (he hp hq), OneGroup.edgePos_eq (he hq hp)]

theorem pair_nodup : [0, 1].Nodup := by decide

theorem pair_lt : ∀ q ∈ [0, 1], q < 2 := by decide

/-- The benchmark of two ranks. -/
def pairBenchmark (g : CudaGraph) : Schedule 2 := benchmark 7 pair_nodup pair_lt g

/-- The theorem for two replays: with three captured barriers everything comes to its end, with
two of them a barrier is passed early. -/
theorem captured_barriers_synchronise_iff_witness :
    (∃ s, Reachable (device ((pairBenchmark ⟨2, 3, 2, 0⟩).program 1) Cell 2) cellNames s ∧
      Finished (device ((pairBenchmark ⟨2, 3, 2, 0⟩).program 1) Cell 2) s) ∧
    ¬ ∀ s, Reachable (device ((pairBenchmark ⟨2, 2, 2, 0⟩).program 1) Cell 2) cellNames s →
      ∀ p i x, ((pairBenchmark ⟨2, 2, 2, 0⟩).seqs p)[i]? = some x →
        (∀ q ∈ [0, 1], awaitTask p i q (x.token 1) ∈ s.done) →
          ∀ q ∈ [0, 1], publishTask q i p (x.token 1) ∈ s.done := by
  have hfresh : cellNames.Fresh := ⟨fun _ _ => rfl, fun _ _ => rfl⟩
  constructor
  · obtain ⟨s, hs, hfinished, -⟩ := (@captured_barriers_synchronise_iff 2 7 [0, 1] pair_nodup
      pair_lt ⟨2, 3, 2, 0⟩ 1 Cell cellNames (by decide) (by decide) (by decide)
      (by decide +kernel) hfresh).2 (by decide) _ .init
    exact ⟨s, hs, hfinished⟩
  · exact mt (@captured_barriers_synchronise_iff 2 7 [0, 1] pair_nodup pair_lt
      ⟨2, 2, 2, 0⟩ 1 Cell cellNames (by decide) (by decide) (by decide) (by decide +kernel)
      hfresh).1.mp (by decide)

end Benchmark

end Schedule

end GroupFreeCollectives
