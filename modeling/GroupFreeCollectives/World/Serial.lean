import GroupFreeCollectives.World.Ordered

/-!
# The calls of a rank take turns

A rank's kernels run on two streams, but those of different calls never overlap: the copy
stream is forked off the main stream and joined again within every call (`Part.forked`,
`Part.joined`), and the main stream takes one call after another.  So what a later call's
kernel does happens after all that the kernels of an earlier call do (`World.earlier_of_lt`),
whatever data paths the two take.
-/

namespace GroupFreeCollectives

open TaskGraph Positions

namespace World

variable {cfg : Config} {nonce : ℤ} {W : ℕ} {w : World cfg nonce W} {α : Type}
  {m₀ : Memory α} {s : State Task (Memory α)} {p n n' m m' : ℕ} {x y : Contribution}
  {op op' : Op DataAct}

/-- **The kernels of a part come before those of a later one.** -/
theorem earlier_of_lt (hx : (w.parts p)[n]? = some x) (hop : HasOp x.items m op)
    (hy : (w.parts p)[n']? = some y) (hop' : HasOp y.items m' op') (hlt : n < n') :
    w.Earlier α (w.task p n m op) (w.task p n' m' op') := by
  -- the main stream behind the first kernel, and in front of the second one
  have hexit : ∃ e, w.MainTask p n e ∧
      (w.task p n m op = e ∨ w.Earlier α (w.task p n m op) e) := by
    rcases (toPart hx).joined m op hop with hmain | ⟨i, hmain, hlead⟩
    · exact ⟨_, mainTask_task hx hop hmain, Or.inl rfl⟩
    · obtain ⟨o, ho⟩ := OnMain.exists_mainTask hx hmain
      exact ⟨_, ho, Or.inr ((leads_program hx hlead).hb (isTask_task hx hop))⟩
  have hentry : ∃ e, w.MainTask p n' e ∧
      (e = w.task p n' m' op' ∨ w.Earlier α e (w.task p n' m' op')) := by
    rcases (toPart hy).forked m' op' hop' with hmain | ⟨i, hmain, hlead⟩
    · exact ⟨_, mainTask_task hy hop' hmain, Or.inl rfl⟩
    · obtain ⟨o, ho⟩ := OnMain.exists_mainTask hy hmain
      exact ⟨_, ho, Or.inr ((leads_program hy hlead).hb ho.task)⟩
  obtain ⟨e, he, hexit⟩ := hexit
  obtain ⟨e', he', hentry⟩ := hentry
  have hmid : w.Earlier α e e' := he.earlier he' hlt
  rcases hexit with rfl | hexit
  · rcases hentry with rfl | hentry
    · exact hmid
    · exact hmid.trans hentry
  · rcases hentry with rfl | hentry
    · exact hexit.trans hmid
    · exact (hexit.trans hmid).trans hentry

/-- When a kernel of a part can run, those of the earlier parts have run. -/
theorem mem_done_of_lt (hm : m₀.Fresh) (hs : Reachable (device w.program α W) m₀ s)
    (hx : (w.parts p)[n]? = some x) (hop : HasOp x.items m op)
    (hy : (w.parts p)[n']? = some y) (hop' : HasOp y.items m' op')
    (hen : Enabled (device w.program α W) s (w.task p n' m' op')) (hlt : n < n') :
    w.task p n m op ∈ s.done :=
  hen.hb_mem (w.synchronized.tokenSound hm) hs (earlier_of_lt hx hop hy hop' hlt)

/-- When a kernel of a part has run, those of the earlier parts have run. -/
theorem mem_done_of_mem_done (hm : m₀.Fresh) (hs : Reachable (device w.program α W) m₀ s)
    (hx : (w.parts p)[n]? = some x) (hop : HasOp x.items m op)
    (hy : (w.parts p)[n']? = some y) (hop' : HasOp y.items m' op')
    (hdone : w.task p n' m' op' ∈ s.done) (hlt : n < n') : w.task p n m op ∈ s.done :=
  hs.hb_mem (w.synchronized.tokenSound hm) (earlier_of_lt hx hop hy hop' hlt) hdone

/-- The task tells its part. -/
theorem eq_of_task_eq (hx : (w.parts p)[n]? = some x) (hop : HasOp x.items m op)
    (hy : (w.parts p)[n']? = some y) (hop' : HasOp y.items m' op')
    (h : w.task p n m op = w.task p n' m' op') : n = n' ∧ m = m' ∧ op = op' := by
  obtain ⟨it, ops, hm, -, -⟩ := hop
  obtain ⟨it', ops', hm', -, -⟩ := hop'
  have hidx : w.start p n + m = w.start p n' + m' := congrArg Task.idx h
  have hlen : m < x.items.length := (List.getElem?_eq_some_iff.mp hm).1
  have hlen' : m' < y.items.length := (List.getElem?_eq_some_iff.mp hm').1
  have hop : op = op' := by
    obtain ⟨thread, phase, act⟩ := op
    obtain ⟨thread', phase', act'⟩ := op'
    cases congrArg Task.op h
    rfl
  rcases Nat.lt_trichotomy n n' with hlt | rfl | hlt
  · exact absurd hidx (Nat.ne_of_lt (partStart_add_lt hx hlen hlt))
  · exact ⟨rfl, Nat.add_left_cancel hidx, hop⟩
  · exact absurd hidx (Nat.ne_of_gt (partStart_add_lt hy hlen' hlt))

end World

/-! ## The sessions of a world -/

/-- The task is an operation of a kernel of call `c` of rank `p`. -/
def IsKernelTask (prog : Program) (p c : ℕ) (t : Task) : Prop :=
  t.rank = p ∧ ∃ it ops, (prog p)[t.idx]? = some it ∧ it.call = c ∧ it.cmd = .kernel ops ∧
    t.op ∈ it.cmd.ops

section Jobs

variable {cfg : Config} {nonce : ℤ} {W : ℕ} {J : Jobs cfg nonce W} {α : Type}
  {m₀ : Memory α} {s : State Task (Memory α)} {p n n' : ℕ} {j j' : Job} {t u : Task}

/-- A kernel operation of a call is one of the call's part. -/
theorem Jobs.exists_hasOp (htok : J.TokensDistinct) (hj : (J.jobs p)[n]? = some j)
    (ht : IsKernelTask J.program p j.call t) : ∃ x m op, (J.parts p)[n]? = some x ∧
      HasOp x.items m op ∧ t = (J.world htok).task p n m op := by
  obtain ⟨r, i, o⟩ := t
  obtain ⟨rfl, it, ops, hit, hcall, hcmd, ho⟩ := ht
  obtain ⟨k, x, m, hx, hm, hi⟩ := World.exists_of_getElem?_program (w := J.world htok) hit
  obtain ⟨j', e, hj', rfl⟩ := exists_job hx
  obtain ⟨e', hx'⟩ := exists_part hj
  -- the item tells the part
  have hcall' : j'.call = j.call := by
    rw [← hcall, j'.tagged_items it (List.mem_of_getElem? hm)]
  have hnodup : ((J.jobs r).map Job.call).Nodup := J.calls_nodup r
  have hk : k = n := by
    refine (List.getElem?_inj ?_ hnodup).mp ?_
    · rw [List.length_map]
      exact (List.getElem?_eq_some_iff.mp hj').1
    · rw [List.getElem?_map, List.getElem?_map, hj', hj, Option.map_some, Option.map_some, hcall']
  subst hk
  rw [hcmd] at ho
  obtain ⟨op, hop, rfl⟩ := List.mem_map.mp ho
  refine ⟨_, m, op, hx, ⟨it, ops, hm, hcmd, hop⟩, ?_⟩
  have hi : i = (J.world htok).start r k + m := hi
  rw [hi]
  rfl

/-- Conversely, an operation of the call's part is one of its kernels. -/
theorem Jobs.isKernelTask_task {htok : J.TokensDistinct} {c : Contribution} {m : ℕ}
    {op : Op DataAct} (hc : (J.parts p)[n]? = some c) (hop : HasOp c.items m op) :
    IsKernelTask J.program p c.call ((J.world htok).task p n m op) := by
  obtain ⟨it, ops, hm, hcmd, hop⟩ := hop
  refine ⟨rfl, it, ops, World.getElem?_program (w := J.world htok) hc hm, ?_, hcmd, ?_⟩
  · obtain ⟨j, e, -, rfl⟩ := exists_job hc
    exact j.tagged_items it (List.mem_of_getElem? hm)
  · rw [hcmd]
    exact List.mem_map_of_mem hop

end Jobs

namespace Sessions

variable {cfg : Config} {nonce : ℤ} {W : ℕ} {S : Sessions cfg nonce W} {α : Type}
  {m₀ : Memory α} {s : State Task (Memory α)} {p n n' : ℕ} {j j' : Job} {t u : Task}

/-- **The calls of a rank take turns**: when anything of a kernel of a call has been done, all
kernels of the rank's earlier calls are done. -/
theorem calls_take_turns (htok : S.toJobs.TokensDistinct) (hm : m₀.Fresh)
    (hs : Reachable (device S.program α W) m₀ s) (hj : (S.toJobs.jobs p)[n]? = some j)
    (hj' : (S.toJobs.jobs p)[n']? = some j') (hlt : n < n')
    (ht : IsKernelTask S.program p j'.call t) (hdone : t ∈ s.done)
    (hu : IsKernelTask S.program p j.call u) : u ∈ s.done := by
  rw [S.program_eq] at hs ht hu
  obtain ⟨x, m, op, hx, hop, rfl⟩ := Jobs.exists_hasOp htok hj hu
  obtain ⟨y, m', op', hy, hop', rfl⟩ := Jobs.exists_hasOp htok hj' ht
  exact World.mem_done_of_mem_done hm hs hx hop hy hop' hdone hlt

end Sessions

/-! ## Two ranks -/

section Pair

/-- The item is a kernel that does something. -/
def Item.hasKernel (it : Item) : Bool :=
  match it.cmd with
  | .kernel (_ :: _) => true
  | _ => false

theorem exists_isKernelTask {prog : Program} {p c : ℕ}
    (h : ∃ it ∈ prog p, it.call = c ∧ it.hasKernel = true) : ∃ t, IsKernelTask prog p c t := by
  obtain ⟨it, hit, hcall, hkernel⟩ := h
  obtain ⟨i, hi⟩ := List.mem_iff_getElem?.mp hit
  unfold Item.hasKernel at hkernel
  split at hkernel
  case h_1 op ops hcmd =>
    refine ⟨⟨p, i, ⟨op.thread, op.phase, .data op.act⟩⟩, rfl, it, _, hi, hcall, hcmd, ?_⟩
    rw [hcmd]
    exact List.mem_map_of_mem List.mem_cons_self
  case h_2 => cases hkernel

/-- The theorem for the gather and the `put` of rank 0, when both ranks have finished. -/
theorem calls_take_turns_witness : ∃ (s : State Task (Memory Cell)) (j j' : Job) (t u : Task),
    j.call = 1 ∧ IsKernelTask pairSessions.program 0 j.call u ∧ u ∈ s.done ∧
      j'.call = 2 ∧ IsKernelTask pairSessions.program 0 j'.call t ∧ t ∈ s.done := by
  obtain ⟨s, hs, hfinished, -⟩ := Sessions.exists_finished pairSessions_follows
    pairSessions_tokensDistinct cellNames_zeroed .init
  have hcalls : ((pairSessions.toJobs.jobs 0).map Job.call) = [0, 1, 2] := by decide +kernel
  have hjob : ∀ {n c : ℕ}, [0, 1, 2][n]? = some c →
      ∃ j, (pairSessions.toJobs.jobs 0)[n]? = some j ∧ j.call = c := by
    intro n c h
    rw [← hcalls, List.getElem?_map] at h
    exact Option.map_eq_some_iff.mp h
  obtain ⟨j, hj, hcall⟩ := hjob (n := 1) rfl
  obtain ⟨j', hj', hcall'⟩ := hjob (n := 2) rfl
  obtain ⟨u, hu⟩ : ∃ u, IsKernelTask pairSessions.program 0 j.call u := by
    rw [hcall]
    exact exists_isKernelTask (by decide +kernel)
  obtain ⟨t, ht⟩ : ∃ t, IsKernelTask pairSessions.program 0 j'.call t := by
    rw [hcall']
    exact exists_isKernelTask (by decide +kernel)
  have hdone : t ∈ s.done := by
    obtain ⟨hrank, it, ops, hit, -, -, ho⟩ := id ht
    exact hfinished t ⟨it, hrank ▸ hit, ho⟩
  exact ⟨s, j, j', t, u, hcall, hu, Sessions.calls_take_turns pairSessions_tokensDistinct
    cellNames_zeroed.toFresh hs hj hj' Nat.one_lt_two ht hdone hu, hcall', ht, hdone⟩

end Pair

end GroupFreeCollectives
