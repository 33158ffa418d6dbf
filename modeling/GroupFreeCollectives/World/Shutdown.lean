import GroupFreeCollectives.Runtime.StepGrid
import GroupFreeCollectives.World.Buffer

/-!
# Ranks that shut down early

A rank that shuts down waits for its streams, zeroes its own signal grid, its own step pad
and its own counters, and calls the barrier of the process group.  The other ranks may still
be at work (`withShutdown`).

Nobody but the rank itself reads what it zeroes, and it has read everything that it ever
will.  So a run with shutdowns is followed by a run without: the same tasks fire in the same
order, and all bytes are the same (`exists_alike`).
-/

namespace GroupFreeCollectives

open TaskGraph

/-! ## What shutdown does -/

/-- An element that `shutdown` zeroes on its own rank. -/
inductive GridCell where
  | signal (i : ℕ)
  | stepPad (i : ℕ)
  | edgeSeq (peer : ℕ)
  deriving DecidableEq, Repr

namespace GridCell

/-- `zero_signal_grids` zeroes the signal grid and then the step pad; `edge_seq` is zeroed
last. -/
def kernel : GridCell → ℕ
  | signal _ => 0
  | stepPad _ => 1
  | edgeSeq _ => 2

/-- The element lies in the tensor that is zeroed.  The signal grid has two slots. -/
def InGrid (cfg : Config) (worldSize : ℕ) : GridCell → Prop
  | signal i => i < 2 * worldSize
  | stepPad i => i < stepPadSize cfg worldSize
  | edgeSeq peer => peer < worldSize

/-- `zero_` at one element, on rank `r`. -/
def zero {α : Type} (r : ℕ) (m : Memory α) : GridCell → Memory α
  | signal i => { m with signal := store m.signal r i 0 }
  | stepPad i => { m with stepPad := store m.stepPad r i 0 }
  | edgeSeq peer => { m with edgeSeq := store m.edgeSeq r peer 0 }

end GridCell

/-- What a rank does, with its shutdown. -/
inductive Step where
  /-- a task of what the calls have enqueued -/
  | run (t : Task)
  | zero (rank : ℕ) (c : GridCell)
  /-- the call of the process group's barrier -/
  | reach (rank : ℕ)
  deriving DecidableEq, Repr

/-- The task, if the step is one. -/
def Step.task? : Step → Option Task
  | run t => some t
  | _ => none

section System

variable (cfg : Config) (W : ℕ) (prog : Program) (D : Set ℕ) (current : ℕ → StreamId)

/-- Shutdown waits for the task: `synchronize` on the caller's stream and on the runtime's
two. -/
def Drains (r : ℕ) (t : Task) : Prop :=
  t.rank = r ∧ ∃ it, (prog r)[t.idx]? = some it ∧
    (it.stream = current r ∨ it.stream = .main ∨ it.stream = .copy)

/-- The device, with the shutdown of the ranks in `D`. -/
def withShutdown (α : Type) : System Step (Memory α) where
  task
    | .run t => IsTask prog t
    | .zero r c => r ∈ D ∧ r < W ∧ c.InGrid cfg W
    | .reach r => r ∈ D ∧ r < W
  before
    | .run u, .run t => Before prog u t
    | .run t, .zero r _ => Drains prog current r t
    | .run t, .reach r => Drains prog current r t
    | .zero r c, .zero r' c' => r = r' ∧ c.kernel < c'.kernel
    | _, _ => False
  guard m
    | .run t => t.op.act.guard W t.rank m
    | _ => True
  effect m
    | .run t => t.op.act.effect W t.rank m
    | .zero r c => c.zero r m
    | .reach _ => m

end System

/-! ## Memories that agree on the open ranks -/

/-- The operation uses a grid or a counter of its rank. -/
def Act.UsesGrid : Act → Prop
  | .bump _ | .publish .. | .await .. | .data (.stepPublish ..) | .data (.stepAwait ..) => True
  | .data (.copy ..) | .nop => False

/-- The memories have the same bytes, and the same grids and counters on the ranks that have
zeroed nothing yet. -/
structure Agrees {α : Type} (isOpen : ℕ → Prop) (m m' : Memory α) : Prop where
  byte : m.byte = m'.byte
  slot : m.slot = m'.slot
  signal : ∀ r, isOpen r → m.signal r = m'.signal r
  stepPad : ∀ r, isOpen r → m.stepPad r = m'.stepPad r
  edgeSeq : ∀ r, isOpen r → m.edgeSeq r = m'.edgeSeq r

namespace Agrees

variable {α : Type} {isOpen isOpen' : ℕ → Prop} {m m' : Memory α} {W r : ℕ}

theorem refl : Agrees isOpen m m := ⟨rfl, rfl, fun _ _ => rfl, fun _ _ => rfl, fun _ _ => rfl⟩

theorem mono (h : Agrees isOpen m m') (hsub : ∀ r, isOpen' r → isOpen r) :
    Agrees isOpen' m m' :=
  ⟨h.byte, h.slot, fun r hr => h.signal r (hsub r hr), fun r hr => h.stepPad r (hsub r hr),
    fun r hr => h.edgeSeq r (hsub r hr)⟩

/-- Zeroing changes nothing on the ranks that stay open. -/
theorem zero (h : Agrees isOpen m m') (c : GridCell) (hr : ¬ isOpen r) :
    Agrees isOpen m (c.zero r m') := by
  have hne : ∀ {q}, isOpen q → ∀ (f : ℕ → ℕ → ℕ) b, store f r b 0 q = f q := by
    intro q hq f b
    funext i
    exact store_of_ne f 0 fun heq => hr (heq.1 ▸ hq)
  cases c with
  | signal i => exact { h with signal := fun q hq => (h.signal q hq).trans (hne hq _ i).symm }
  | stepPad i => exact { h with stepPad := fun q hq => (h.stepPad q hq).trans (hne hq _ i).symm }
  | edgeSeq p => exact { h with edgeSeq := fun q hq => (h.edgeSeq q hq).trans (hne hq _ p).symm }

/-- A rank that uses its grids while it is open finds the same. -/
theorem guard_iff (h : Agrees isOpen m m') {a : Act} (hr : a.UsesGrid → isOpen r) :
    a.guard W r m ↔ a.guard W r m' := by
  rcases a with _ | _ | ⟨q, tok⟩ | ⟨_ | _ | ⟨cells, v⟩⟩ | _
  case await => simp only [Act.guard, h.slot, h.signal r (hr trivial)]
  case data.stepAwait => simp only [Act.guard, h.stepPad r (hr trivial)]
  all_goals exact Iff.rfl

/-- What a task does keeps the agreement. -/
theorem effect (h : Agrees isOpen m m') {a : Act} (hr : a.UsesGrid → isOpen r) :
    Agrees isOpen (a.effect W r m) (a.effect W r m') := by
  have hstore : ∀ {f g : ℕ → ℕ → ℕ}, (∀ q, isOpen q → f q = g q) →
      ∀ a b v q, isOpen q → store f a b v q = store g a b v q := by
    intro f g hfg a b v q hq
    funext i
    simp only [store, hfg q hq]
  rcases a with q | ⟨q, tok⟩ | _ | ⟨⟨src, dst⟩ | ⟨q, cell, v⟩ | _⟩ | _
  case bump =>
    have hseq : m.edgeSeq r q = m'.edgeSeq r q := by rw [h.edgeSeq r (hr trivial)]
    refine { h with slot := ?_, edgeSeq := ?_ }
    · simp only [Act.effect, h.slot, hseq]
    · simp only [Act.effect, hseq]
      exact hstore h.edgeSeq r q _
  case publish =>
    refine { h with signal := ?_ }
    simp only [Act.effect, h.slot]
    exact hstore h.signal q _ tok
  case data.copy =>
    refine { h with byte := ?_ }
    simp only [Act.effect, DataAct.effect, h.byte]
  case data.stepPublish => exact { h with stepPad := hstore h.stepPad q cell v }
  all_goals exact h

end Agrees

/-! ## A run without shutdowns -/

variable {cfg : Config} {nonce : ℤ} {W : ℕ} {D : Set ℕ} {current : ℕ → StreamId} {α : Type}
  {m₀ : Memory α} {x : State Step (Memory α)} {s : State Task (Memory α)} {t : Task}
  {r : ℕ} {c : GridCell}

/-- **What uses a grid is on the main stream**, where shutdown waits for it. -/
theorem Jobs.drains_of_usesGrid {J : Jobs cfg nonce W} (ht : IsTask J.program t)
    (h : t.op.act.UsesGrid) : Drains J.program current t.rank t := by
  obtain ⟨p, i, o⟩ := t
  obtain ⟨it, hit, ho⟩ : ∃ it, (J.program p)[i]? = some it ∧ o ∈ it.cmd.ops := ht
  replace h : o.act.UsesGrid := h
  refine ⟨rfl, it, hit, Or.inr (Or.inl ?_)⟩
  obtain ⟨x, hx, hmem⟩ := List.mem_flatMap.mp (List.mem_of_getElem? hit)
  obtain ⟨m, hm⟩ := List.mem_iff_getElem?.mp hmem
  have hpart := J.isPart_of_mem hx
  cases hcmd : it.cmd with
  | barrier row tok =>
    rcases hpart.cases with ⟨-, hplain⟩ | ⟨F, hfused⟩
    · exact (hplain.barrier_main it hmem row tok hcmd).1
    · exact (hfused.barrier_main it hmem row tok hcmd).1
  | kernel ops =>
    rw [hcmd] at ho
    obtain ⟨op, hop, rfl⟩ := List.mem_map.mp ho
    have hhas : HasOp x.items m op := ⟨it, ops, hm, hcmd, hop⟩
    rcases hpart.cases with ⟨-, hplain⟩ | ⟨F, hfused⟩
    · obtain ⟨src, dst, hact⟩ := hplain.act_eq_copy m op hhas
      rw [hact] at h
      exact h.elim
    · obtain ⟨it', hm', hmain, -⟩ := (hfused.between_tokens hhas).2.2
      rwa [Option.some_inj.mp (hm.symm.trans hm')]
  | record e | wait e | waitStream s =>
    rw [hcmd] at ho
    rw [List.mem_singleton.mp ho] at h
    exact h.elim

variable {prog : Program}

/-- A run without shutdowns that has done the same tasks. -/
structure Alike (x : State Step (Memory α)) (s : State Task (Memory α)) : Prop where
  done : s.done = x.done.filterMap Step.task?
  mem : Agrees (fun r => ∀ c, .zero r c ∉ x.done) s.mem x.mem

theorem mem_filterMap_task {l : List Step} : t ∈ l.filterMap Step.task? ↔ .run t ∈ l := by
  rw [List.mem_filterMap]
  constructor
  · rintro ⟨z, hz, hzt⟩
    cases z <;> cases hzt
    exact hz
  · exact fun h => ⟨.run t, h, rfl⟩

theorem Alike.mem_done (h : Alike x s) : t ∈ s.done ↔ .run t ∈ x.done := by
  rw [h.done, mem_filterMap_task]

/-- Grids are zeroed when all tasks that use them have fired. -/
def DrainsGrids (prog : Program) (current : ℕ → StreamId) : Prop :=
  ∀ t, IsTask prog t → t.op.act.UsesGrid → Drains prog current t.rank t

/-- **Nothing is erased that is still to be used.** -/
theorem mem_of_zeroed (hdrains : DrainsGrids prog current)
    (hx : Reachable (withShutdown cfg W prog D current α) m₀ x) (hz : .zero r c ∈ x.done)
    (ht : IsTask prog t) (hr : t.rank = r) (h : t.op.act.UsesGrid) : .run t ∈ x.done := by
  have hbefore : (withShutdown cfg W prog D current α).before (.run t) (.zero r c) :=
    hr ▸ hdrains t ht h
  have htask : (withShutdown cfg W prog D current α).task (.run t) := ht
  exact hx.before_mem hz htask hbefore

/-- A task that uses a grid and has not fired finds its rank open. -/
theorem open_of_not_mem (hdrains : DrainsGrids prog current)
    (hx : Reachable (withShutdown cfg W prog D current α) m₀ x) (ht : IsTask prog t)
    (hfresh : .run t ∉ x.done) (h : t.op.act.UsesGrid) : ∀ c, .zero t.rank c ∉ x.done :=
  fun _ hz => hfresh (mem_of_zeroed hdrains hx hz ht rfl h)

/-- What can fire with shutdowns can fire without, and the other way. -/
theorem Alike.enabled_iff (hdrains : DrainsGrids prog current)
    (hx : Reachable (withShutdown cfg W prog D current α) m₀ x) (h : Alike x s) :
    Enabled (device prog α W) s t ↔
      Enabled (withShutdown cfg W prog D current α) x (.run t) := by
  constructor
  · intro he
    have hfresh : .run t ∉ x.done := fun hmem => he.fresh (h.mem_done.mpr hmem)
    refine ⟨he.task, hfresh, fun z hz hzt => ?_, ?_⟩
    · cases z with
      | run u => exact h.mem_done.mp (he.ready u hz hzt)
      | zero r c => exact hzt.elim
      | reach r => exact hzt.elim
    · exact (h.mem.guard_iff fun ha => open_of_not_mem hdrains hx he.task hfresh ha).mp he.guard
  · intro he
    refine ⟨he.task, fun hmem => he.fresh (h.mem_done.mp hmem), fun u hu hut => ?_, ?_⟩
    · exact h.mem_done.mpr (he.ready (.run u) hu hut)
    · exact (h.mem.guard_iff fun ha => open_of_not_mem hdrains hx he.task he.fresh ha).mpr he.guard

/-- **A run with shutdowns is followed by a run without**: the same tasks fire in the same
order, and all bytes are the same. -/
theorem exists_alike (hdrains : DrainsGrids prog current)
    (hx : Reachable (withShutdown cfg W prog D current α) m₀ x) :
    ∃ s, Reachable (device prog α W) m₀ s ∧ Alike x s := by
  refine hx.exists_follower (R := Alike) ⟨rfl, .refl⟩ fun x z s hx he hs h => ?_
  cases z with
  | run t =>
    have hen := (h.enabled_iff hdrains hx).mpr he
    refine Or.inr ⟨t, hen, ?_, ?_⟩
    · rw [fire_done, fire_done, h.done]
      rfl
    · have hmem := h.mem.effect (W := W) (r := t.rank)
        fun ha => open_of_not_mem hdrains hx he.task he.fresh ha
      exact hmem.mono fun r hr c hc => hr c (List.mem_cons_of_mem _ hc)
  | zero r c =>
    refine Or.inl ⟨h.done, ?_⟩
    have hopen : ∀ q, (∀ c', Step.zero q c' ∉ Step.zero r c :: x.done) →
        ∀ c', Step.zero q c' ∉ x.done := fun q hq c' hc' => hq c' (List.mem_cons_of_mem _ hc')
    exact (h.mem.mono hopen).zero c fun hr => hr c List.mem_cons_self
  | reach r =>
    refine Or.inl ⟨h.done, h.mem.mono fun q hq c hc => ?_⟩
    exact hq c (List.mem_cons_of_mem _ hc)

/-- A run without shutdowns is one with shutdowns that have not begun. -/
theorem reachable_withShutdown (hs : Reachable (device prog α W) m₀ s) :
    Reachable (withShutdown cfg W prog D current α) m₀ ⟨s.done.map .run, s.mem⟩ := by
  induction hs with
  | init => exact .init
  | @fire s t hs he ih =>
    have hmem : ∀ u, .run u ∈ s.done.map Step.run ↔ u ∈ s.done := fun u =>
      List.mem_map_of_injective fun _ _ h => Step.run.inj h
    refine ih.fire ⟨he.task, fun h => he.fresh ((hmem t).mp h), fun z hz hzt => ?_, he.guard⟩
    cases z with
    | run u => exact (hmem u).mpr (he.ready u hz hzt)
    | zero r c => exact hzt.elim
    | reach r => exact hzt.elim

theorem alike_map (s : State Task (Memory α)) : Alike ⟨s.done.map .run, s.mem⟩ s where
  done := by simp [Step.task?, Function.comp_def]
  mem := .refl

/-! ## Progress -/

/-- Shutdown stands behind the tasks, and its kernels in order. -/
def Step.stage : Step → ℕ
  | run _ => 0
  | zero _ c => c.kernel
  | reach _ => 0

/-- **Shutdowns stop no run**: if something can be done without them, or nothing is left but
them, then something can be done. -/
theorem exists_step_of_alike (hdrains : DrainsGrids prog current)
    (hx : Reachable (withShutdown cfg W prog D current α) m₀ x) (h : Alike x s)
    (hstep : ¬ Finished (device prog α W) s → ∃ t, Enabled (device prog α W) s t)
    (hnot : ¬ Finished (withShutdown cfg W prog D current α) x) :
    ∃ z, Enabled (withShutdown cfg W prog D current α) x z := by
  by_cases hfinished : Finished (device prog α W) s
  · have hex : ∃ z, (withShutdown cfg W prog D current α).task z ∧ z ∉ x.done := by
      simpa [Finished] using hnot
    -- of the steps that are left, one of the first kernel
    obtain ⟨z, ⟨htask, hfresh⟩, hmin⟩ := (measure Step.stage).wf.has_min
      {z | (withShutdown cfg W prog D current α).task z ∧ z ∉ x.done} hex
    have hrun : ∀ t, (withShutdown cfg W prog D current α).task (.run t) → .run t ∈ x.done :=
      fun t ht => h.mem_done.mp (hfinished t ht)
    refine ⟨z, htask, hfresh, fun y hy hyz => ?_, ?_⟩
    · cases y with
      | run t => exact hrun t hy
      | zero r c =>
        cases z with
        | zero r' c' =>
          by_contra hny
          exact hmin _ ⟨hy, hny⟩ hyz.2
        | run t => exact hyz.elim
        | reach r' => exact hyz.elim
      | reach r => cases z <;> exact hyz.elim
    · cases z with
      | run t => exact absurd (hrun t htask) hfresh
      | zero r c => trivial
      | reach r => trivial
  · obtain ⟨t, he⟩ := hstep hfinished
    exact ⟨.run t, (h.enabled_iff hdrains hx).mp he⟩

/-- A rank has finitely many elements to zero. -/
theorem finite_inGrid : {c : GridCell | c.InGrid cfg W}.Finite := by
  have hfin : (GridCell.signal '' Set.Iio (2 * W) ∪
      GridCell.stepPad '' Set.Iio (stepPadSize cfg W) ∪ GridCell.edgeSeq '' Set.Iio W).Finite :=
    (((Set.finite_Iio _).image _).union ((Set.finite_Iio _).image _)).union
      ((Set.finite_Iio _).image _)
  refine hfin.subset fun c hc => ?_
  cases c with
  | signal i => exact Or.inl (Or.inl ⟨i, hc, rfl⟩)
  | stepPad i => exact Or.inl (Or.inr ⟨i, hc, rfl⟩)
  | edgeSeq p => exact Or.inr ⟨p, hc, rfl⟩

theorem finite_steps (hn : ∀ r, W ≤ r → prog r = []) :
    {z | (withShutdown cfg W prog D current α).task z}.Finite := by
  have hfin : (Step.run '' {t | (device prog α W).task t} ∪
      Set.image2 Step.zero (Set.Iio W) {c | c.InGrid cfg W} ∪ Step.reach '' Set.Iio W).Finite :=
    (((finite_tasks hn).image _).union ((Set.finite_Iio W).image2 _ finite_inGrid)).union
      ((Set.finite_Iio W).image _)
  refine hfin.subset fun z hz => ?_
  cases z with
  | run t => exact Or.inl (Or.inl ⟨t, hz, rfl⟩)
  | zero r c => exact Or.inl (Or.inr ⟨r, hz.2.1, c, hz.2.2, rfl⟩)
  | reach r => exact Or.inr ⟨r, hz.2, rfl⟩

/-! ## The sessions of a world -/

namespace Sessions

variable {S : Sessions cfg nonce W} {L : List Request}

theorem drainsGrids (S : Sessions cfg nonce W) (current : ℕ → StreamId) :
    DrainsGrids S.program current := by
  intro t ht h
  rw [S.program_eq] at ht ⊢
  exact Jobs.drains_of_usesGrid ht h

/-- What holds of a run in which ranks shut down early. -/
structure Undisturbed (S : Sessions cfg nonce W) (D : Set ℕ) (current : ℕ → StreamId)
    (m₀ : Memory α) (x : State Step (Memory α)) : Prop where
  /-- a run without shutdowns has done the same tasks in the same order, and its buffers and
  outputs are the same -/
  alike : ∃ s, Reachable (device S.program α W) m₀ s ∧ s.done = x.done.filterMap Step.task? ∧
    s.mem.byte = x.mem.byte
  /-- what a rank has erased, it does not use any more -/
  consumed : ∀ r c t, .zero r c ∈ x.done → IsTask S.program t → t.rank = r →
    t.op.act.UsesGrid → .run t ∈ x.done
  /-- the run is not stuck before all ranks are at the barrier of the process group -/
  not_stuck : ¬ Finished (withShutdown cfg W S.program D current α) x →
    ∃ z, Enabled (withShutdown cfg W S.program D current α) x z
  /-- all that is left completes -/
  completes : ∃ x', Reachable (withShutdown cfg W S.program D current α) m₀ x' ∧
    Finished (withShutdown cfg W S.program D current α) x' ∧ ∀ z ∈ x.done, z ∈ x'.done

theorem exists_step (hL : S.toJobs.Follows L) (htok : S.toJobs.TokensDistinct)
    (hm : m₀.Zeroed) (hx : Reachable (withShutdown cfg W S.program D current α) m₀ x)
    (hnot : ¬ Finished (withShutdown cfg W S.program D current α) x) :
    ∃ z, Enabled (withShutdown cfg W S.program D current α) x z := by
  obtain ⟨s, hs, h⟩ := exists_alike (S.drainsGrids current) hx
  exact exists_step_of_alike (S.drainsGrids current) hx h (exists_enabled hL htok hm hs) hnot

/-- **A rank that shuts down early does not disturb the others**, in a globally ordered schedule
whose tokens do not repeat. -/
theorem early_shutdown_disturbs_nothing (hL : S.toJobs.Follows L)
    (htok : S.toJobs.TokensDistinct) (hm : m₀.Zeroed)
    (hx : Reachable (withShutdown cfg W S.program D current α) m₀ x) :
    S.Undisturbed D current m₀ x where
  alike := by
    obtain ⟨s, hs, h⟩ := exists_alike (S.drainsGrids current) hx
    exact ⟨s, hs, h.done, h.mem.byte⟩
  consumed _ _ _ hz ht hr hact := mem_of_zeroed (S.drainsGrids current) hx hz ht hr hact
  not_stuck := exists_step hL htok hm hx
  completes := hx.exists_finished (finite_steps fun _ hp => program_eq_nil hp)
    fun _ hx hnot => exists_step hL htok hm hx hnot

/-- The theorem for two ranks of which one shuts down, when both have finished. -/
theorem early_shutdown_disturbs_nothing_witness : ∃ x : State Step (Memory Cell),
    Reachable (withShutdown .default 2 pairSessions.program {0} (fun _ => .user 0) Cell)
      cellNames x ∧
    Finished (withShutdown .default 2 pairSessions.program {0} (fun _ => .user 0) Cell) x ∧
    pairSessions.Undisturbed {0} (fun _ => .user 0) cellNames x := by
  obtain ⟨x, hx, hfinished, -⟩ := (early_shutdown_disturbs_nothing pairSessions_follows
    pairSessions_tokensDistinct cellNames_zeroed .init).completes
  exact ⟨x, hx, hfinished, early_shutdown_disturbs_nothing pairSessions_follows
    pairSessions_tokensDistinct cellNames_zeroed hx⟩

/-- **Collectives deliver the inputs of their members** also when ranks shut down early. -/
theorem deliversInputs_of_shutdown (htok : S.toJobs.TokensDistinct)
    (hsteps : (S.toJobs.world htok).StepsFresh) (hm : m₀.Zeroed)
    (hx : Reachable (withShutdown cfg W S.program D current α) m₀ x) :
    S.DeliversInputs m₀ ⟨x.done.filterMap Step.task?, x.mem⟩ := by
  obtain ⟨⟨done, mem⟩, hs, h⟩ := exists_alike (S.drainsGrids current) hx
  obtain rfl : done = x.done.filterMap Step.task? := h.done
  have hdelivers := deliversInputs htok hsteps hm hs
  intro p n i q b cur a path hj hdone hq hb
  obtain ⟨k, j', hmeets, hval⟩ := hdelivers p n i q b cur a path hj hdone hq hb
  refine ⟨k, j', hmeets, ?_⟩
  rw [← hval]
  exact (congrFun h.mem.byte _).symm

end Sessions

/-! ## Tokens that repeat -/

section Folded

/-- The ids of four groups of two ranks.  `stable_hash64` folds the last two to the first two. -/
def foldedIds : List ℤ := [0, 1, 2 ^ 64, 2 ^ 64 + 1]

/-- A rank registers the groups, and issues a barrier in each and another in the first. -/
def foldedCalls (p : ℕ) : List Runtime.Call :=
  foldedIds.map (fun gid => .register [0, 1] (some gid) []) ++
    (foldedIds ++ [0]).mapIdx fun k gid =>
      .collective k (.user 0) (.make p (k % 4) gid Runtime.pairRanks) .barrier

theorem foldedChecked : PairChecked (foldedCalls 0) (foldedCalls 1) := by
  constructor <;> decide +kernel

def foldedSessions : Sessions Config.default 1 2 := foldedChecked.sessions

/-- The tokens of the five barriers: the third is the first again, and the fourth the second. -/
def foldedTokens : List ℕ :=
  foldedIds.map (fun gid => computeToken 1 gid 0) ++ [computeToken 1 0 1]

def foldedProgram (p : ℕ) : List Item :=
  if p < 2 then foldedTokens.mapIdx fun k tok => ⟨k, .main, .barrier [0, 1] tok⟩ else []

theorem program_foldedSessions : foldedSessions.program = foldedProgram := by
  have hall : ∀ p < 2, foldedSessions.program p = foldedProgram p := by decide +kernel
  funext p
  by_cases hp : p < 2
  · exact hall p hp
  · rw [foldedSessions.program_eq_nil (Nat.le_of_not_lt hp), foldedProgram, if_neg hp]

/-- What a rank does in a barrier before it waits for its peer. -/
def foldedArrive (p i : ℕ) : List Task :=
  let tok := foldedTokens.getD i 0
  [bumpTask p i 0, publishTask p i 0 tok, bumpTask p i 1, publishTask p i 1 tok,
    awaitTask p i p tok]

/-- The rank waits for its peer. -/
def foldedLeave (p i : ℕ) : Task := awaitTask p i (1 - p) (foldedTokens.getD i 0)

/-- Both ranks do two barriers.  Then rank 0 takes the stale tokens of the first two for those of
the next two, and overwrites its third token before rank 1 has read it. -/
def foldedRun : List Task :=
  [0, 1].flatMap (fun i =>
      foldedArrive 0 i ++ foldedArrive 1 i ++ [foldedLeave 0 i, foldedLeave 1 i]) ++
    [2, 3].flatMap (fun i => foldedArrive 0 i ++ [foldedLeave 0 i]) ++
    foldedArrive 0 4 ++ foldedArrive 1 2

/-- No task of the two ranks can fire. -/
def foldedIdle (s : State Task (Memory Cell)) : Bool :=
  decide (∀ p : ℕ, p < 2 → ∀ t ∈ rankTasks foldedProgram p,
    ¬ Enabled (device foldedProgram Cell 2) s t)

theorem foldedRun_idle :
    (execute foldedProgram 2 ⟨[], cellNames⟩ foldedRun).any foldedIdle := by
  decide +kernel

/-- Each rank waits for the other: rank 0 in the last barrier, and rank 1 in the third. -/
theorem foldedRun_waits : ∀ p < 2, foldedLeave p (4 - 2 * p) ∈ rankTasks foldedProgram p ∧
    foldedLeave p (4 - 2 * p) ∉ foldedRun := by
  decide +kernel

/-- **A schedule whose tokens repeat can get stuck**, although it is ordered globally. -/
theorem repeated_tokens_disturb_a_schedule :
    ¬ ∀ (S : Sessions Config.default 1 2) (L : List Request) (D : Set ℕ)
      (current : ℕ → StreamId) (m₀ : Memory Cell) (x : State Step (Memory Cell)),
      S.toJobs.Follows L → m₀.Zeroed →
      Reachable (withShutdown .default 2 S.program D current Cell) m₀ x →
      S.Undisturbed D current m₀ x := by
  intro h
  obtain ⟨s, hexec, hidle⟩ := (Option.any_eq_true _ _).mp foldedRun_idle
  have hs : Reachable (device foldedSessions.program Cell 2) cellNames s := by
    rw [program_foldedSessions]
    exact reachable_of_execute .init hexec
  have hdone : ∀ t, .run t ∈ s.done.map Step.run ↔ t ∈ foldedRun := by
    intro t
    rw [List.mem_map_of_injective fun _ _ h => Step.run.inj h, done_of_execute hexec]
    simp
  -- the waits of the two ranks are on their main streams
  have hwaits : ∀ p < 2, IsTask foldedSessions.program (foldedLeave p (4 - 2 * p)) ∧
      .run (foldedLeave p (4 - 2 * p)) ∉ s.done.map Step.run := by
    intro p hp
    rw [program_foldedSessions, hdone]
    exact ⟨((mem_rankTasks _).mp (foldedRun_waits p hp).1).2, (foldedRun_waits p hp).2⟩
  have hdrains : ∀ p < 2, Drains foldedSessions.program (fun _ => .user 0) p
      (foldedLeave p (4 - 2 * p)) := fun p hp =>
    foldedSessions.drainsGrids (fun _ => .user 0) _ (hwaits p hp).1 trivial
  obtain ⟨z, hz⟩ := (h foldedSessions _ Set.univ (fun _ => .user 0) cellNames _
    foldedChecked.follows cellNames_zeroed (reachable_withShutdown hs)).not_stuck fun hfinished =>
      (hwaits 0 Nat.two_pos).2 (hfinished _ (hwaits 0 Nat.two_pos).1)
  cases z with
  | run t =>
    have hen := ((alike_map s).enabled_iff (foldedSessions.drainsGrids _)
      (reachable_withShutdown hs)).mpr hz
    rw [program_foldedSessions] at hen
    have hnil : ∀ p, 2 ≤ p → foldedProgram p = [] := fun p hp => if_neg (Nat.not_lt.mpr hp)
    exact not_enabled_of_all hnil (of_decide_eq_true hidle) t hen
  | zero r c => exact (hwaits r hz.task.2.1).2 (hz.ready (.run _) (hwaits r hz.task.2.1).1
      (hdrains r hz.task.2.1))
  | reach r => exact (hwaits r hz.task.2).2 (hz.ready (.run _) (hwaits r hz.task.2).1
      (hdrains r hz.task.2))

end Folded

end GroupFreeCollectives
