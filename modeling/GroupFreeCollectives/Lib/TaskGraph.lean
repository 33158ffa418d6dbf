import Mathlib.Order.WellFounded
import Mathlib.Data.List.Nodup
import Mathlib.Data.Set.Card
import Mathlib.Logic.Relation
import Mathlib.Tactic.Common

/-!
# Partially ordered tasks over a shared state

A system is a set of atomic tasks with a program order between them.  A task fires
once, after everything before it in program order, when its guard holds of the
shared state, and it changes the state.  Every interleaving that respects program
order and the guards is a run.

Four families of rules follow.

* *Runs.*  What has fired is closed under program order (`Reachable.before_mem`),
  and what fired at some point fired from a reachable state (`Reachable.fired`).
* *Synchronisation.*  When one task's guard can only hold after another task has
  fired, the pair is a synchronisation edge.  Program order and these edges generate
  `HB`, and runs respect it (`Enabled.hb_mem`, `Reachable.hb_mem`).  A reader then
  sees the value of the writer that precedes it, if every other writer is ordered
  with respect to the two (`Reachable.good_writer`).
* *Simulation.*  A run of one system is followed by a run of another, if every firing of
  the first is followed by one of the second or by none (`Reachable.exists_follower`).
* *Progress.*  If program order lies in a well-founded relation, and a guard holds
  as soon as all the smaller tasks have fired, then a run that has not fired
  everything can continue (`exists_enabled`), and with finitely many tasks it can be
  finished (`Reachable.exists_finished`).
-/

namespace TaskGraph

/-- Tasks with a program order, acting on a shared state. -/
structure System (τ σ : Type*) where
  /-- the tasks of the system -/
  task : τ → Prop
  /-- program order: the first task has to fire before the second can -/
  before : τ → τ → Prop
  /-- when a task can fire -/
  guard : σ → τ → Prop
  /-- what firing a task does to the shared state -/
  effect : σ → τ → σ

/-- A point of a run: the tasks fired so far, the latest first, and the shared
state. -/
structure State (τ σ : Type*) where
  done : List τ
  mem : σ

variable {τ σ β : Type*} (S : System τ σ)

/-- A task that can fire now. -/
structure Enabled (s : State τ σ) (t : τ) : Prop where
  task : S.task t
  fresh : t ∉ s.done
  ready : ∀ u, S.task u → S.before u t → u ∈ s.done
  guard : S.guard s.mem t

/-- A task that program order lets run now. -/
structure Ready (s : State τ σ) (t : τ) : Prop where
  task : S.task t
  fresh : t ∉ s.done
  ready : ∀ u, S.task u → S.before u t → u ∈ s.done

/-- The state after a task fires. -/
def System.fire (s : State τ σ) (t : τ) : State τ σ := ⟨t :: s.done, S.effect s.mem t⟩

@[simp] theorem fire_done (s : State τ σ) (t : τ) : (S.fire s t).done = t :: s.done := rfl

@[simp] theorem fire_mem (s : State τ σ) (t : τ) : (S.fire s t).mem = S.effect s.mem t := rfl

/-- The states of the runs from `m₀`. -/
inductive Reachable (m₀ : σ) : State τ σ → Prop
  | init : Reachable m₀ ⟨[], m₀⟩
  | fire {s : State τ σ} {t : τ} : Reachable m₀ s → Enabled S s t → Reachable m₀ (S.fire s t)

/-- All tasks have fired. -/
def Finished (s : State τ σ) : Prop := ∀ t, S.task t → t ∈ s.done

/-- Something is left to do and nothing can fire. -/
def Stuck (s : State τ σ) : Prop := ¬ Finished S s ∧ ∀ t, ¬ Enabled S s t

variable {S} {m₀ : σ} {s : State τ σ} {t u w : τ}

theorem Ready.enabled (h : Ready S s t) (hg : S.guard s.mem t) : Enabled S s t :=
  ⟨h.task, h.fresh, h.ready, hg⟩

theorem ready_of_enabled (h : Enabled S s t) : Ready S s t := ⟨h.task, h.fresh, h.ready⟩

theorem Ready.fire (h : Ready S s t) (hne : t ≠ u) : Ready S (S.fire s u) t where
  task := h.task
  fresh := by simp [hne, h.fresh]
  ready v hv hb := List.mem_cons_of_mem _ (h.ready v hv hb)

/-! ## Runs -/

theorem Reachable.task_of_mem (h : Reachable S m₀ s) (ht : t ∈ s.done) : S.task t := by
  induction h with
  | init => simp at ht
  | fire _ he ih =>
    rcases List.mem_cons.mp ht with rfl | ht
    · exact he.task
    · exact ih ht

/-- What has fired is closed under program order. -/
theorem Reachable.before_mem (h : Reachable S m₀ s) (ht : t ∈ s.done) (hu : S.task u)
    (hut : S.before u t) : u ∈ s.done := by
  induction h with
  | init => simp at ht
  | fire _ he ih =>
    rcases List.mem_cons.mp ht with rfl | ht
    · exact List.mem_cons_of_mem _ (he.ready u hu hut)
    · exact List.mem_cons_of_mem _ (ih ht)

/-- What has fired was enabled in an earlier state of the same run. -/
theorem Reachable.fired (h : Reachable S m₀ s) (ht : t ∈ s.done) :
    ∃ s', Reachable S m₀ s' ∧ Enabled S s' t ∧ ∀ u ∈ s'.done, u ∈ s.done := by
  induction h with
  | init => simp at ht
  | @fire s x hs he ih =>
    rcases List.mem_cons.mp ht with rfl | ht
    · exact ⟨s, hs, he, fun u hu => List.mem_cons_of_mem _ hu⟩
    · obtain ⟨s', hs', he', hsub⟩ := ih ht
      exact ⟨s', hs', he', fun u hu => List.mem_cons_of_mem _ (hsub u hu)⟩

/-- What had fired before a task fired makes a reachable state. -/
theorem Reachable.of_append_cons {l l' : List τ} (h : Reachable S m₀ s)
    (hdone : s.done = l ++ t :: l') :
    ∃ s', Reachable S m₀ s' ∧ s'.done = l' ∧ Enabled S s' t := by
  induction h generalizing l with
  | init => simp at hdone
  | @fire s u hs he ih =>
    cases l with
    | nil =>
      obtain ⟨rfl, rfl⟩ := List.cons.inj hdone
      exact ⟨s, hs, rfl, he⟩
    | cons a l => exact ih (List.cons.inj hdone).2

/-- A property of the shared state that every firing keeps holds throughout. -/
theorem Reachable.invariant {P : State τ σ → Prop} (h : Reachable S m₀ s) (h0 : P ⟨[], m₀⟩)
    (hstep : ∀ s t, Reachable S m₀ s → P s → Enabled S s t → P (S.fire s t)) : P s := by
  induction h with
  | init => exact h0
  | fire hs he ih => exact hstep _ _ hs ih he

/-! ## Simulation -/

/-- **A run follows another**: every firing of `T` is followed by one of `S`, or by none. -/
theorem Reachable.exists_follower {τ' σ' : Type*} {T : System τ' σ'} {n₀ : σ'}
    {R : State τ' σ' → State τ σ → Prop} (h0 : R ⟨[], n₀⟩ ⟨[], m₀⟩)
    (hstep : ∀ x z s, Reachable T n₀ x → Enabled T x z → Reachable S m₀ s → R x s →
      R (T.fire x z) s ∨ ∃ t, Enabled S s t ∧ R (T.fire x z) (S.fire s t))
    {x : State τ' σ'} (hx : Reachable T n₀ x) : ∃ s, Reachable S m₀ s ∧ R x s := by
  induction hx with
  | init => exact ⟨_, .init, h0⟩
  | @fire x z hx he ih =>
    obtain ⟨s, hs, hrel⟩ := ih
    rcases hstep x z s hx he hs hrel with hrel' | ⟨t, het, hrel'⟩
    · exact ⟨s, hs, hrel'⟩
    · exact ⟨_, hs.fire het, hrel'⟩

/-! ## The last writer -/

section LastWriter

variable (get : σ → β) (writes : τ → Prop)

/-- A part of the shared state has its initial value, or the value its last writer
gave it: every other writer that has fired had fired before that one. -/
theorem Reachable.last_writer (hframe : ∀ m t, ¬ writes t → get (S.effect m t) = get m)
    (h : Reachable S m₀ s) :
    (get s.mem = get m₀ ∧ ∀ w ∈ s.done, ¬ writes w) ∨
    ∃ w s', writes w ∧ w ∈ s.done ∧ Reachable S m₀ s' ∧ Enabled S s' w ∧
      get s.mem = get (S.effect s'.mem w) ∧
      (∀ u ∈ s'.done, u ∈ s.done) ∧ ∀ u ∈ s.done, writes u → u = w ∨ u ∈ s'.done := by
  induction h with
  | init => exact Or.inl ⟨rfl, by simp⟩
  | @fire s x hs he ih =>
    by_cases hx : writes x
    · refine Or.inr ⟨x, s, hx, List.mem_cons_self, hs, he, rfl,
        fun u hu => List.mem_cons_of_mem _ hu, fun u hu _ => ?_⟩
      exact List.mem_cons.mp hu
    · have hget : get (S.fire s x).mem = get s.mem := hframe _ _ hx
      rcases ih with ⟨h0, hnone⟩ | ⟨w, s', hw, hmem, hs', he', hval, hsub, hlast⟩
      · refine Or.inl ⟨hget.trans h0, fun w hw => ?_⟩
        rcases List.mem_cons.mp hw with rfl | hw
        · exact hx
        · exact hnone w hw
      · refine Or.inr ⟨w, s', hw, List.mem_cons_of_mem _ hmem, hs', he', hget.trans hval,
          fun u hu => List.mem_cons_of_mem _ (hsub u hu), fun u hu hwu => ?_⟩
        rcases List.mem_cons.mp hu with rfl | hu
        · exact absurd hwu hx
        · exact hlast u hu hwu

end LastWriter

/-! ## Happens-before -/

variable {sync : τ → τ → Prop}

/-- Program order together with synchronisation edges, transitively. -/
inductive HB (S : System τ σ) (sync : τ → τ → Prop) : τ → τ → Prop
  | before {u t : τ} : S.task u → S.before u t → HB S sync u t
  | sync {u t : τ} : sync u t → HB S sync u t
  | trans {u v t : τ} : HB S sync u v → HB S sync v t → HB S sync u t

theorem HB.mono {sync' : τ → τ → Prop} (h : ∀ u t, sync u t → sync' u t) (hut : HB S sync u t) :
    HB S sync' u t := by
  induction hut with
  | before hu hb => exact .before hu hb
  | sync hs => exact .sync (h _ _ hs)
  | trans _ _ ih₁ ih₂ => exact ih₁.trans ih₂

/-- The edges of `sync` are sound: the first task has fired whenever the second
has. -/
structure SyncSound (S : System τ σ) (m₀ : σ) (sync : τ → τ → Prop) : Prop where
  irrefl : ∀ t, ¬ sync t t
  mem : ∀ s, Reachable S m₀ s → ∀ u t, sync u t → t ∈ s.done → u ∈ s.done

theorem Reachable.hb_mem (hsync : SyncSound S m₀ sync) (h : Reachable S m₀ s)
    (hut : HB S sync u t) (ht : t ∈ s.done) : u ∈ s.done := by
  induction hut with
  | before hu hb => exact h.before_mem ht hu hb
  | sync hs => exact hsync.mem s h _ _ hs ht
  | trans _ _ ih₁ ih₂ => exact ih₁ (ih₂ ht)

/-- Everything that happens before an enabled task has fired. -/
theorem Enabled.hb_mem (hsync : SyncSound S m₀ sync) (h : Reachable S m₀ s)
    (he : Enabled S s t) (hut : HB S sync u t) : u ∈ s.done := by
  induction hut with
  | before hu hb => exact he.ready _ hu hb
  | @sync u t hs =>
    have hmem := hsync.mem _ (h.fire he) u t hs List.mem_cons_self
    rcases List.mem_cons.mp hmem with rfl | hmem
    · exact absurd hs (hsync.irrefl u)
    · exact hmem
  | trans hut _ _ ih₂ => exact h.hb_mem hsync hut (ih₂ he)

/-- Everything that happens before a task which is ready has fired, if no synchronisation edge
leads to the task. -/
theorem Ready.hb_mem (hsync : SyncSound S m₀ sync) (h : Reachable S m₀ s) (hr : Ready S s t)
    (hno : ∀ v, ¬ sync v t) (hut : HB S sync u t) : u ∈ s.done := by
  induction hut with
  | before hu hb => exact hr.ready _ hu hb
  | sync hs => exact absurd hs (hno _)
  | trans hut _ _ ih₂ => exact h.hb_mem hsync hut (ih₂ hr hno)

/-- What happens after a task has fired after it. -/
theorem Reachable.mem_of_hb {l l' : List τ} (hsync : SyncSound S m₀ sync) (h : Reachable S m₀ s)
    (hdone : s.done = l ++ u :: l') (hut : HB S sync u t) (ht : t ∈ s.done) : t ∈ l := by
  obtain ⟨s', hs', rfl, he⟩ := h.of_append_cons hdone
  rw [hdone, List.mem_append, List.mem_cons] at ht
  rcases ht with ht | rfl | ht
  · exact ht
  · exact absurd (he.hb_mem hsync hs' hut) he.fresh
  · exact absurd (hs'.hb_mem hsync hut ht) he.fresh

/-- **What a reader sees.**  Let `w₀` be a writer that has fired and `t` a task that
has not.  If every writer is good, happens before `w₀` or happens after `t`, then the
value is the one a good writer gave. -/
theorem Reachable.good_writer (get : σ → β) {writes good : τ → Prop}
    (hsync : SyncSound S m₀ sync)
    (hframe : ∀ m t, ¬ writes t → get (S.effect m t) = get m)
    (h : Reachable S m₀ s) {w₀ : τ} (hw₀ : writes w₀) (hmem₀ : w₀ ∈ s.done) (ht : t ∉ s.done)
    (hord : ∀ w, S.task w → writes w → good w ∨ HB S sync w w₀ ∨ HB S sync t w) :
    ∃ w s', good w ∧ writes w ∧ Reachable S m₀ s' ∧ Enabled S s' w ∧
      get s.mem = get (S.effect s'.mem w) := by
  rcases h.last_writer get writes hframe with ⟨-, hnone⟩ |
    ⟨w, s', hw, hmem, hs', he', hval, -, hlast⟩
  · exact absurd hw₀ (hnone w₀ hmem₀)
  · rcases hord w (h.task_of_mem hmem) hw with hgood | hbefore | hafter
    · exact ⟨w, s', hgood, hw, hs', he', hval⟩
    · -- `w₀` is not later than the last writer, so neither is `w` before itself
      have hmem' : w ∈ s'.done := by
        rcases hlast w₀ hmem₀ hw₀ with rfl | hw₀'
        · exact he'.hb_mem hsync hs' hbefore
        · exact hs'.hb_mem hsync hbefore hw₀'
      exact absurd hmem' he'.fresh
    · exact absurd (h.hb_mem hsync hafter hmem) ht

/-! ## Progress -/

/-- **A run can continue.**  Program order lies in a well-founded relation, and the
guard of a task holds once every smaller task has fired. -/
theorem exists_enabled {r : τ → τ → Prop} (hwf : WellFounded r)
    (hbefore : ∀ u t, S.task u → S.task t → S.before u t → r u t)
    (hguard : ∀ t, S.task t → t ∉ s.done → (∀ u, S.task u → r u t → u ∈ s.done) →
      S.guard s.mem t)
    (hnot : ¬ Finished S s) : ∃ t, Enabled S s t := by
  have hex : ∃ t, S.task t ∧ t ∉ s.done := by
    simpa [Finished] using hnot
  -- the least task that has not fired
  obtain ⟨t, ⟨htask, hfresh⟩, hmin⟩ := hwf.has_min {t | S.task t ∧ t ∉ s.done} hex
  have hsmaller : ∀ u, S.task u → r u t → u ∈ s.done := by
    intro u hu hru
    by_contra hnu
    exact hmin u ⟨hu, hnu⟩ hru
  exact ⟨t, htask, hfresh, fun u hu hut => hsmaller u hu (hbefore u t hu htask hut),
    hguard t htask hfresh hsmaller⟩

/-- What some step keeps from every state is kept to the end of some run, if the tasks are
finitely many. -/
theorem exists_finished_of {P : State τ σ → Prop} (hfin : {t | S.task t}.Finite)
    (hstep : ∀ s, P s → ¬ Finished S s → ∃ t, Enabled S s t ∧ P (S.fire s t)) (h : P s) :
    ∃ s', P s' ∧ Finished S s' := by
  induction hn : {t | S.task t ∧ t ∉ s.done}.ncard using Nat.strong_induction_on
    generalizing s with
  | _ n ih =>
    by_cases hfinished : Finished S s
    · exact ⟨s, h, hfinished⟩
    · obtain ⟨t, he, hP⟩ := hstep s h hfinished
      -- the task that fires is no longer left
      have hlt : {u | S.task u ∧ u ∉ (S.fire s t).done}.ncard < n := by
        rw [← hn]
        refine Set.ncard_lt_ncard ⟨fun u hu => ⟨hu.1, fun hmem => hu.2 ?_⟩, fun hsub => ?_⟩
          (hfin.subset fun u hu => hu.1)
        · exact List.mem_cons_of_mem t hmem
        · exact (hsub ⟨he.task, he.fresh⟩).2 List.mem_cons_self
      exact ih _ hlt hP rfl

/-- **A run can be finished**, if the tasks are finitely many and no run is stuck. -/
theorem Reachable.exists_finished (hfin : {t | S.task t}.Finite)
    (hstep : ∀ s, Reachable S m₀ s → ¬ Finished S s → ∃ t, Enabled S s t)
    (h : Reachable S m₀ s) :
    ∃ s', Reachable S m₀ s' ∧ Finished S s' ∧ ∀ t ∈ s.done, t ∈ s'.done := by
  have hkeep : ∀ x, (Reachable S m₀ x ∧ ∀ t ∈ s.done, t ∈ x.done) → ¬ Finished S x →
      ∃ t, Enabled S x t ∧ Reachable S m₀ (S.fire x t) ∧ ∀ u ∈ s.done, u ∈ (S.fire x t).done := by
    intro x hx hnot
    obtain ⟨t, he⟩ := hstep x hx.1 hnot
    exact ⟨t, he, hx.1.fire he, fun u hu => List.mem_cons_of_mem t (hx.2 u hu)⟩
  obtain ⟨s', ⟨hs', hsub⟩, hfinished⟩ := exists_finished_of hfin hkeep ⟨h, fun t ht => ht⟩
  exact ⟨s', hs', hfinished, hsub⟩

/-- An acyclic relation with finitely many elements below others is well-founded. -/
theorem wellFounded_transGen_of_acyclic {ι : Type*} {r : ι → ι → Prop} {S : Set ι}
    (hfin : S.Finite) (hsrc : ∀ x y, r x y → x ∈ S)
    (hacyc : ∀ x, ¬ Relation.TransGen r x x) : WellFounded (Relation.TransGen r) := by
  have hmem : ∀ x y, Relation.TransGen r x y → x ∈ S := by
    intro x y h
    obtain ⟨z, hxz, -⟩ := Relation.TransGen.head'_iff.mp h
    exact hsrc x z hxz
  have hlt : ∀ x y, Relation.TransGen r x y →
      {z | Relation.TransGen r z x}.ncard < {z | Relation.TransGen r z y}.ncard := by
    intro x y hxy
    refine Set.ncard_lt_ncard ⟨fun z hz => hz.trans hxy, fun hsub => ?_⟩
      (hfin.subset fun z hz => hmem z y hz)
    exact hacyc x (hsub hxy)
  exact Subrelation.wf (hlt _ _) (measure fun x => {z | Relation.TransGen r z x}.ncard).wf

theorem not_stuck_of_exists_enabled (h : ¬ Finished S s → ∃ t, Enabled S s t) :
    ¬ Stuck S s := fun ⟨hnot, hall⟩ =>
  let ⟨t, ht⟩ := h hnot
  hall t ht

end TaskGraph
