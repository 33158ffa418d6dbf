import GroupFreeCollectives.Lib.TaskGraph

/-!
# Systems that differ in the names of their tasks

Two systems have the same tasks under a map `f`, in the same program order (`Renames`).  What can
hold a task up in one of them and not in the other is its guard.  So if the guards of tasks whose
predecessors have fired agree in any two reachable states in which corresponding tasks have
fired, then both systems have the same runs (`Alike.exists_image`, `Alike.exists_preimage`), and
a relation of the states that every pair of firings keeps holds along them.
-/

namespace TaskGraph

variable {τ τ' σ σ' : Type*}

/-- The tasks of `T` are those of `S`, under other names. -/
structure Renames (S : System τ σ) (T : System τ' σ') (f : τ → τ') : Prop where
  task : ∀ t, S.task t → T.task (f t)
  surj : ∀ t', T.task t' → ∃ t, S.task t ∧ f t = t'
  inj : ∀ t u, S.task t → S.task u → f t = f u → t = u
  before : ∀ u t, S.task u → S.task t → (T.before (f u) (f t) ↔ S.before u t)

/-- Besides, what is ready can fire in both or in none, and firing keeps a relation. -/
structure Alike (S : System τ σ) (T : System τ' σ') (f : τ → τ') (m₀ : σ) (n₀ : σ')
    (R : σ → σ' → Prop) : Prop extends Renames S T f where
  init : R m₀ n₀
  guard_iff : ∀ s x t, Reachable S m₀ s → Reachable T n₀ x → x.done = s.done.map f →
    Ready S s t → (S.guard s.mem t ↔ T.guard x.mem (f t))
  effect : ∀ m n t, S.task t → R m n → R (S.effect m t) (T.effect n (f t))

variable {S : System τ σ} {T : System τ' σ'} {f : τ → τ'} {m₀ : σ} {n₀ : σ'} {R : σ → σ' → Prop}
  {s : State τ σ} {x : State τ' σ'} {t : τ}

namespace Renames

variable (h : Renames S T f) (hs : Reachable S m₀ s) (hdone : x.done = s.done.map f)
include h hs hdone

/-- A task has fired if its image has. -/
theorem mem_done_iff (ht : S.task t) : f t ∈ x.done ↔ t ∈ s.done := by
  rw [hdone, List.mem_map]
  constructor
  · rintro ⟨u, hu, heq⟩
    rwa [← h.inj u t (hs.task_of_mem hu) ht heq]
  · exact fun ht => ⟨t, ht, rfl⟩

/-- **The same tasks are ready.** -/
theorem ready_iff (ht : S.task t) : Ready T x (f t) ↔ Ready S s t := by
  constructor
  · intro hready
    refine ⟨ht, fun hmem => hready.fresh ((h.mem_done_iff hs hdone ht).mpr hmem),
      fun u hu hut => ?_⟩
    exact (h.mem_done_iff hs hdone hu).mp
      (hready.ready _ (h.task u hu) ((h.before u t hu ht).mpr hut))
  · intro hready
    refine ⟨h.task t ht, fun hmem => hready.fresh ((h.mem_done_iff hs hdone ht).mp hmem),
      fun u' hu' hut => ?_⟩
    obtain ⟨u, hu, rfl⟩ := h.surj u' hu'
    exact (h.mem_done_iff hs hdone hu).mpr (hready.ready u hu ((h.before u t hu ht).mp hut))

theorem finished_iff : Finished T x ↔ Finished S s := by
  constructor
  · exact fun hfinished t ht => (h.mem_done_iff hs hdone ht).mp (hfinished _ (h.task t ht))
  · intro hfinished t' ht'
    obtain ⟨t, ht, rfl⟩ := h.surj t' ht'
    exact (h.mem_done_iff hs hdone ht).mpr (hfinished t ht)

end Renames

namespace Alike

variable (h : Alike S T f m₀ n₀ R)
include h

theorem enabled_iff (hs : Reachable S m₀ s) (hx : Reachable T n₀ x)
    (hdone : x.done = s.done.map f) (ht : S.task t) : Enabled T x (f t) ↔ Enabled S s t := by
  constructor
  · intro hen
    have hready := (h.ready_iff hs hdone ht).mp (ready_of_enabled hen)
    exact hready.enabled ((h.guard_iff s x t hs hx hdone hready).mpr hen.guard)
  · intro hen
    exact ((h.ready_iff hs hdone ht).mpr (ready_of_enabled hen)).enabled
      ((h.guard_iff s x t hs hx hdone (ready_of_enabled hen)).mp hen.guard)

/-- **Every run of the one system is a run of the other.** -/
theorem exists_image (hs : Reachable S m₀ s) :
    ∃ x, Reachable T n₀ x ∧ x.done = s.done.map f ∧ R s.mem x.mem := by
  induction hs with
  | init => exact ⟨_, .init, rfl, h.init⟩
  | @fire s t hs hen ih =>
    obtain ⟨x, hx, hdone, hrel⟩ := ih
    refine ⟨_, hx.fire ((h.enabled_iff hs hx hdone hen.task).mpr hen), ?_,
      h.effect _ _ t hen.task hrel⟩
    rw [fire_done, fire_done, hdone, List.map_cons]

/-- **And conversely.** -/
theorem exists_preimage (hx : Reachable T n₀ x) :
    ∃ s, Reachable S m₀ s ∧ x.done = s.done.map f ∧ R s.mem x.mem := by
  induction hx with
  | init => exact ⟨_, .init, rfl, h.init⟩
  | @fire x t' hx hen ih =>
    obtain ⟨s, hs, hdone, hrel⟩ := ih
    obtain ⟨t, ht, rfl⟩ := h.surj t' hen.task
    refine ⟨_, hs.fire ((h.enabled_iff hs hx hdone ht).mp hen), ?_, h.effect _ _ t ht hrel⟩
    rw [fire_done, fire_done, hdone, List.map_cons]

end Alike

end TaskGraph
