import GroupFreeCollectives.Device

/-!
# Executing a program

The tasks of a rank are finitely many, so whether a task is enabled can be computed
(`enabled_iff`), and a list of tasks can be fired one after another, checking each
(`execute`).  What `execute` returns is reachable (`reachable_of_execute`), and a state
in which no task of any rank is enabled is recognised by `not_enabled_of_all`.
-/

namespace GroupFreeCollectives

open TaskGraph

instance (x y : Item) : Decidable (x.precedes y) :=
  haveI : Decidable (∃ e, x.cmd = .record e ∧ y.cmd = .wait e) :=
    match hx : x.cmd, hy : y.cmd with
    | .record e, .wait e' =>
      if h : e = e' then isTrue ⟨e, rfl, by rw [h]⟩
      else isFalse fun ⟨a, ha, hb⟩ => by
        cases ha
        cases hb
        exact h rfl
    | .record _, .barrier _ _ | .record _, .kernel _ | .record _, .record _
    | .record _, .waitStream _ => isFalse fun ⟨_, _, hb⟩ => by cases hb
    | .barrier _ _, _ | .kernel _, _ | .wait _, _ | .waitStream _, _ =>
      isFalse fun ⟨_, ha, _⟩ => by cases ha
  inferInstanceAs (Decidable (_ ∨ _ ∨ _ ∧ _))

variable (prog : Program)

instance (u t : Task) : Decidable (Before prog u t) :=
  haveI : Decidable (∃ x y, (prog u.rank)[u.idx]? = some x ∧ (prog t.rank)[t.idx]? = some y ∧
      x.precedes y) :=
    match hx : (prog u.rank)[u.idx]?, hy : (prog t.rank)[t.idx]? with
    | some x, some y =>
      if h : x.precedes y then isTrue ⟨x, y, rfl, rfl, h⟩
      else isFalse fun ⟨_, _, ha, hb, hc⟩ => by
        cases ha
        cases hb
        exact h hc
    | none, _ => isFalse fun ⟨_, _, ha, _⟩ => by cases ha
    | some _, none => isFalse fun ⟨_, _, _, hb, _⟩ => by cases hb
  inferInstanceAs (Decidable (_ ∧ (_ ∨ _ ∧ _)))

instance {α : Type} (worldSize r : ℕ) (m : Memory α) (a : Act) :
    Decidable (a.guard worldSize r m) := by
  rcases a with _ | _ | _ | ⟨_ | _ | _⟩ | _ <;> unfold Act.guard <;> infer_instance

/-- The tasks of a rank. -/
def rankTasks (r : ℕ) : List Task :=
  (prog r).zipIdx.flatMap fun x => x.1.cmd.ops.map fun o => ⟨r, x.2, o⟩

theorem mem_rankTasks {r : ℕ} {t : Task} :
    t ∈ rankTasks prog r ↔ t.rank = r ∧ IsTask prog t := by
  simp only [rankTasks, List.mem_flatMap, List.mem_map, IsTask]
  constructor
  · rintro ⟨⟨it, i⟩, hmem, o, ho, rfl⟩
    exact ⟨rfl, it, List.mk_mem_zipIdx_iff_getElem?.mp hmem, ho⟩
  · rintro ⟨rfl, it, hit, ho⟩
    exact ⟨(it, t.idx), List.mk_mem_zipIdx_iff_getElem?.mpr hit, t.op, ho, rfl⟩

variable {α : Type} (worldSize : ℕ)

theorem enabled_iff {s : State Task (Memory α)} {t : Task} :
    Enabled (device prog α worldSize) s t ↔
      t ∈ rankTasks prog t.rank ∧ t ∉ s.done ∧
        (∀ u ∈ rankTasks prog t.rank, Before prog u t → u ∈ s.done) ∧
        t.op.act.guard worldSize t.rank s.mem := by
  constructor
  · rintro ⟨h1, h2, h3, h4⟩
    refine ⟨(mem_rankTasks prog).mpr ⟨rfl, h1⟩, h2, fun u hu hut => ?_, h4⟩
    exact h3 u ((mem_rankTasks prog).mp hu).2 hut
  · rintro ⟨h1, h2, h3, h4⟩
    refine ⟨((mem_rankTasks prog).mp h1).2, h2, fun u hu hut => ?_, h4⟩
    exact h3 u ((mem_rankTasks prog).mpr ⟨hut.1, hu⟩) hut

instance (s : State Task (Memory α)) (t : Task) :
    Decidable (Enabled (device prog α worldSize) s t) :=
  decidable_of_iff' _ (enabled_iff prog worldSize)

/-- Fire the tasks of a list in order; `none` if one of them is not enabled. -/
def execute (s : State Task (Memory α)) : List Task → Option (State Task (Memory α))
  | [] => some s
  | t :: ts =>
    if Enabled (device prog α worldSize) s t then
      execute ((device prog α worldSize).fire s t) ts
    else none

variable {prog worldSize}

theorem reachable_of_execute {m₀ : Memory α} {ts : List Task} {s s' : State Task (Memory α)}
    (hs : Reachable (device prog α worldSize) m₀ s)
    (h : execute prog worldSize s ts = some s') :
    Reachable (device prog α worldSize) m₀ s' := by
  induction ts generalizing s with
  | nil =>
    cases h
    exact hs
  | cons t ts ih =>
    rw [execute] at h
    split at h
    case isTrue hen => exact ih (hs.fire hen) h
    case isFalse => cases h

/-- What has been executed has fired. -/
theorem done_of_execute {ts : List Task} {s s' : State Task (Memory α)}
    (h : execute prog worldSize s ts = some s') : s'.done = ts.reverse ++ s.done := by
  induction ts generalizing s with
  | nil =>
    cases h
    rfl
  | cons t ts ih =>
    rw [execute] at h
    split at h
    case isTrue hen =>
      rw [ih h, fire_done, List.reverse_cons, List.append_assoc, List.singleton_append]
    case isFalse => cases h

theorem lt_of_isTask {n : ℕ} (hn : ∀ r, n ≤ r → prog r = []) {t : Task} (ht : IsTask prog t) :
    t.rank < n := by
  obtain ⟨it, hit, -⟩ := ht
  by_contra hge
  rw [hn t.rank (by omega)] at hit
  simp at hit

/-- A program of finitely many ranks has finitely many tasks. -/
theorem finite_tasks {n : ℕ} (hn : ∀ r, n ≤ r → prog r = []) :
    {t | (device prog α worldSize).task t}.Finite := by
  refine ((List.range n).flatMap (rankTasks prog)).finite_toSet.subset fun t ht => ?_
  have hmem := (mem_rankTasks prog).mpr ⟨rfl, ht⟩
  exact List.mem_flatMap.mpr ⟨t.rank, List.mem_range.mpr (lt_of_isTask hn ht), hmem⟩

/-- Only the ranks that have enqueued something have tasks, so a state is stuck when
none of theirs is enabled. -/
theorem not_enabled_of_all {s : State Task (Memory α)} {n : ℕ} (hn : ∀ r, n ≤ r → prog r = [])
    (h : ∀ r < n, ∀ t ∈ rankTasks prog r, ¬ Enabled (device prog α worldSize) s t) (t : Task) :
    ¬ Enabled (device prog α worldSize) s t := by
  intro hen
  exact h t.rank (lt_of_isTask hn hen.task) t ((mem_rankTasks prog).mpr ⟨rfl, hen.task⟩) hen

theorem finished_of_all {s : State Task (Memory α)} {n : ℕ} (hn : ∀ r, n ≤ r → prog r = [])
    (h : ∀ r < n, ∀ t ∈ rankTasks prog r, t ∈ s.done) :
    Finished (device prog α worldSize) s := by
  intro t ht
  exact h t.rank (lt_of_isTask hn ht) t ((mem_rankTasks prog).mpr ⟨rfl, ht⟩)

end GroupFreeCollectives
