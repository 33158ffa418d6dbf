import GroupFreeCollectives.Device

/-!
# Programs that leave copies out

A kernel that miscounts its tiles leaves copies out, and nothing else of the program changes
(`keepOps`).  No wait depends on a byte, so the run of the full program is followed by the run
that leaves the copies out (`exists_kept`): nobody notices.
-/

namespace GroupFreeCollectives

open TaskGraph

/-! ## What is kept -/

section Items

variable (keep : Op DataAct → Bool)

/-- The command with the operations of its kernel that are kept. -/
def Cmd.keepOps : Cmd → Cmd
  | .kernel ops => .kernel (ops.filter keep)
  | c => c

def Item.keepOps (it : Item) : Item := { it with cmd := it.cmd.keepOps keep }

/-- The program with the kernel operations that are kept. -/
def keepOps (prog : Program) : Program := fun p => (prog p).map (Item.keepOps keep)

variable {keep} {c : Cmd} {it it' : Item} {o : Op Act}

theorem Cmd.mem_ops_of_keepOps (h : o ∈ (c.keepOps keep).ops) : o ∈ c.ops := by
  cases c with
  | kernel ops =>
    obtain ⟨op, hop, rfl⟩ := List.mem_map.mp h
    exact List.mem_map_of_mem (List.mem_of_mem_filter hop)
  | _ => exact h

/-- What is left of a kernel is kept. -/
theorem Cmd.exists_of_mem_keepOps {d : DataAct} (h : o ∈ (c.keepOps keep).ops)
    (hact : o.act = .data d) : ∃ op, keep op = true ∧ op.act = d := by
  cases c with
  | kernel ops =>
    obtain ⟨op, hop, rfl⟩ := List.mem_map.mp h
    exact ⟨op, (List.mem_filter.mp hop).2, Act.data.inj hact⟩
  | barrier row tok =>
    obtain ⟨q, -, rfl | rfl | rfl⟩ := mem_barrierKernel.mp h <;> cases hact
  | record e | wait e | waitStream s =>
    rw [List.mem_singleton.mp h] at hact
    cases hact

/-- An operation that is not kept is one of a kernel. -/
theorem Cmd.exists_of_not_mem_keepOps (h : o ∈ c.ops) (hnot : o ∉ (c.keepOps keep).ops) :
    ∃ op, keep op = false ∧ o.act = .data op.act := by
  cases c with
  | kernel ops =>
    obtain ⟨op, hop, rfl⟩ := List.mem_map.mp h
    refine ⟨op, Bool.eq_false_iff.mpr fun hkeep => hnot ?_, rfl⟩
    exact List.mem_map_of_mem (List.mem_filter.mpr ⟨hop, hkeep⟩)
  | _ => exact absurd h hnot

theorem Item.precedes_keepOps :
    (it.keepOps keep).precedes (it'.keepOps keep) ↔ it.precedes it' := by
  have hrecord : ∀ e, it.cmd.keepOps keep = .record e ↔ it.cmd = .record e := by
    intro e
    cases it.cmd <;> simp [Cmd.keepOps]
  have hwait : ∀ e, it'.cmd.keepOps keep = .wait e ↔ it'.cmd = .wait e := by
    intro e
    cases it'.cmd <;> simp [Cmd.keepOps]
  have hstream : ∀ s, it'.cmd.keepOps keep = .waitStream s ↔ it'.cmd = .waitStream s := by
    intro s
    cases it'.cmd <;> simp [Cmd.keepOps]
  simp only [Item.precedes, Item.keepOps, hrecord, hwait, hstream]

end Items

section Tasks

variable {keep : Op DataAct → Bool} {prog : Program} {t u : Task}

theorem isTask_of_keepOps (h : IsTask (keepOps keep prog) t) : IsTask prog t := by
  obtain ⟨it, hit, ho⟩ := h
  rw [keepOps, List.getElem?_map] at hit
  obtain ⟨it', hit', rfl⟩ := Option.map_eq_some_iff.mp hit
  exact ⟨it', hit', Cmd.mem_ops_of_keepOps ho⟩

theorem exists_of_isTask_keepOps {d : DataAct} (h : IsTask (keepOps keep prog) t)
    (hact : t.op.act = .data d) : ∃ op, keep op = true ∧ op.act = d := by
  obtain ⟨it, hit, ho⟩ := h
  rw [keepOps, List.getElem?_map] at hit
  obtain ⟨it', -, rfl⟩ := Option.map_eq_some_iff.mp hit
  exact Cmd.exists_of_mem_keepOps ho hact

theorem exists_of_not_isTask_keepOps (h : IsTask prog t) (hnot : ¬ IsTask (keepOps keep prog) t) :
    ∃ op, keep op = false ∧ t.op.act = .data op.act := by
  obtain ⟨it, hit, ho⟩ := h
  refine Cmd.exists_of_not_mem_keepOps ho fun hmem => hnot ⟨it.keepOps keep, ?_, hmem⟩
  rw [keepOps, List.getElem?_map, hit]
  rfl

theorem before_keepOps : Before (keepOps keep prog) u t ↔ Before prog u t := by
  refine and_congr_right' (or_congr_right (and_congr_right' ?_))
  simp only [keepOps, List.getElem?_map]
  constructor
  · rintro ⟨x, y, hx, hy, hxy⟩
    obtain ⟨x', hx', rfl⟩ := Option.map_eq_some_iff.mp hx
    obtain ⟨y', hy', rfl⟩ := Option.map_eq_some_iff.mp hy
    exact ⟨x', y', hx', hy', Item.precedes_keepOps.mp hxy⟩
  · rintro ⟨x, y, hx, hy, hxy⟩
    exact ⟨_, _, Option.map_eq_some_iff.mpr ⟨x, hx, rfl⟩, Option.map_eq_some_iff.mpr ⟨y, hy, rfl⟩,
      Item.precedes_keepOps.mpr hxy⟩

end Tasks

/-! ## Bytes are not waited for -/

/-- Memories that differ in their bytes at most. -/
structure SameGrids {α : Type} (m m' : Memory α) : Prop where
  signal : m.signal = m'.signal
  stepPad : m.stepPad = m'.stepPad
  edgeSeq : m.edgeSeq = m'.edgeSeq
  slot : m.slot = m'.slot

namespace SameGrids

variable {α : Type} {m m' : Memory α} {W r : ℕ} {a : Act}

theorem refl : SameGrids m m := ⟨rfl, rfl, rfl, rfl⟩

theorem guard_iff (h : SameGrids m m') : a.guard W r m ↔ a.guard W r m' := by
  rcases a with _ | _ | _ | ⟨_ | _ | _⟩ | _ <;>
    simp only [Act.guard, h.signal, h.slot, h.stepPad]

theorem effect (h : SameGrids m m') : SameGrids (a.effect W r m) (a.effect W r m') := by
  obtain ⟨hsignal, hstep, hedge, hslot⟩ := h
  rcases a with _ | _ | _ | ⟨_ | _ | _⟩ | _ <;>
    constructor <;> simp only [Act.effect, DataAct.effect, hsignal, hstep, hedge, hslot]

/-- A copy stores a byte. -/
theorem copy (h : SameGrids m m') (src dst : Cell) :
    SameGrids ((Act.data (.copy src dst)).effect W r m) m' := ⟨h.1, h.2, h.3, h.4⟩

end SameGrids

/-! ## Runs -/

section Runs

variable {keep : Op DataAct → Bool} {prog : Program} {α : Type} {W : ℕ} {m₀ : Memory α}
  {x s : State Task (Memory α)} {t : Task}

/-- A run that has done the same, without what is left out. -/
structure Kept (keep : Op DataAct → Bool) (prog : Program) (x s : State Task (Memory α)) :
    Prop where
  done : ∀ t, t ∈ s.done ↔ t ∈ x.done ∧ IsTask (keepOps keep prog) t
  grids : SameGrids x.mem s.mem

theorem Kept.enabled (h : Kept keep prog x s) (he : Enabled (device prog α W) x t)
    (ht : IsTask (keepOps keep prog) t) : Enabled (device (keepOps keep prog) α W) s t where
  task := ht
  fresh hmem := he.fresh ((h.done t).mp hmem).1
  ready u hu hut :=
    (h.done u).mpr ⟨he.ready u (isTask_of_keepOps hu) (before_keepOps.mp hut), hu⟩
  guard := h.grids.guard_iff.mp he.guard

/-- **Nobody notices that copies are left out**: a run of the full program is followed by one
of the program without them. -/
theorem exists_kept (hkeep : ∀ op, keep op = false → ∃ src dst, op.act = .copy src dst)
    (hx : Reachable (device prog α W) m₀ x) :
    ∃ s, Reachable (device (keepOps keep prog) α W) m₀ s ∧ Kept keep prog x s := by
  refine hx.exists_follower (R := Kept keep prog) ⟨by simp, .refl⟩ fun x t s _ he _ h => ?_
  by_cases ht : IsTask (keepOps keep prog) t
  · refine Or.inr ⟨t, h.enabled he ht, fun u => ?_, h.grids.effect⟩
    rw [fire_done, fire_done, List.mem_cons, List.mem_cons, h.done]
    constructor
    · rintro (rfl | ⟨hu, hkept⟩)
      · exact ⟨Or.inl rfl, ht⟩
      · exact ⟨Or.inr hu, hkept⟩
    · rintro ⟨rfl | hu, hkept⟩
      · exact Or.inl rfl
      · exact Or.inr ⟨hu, hkept⟩
  · -- a copy that is left out
    obtain ⟨op, hop, hact⟩ := exists_of_not_isTask_keepOps he.task ht
    obtain ⟨src, dst, hcopy⟩ := hkeep op hop
    refine Or.inl ⟨fun u => ?_, ?_⟩
    · rw [fire_done, List.mem_cons, h.done]
      constructor
      · rintro ⟨hu, hkept⟩
        exact ⟨Or.inr hu, hkept⟩
      · rintro ⟨rfl | hu, hkept⟩
        · exact absurd hkept ht
        · exact ⟨hu, hkept⟩
    · rw [fire_mem, device_effect, hact, hcopy]
      exact h.grids.copy src dst

/-- What the run of the full program has finished is finished without the copies. -/
theorem Kept.finished (h : Kept keep prog x s) (hx : Finished (device prog α W) x) :
    Finished (device (keepOps keep prog) α W) s := fun t ht =>
  (h.done t).mpr ⟨hx t (isTask_of_keepOps ht), ht⟩

end Runs

end GroupFreeCollectives
