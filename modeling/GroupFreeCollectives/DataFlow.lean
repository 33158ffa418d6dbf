import GroupFreeCollectives.Device

/-!
# Bytes and step values along a run

* A byte that no task stores keeps its initial value (`byte_eq_of_not_written`).
* When every copy moves a value to where it belongs, and no copy reads a cell before it
  is stored, every stored cell has its value in every reachable state
  (`byte_eq_of_written`), whatever the interleaving.
* A wait for a step value that a cell did not hold initially ends only after somebody
  published that value there (`exists_stepPublish_of_stepAwait`), and a published value
  stays until the cell's next publication (`stepPad_eq`).
-/

namespace GroupFreeCollectives

open TaskGraph

variable {prog : Program} {α : Type} {W : ℕ} {m₀ : Memory α} {s : State Task (Memory α)}

theorem byte_eq_of_not_written (hs : Reachable (device prog α W) m₀ s) {c : Cell}
    (hc : ∀ t, IsTask prog t → ¬ t.op.act.writesByte c) : s.mem.byte c = m₀.byte c := by
  refine hs.invariant (P := fun s => s.mem.byte c = m₀.byte c) rfl fun s t _ ih hen => ?_
  exact (byte_effect_of_not_writes (hc t hen.task)).trans ih

/-- **Bytes whose values the program determines.**  Suppose that whenever a copy fires,
its source is either never stored and initially has the value of the target, or has
been stored and has the same value as the target.  Then stored cells hold their
value. -/
theorem byte_eq_of_written {val : Cell → α}
    (hcopy : ∀ s t, Reachable (device prog α W) m₀ s → Enabled (device prog α W) s t →
      ∀ src dst, t.op.act = .data (.copy src dst) →
        ((∀ u, IsTask prog u → ¬ u.op.act.writesByte src) ∧ val dst = m₀.byte src) ∨
          ((∃ w ∈ s.done, w.op.act.writesByte src) ∧ val dst = val src))
    (hs : Reachable (device prog α W) m₀ s) :
    ∀ c, (∃ w ∈ s.done, w.op.act.writesByte c) → s.mem.byte c = val c := by
  refine hs.invariant (P := fun s => ∀ c, (∃ w ∈ s.done, w.op.act.writesByte c) →
    s.mem.byte c = val c) (by simp) fun s t hs ih hen c hw => ?_
  rw [fire_mem, device_effect]
  by_cases ht : t.op.act.writesByte c
  · obtain ⟨src, hact⟩ := Act.exists_of_writesByte ht
    rw [hact, byte_effect_copy]
    rcases hcopy s t hs hen src c hact with ⟨hnone, hval⟩ | ⟨hdone, hval⟩
    · rw [byte_eq_of_not_written hs hnone, hval]
    · rw [ih src hdone, hval]
  · rw [byte_effect_of_not_writes ht]
    obtain ⟨w, hw, hwc⟩ := hw
    rcases List.mem_cons.mp hw with rfl | hw
    · exact absurd hwc ht
    · exact ih c ⟨w, hw, hwc⟩

/-- The task publishes to cell `c` of rank `r`'s step pad. -/
def PublishesStep (r c : ℕ) (t : Task) : Prop := ∃ v, t.op.act = .data (.stepPublish r c v)

theorem stepPad_frame {r c : ℕ} (m : Memory α) (t : Task) (h : ¬ PublishesStep r c t) :
    ((device prog α W).effect m t).stepPad r c = m.stepPad r c :=
  stepPad_effect_of_ne fun v hv => h ⟨v, hv⟩

theorem stepPad_effect_publish {r c v : ℕ} (m : Memory α) {t : Task}
    (h : t.op.act = .data (.stepPublish r c v)) :
    ((device prog α W).effect m t).stepPad r c = v := by
  rw [device_effect, h]
  exact store_self ..

/-- **A wait for a step value ends only after the value was published.** -/
theorem exists_stepPublish_of_stepAwait (hs : Reachable (device prog α W) m₀ s) {t : Task}
    {cells : List ℕ} {v c : ℕ} (hact : t.op.act = .data (.stepAwait cells v)) (hc : c ∈ cells)
    (h0 : m₀.stepPad t.rank c ≠ v) (ht : t ∈ s.done) :
    ∃ w ∈ s.done, w.op.act = .data (.stepPublish t.rank c v) := by
  obtain ⟨s', hs', hen, hsub⟩ := hs.fired ht
  have hval : s'.mem.stepPad t.rank c = v := by
    have hg := hen.guard
    rw [device_guard, hact] at hg
    exact hg c hc
  rcases hs'.last_writer (fun m => m.stepPad t.rank c) (PublishesStep t.rank c)
    (fun m u hu => stepPad_frame m u hu) with ⟨hz, -⟩ | ⟨w, s'', ⟨v', hw⟩, hmem, -, -, heq, -⟩
  · exact absurd (hz.symm.trans hval) h0
  · have hv : v' = v := by
      rw [← hval, heq, stepPad_effect_publish s''.mem hw]
    rw [hv] at hw
    exact ⟨w, hsub w hmem, hw⟩

/-- A cell whose only fired publication is known holds that value. -/
theorem stepPad_eq (hs : Reachable (device prog α W) m₀ s) {r c v : ℕ} {w : Task}
    (hw : w ∈ s.done) (hact : w.op.act = .data (.stepPublish r c v))
    (honly : ∀ u ∈ s.done, PublishesStep r c u → u = w) : s.mem.stepPad r c = v := by
  rcases hs.last_writer (fun m => m.stepPad r c) (PublishesStep r c)
    (fun m u hu => stepPad_frame m u hu) with ⟨-, hnone⟩ | ⟨u, s', hu, hmem, -, -, heq, -⟩
  · exact absurd ⟨v, hact⟩ (hnone w hw)
  · obtain rfl := honly u hmem hu
    rw [heq, stepPad_effect_publish s'.mem hact]

end GroupFreeCollectives
