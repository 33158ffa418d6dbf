import GroupFreeCollectives.Lib.TaskGraph
import Mathlib.Logic.Function.Basic
import Mathlib.Logic.Relation

/-!
# Guards that are polled

The guard of a task is a condition on the shared state as a whole, and the task fires in the
state in which it holds.  A program has no such step.  It loops: in a round each lane loads
what it is concerned with, at a time of its own, and the loop ends after a round in which
every lane saw what it waits for.  A watchdog may stop a loop that goes on for too long.

`Poller` says how the guards of a system are polled, and `Step` is the machine that does so.

* *Refinement.*  If what a lane of a ready wait sees stays as it is until the wait ends
  (`Stable`), the machine reaches the states of the system and no others (`reaches_iff`),
  whatever the watchdog does.
* *Progress.*  What the system can finish, the machine can finish, unless the watchdog stops it
  (`exists_finished`).
* *Rounds.*  A wait whose guard holds fails one more round at most
  (`rounds_le_of_guard`), and so does one that is past its deadline (`rounds_le_of_expired`).
* *Watchdog.*  A wait that was stopped has lasted longer than the timeout
  (`exists_start_of_trapped`).
-/

namespace Polling

open TaskGraph Relation

/-- How the guards of a system are polled. -/
structure Poller {τ σ : Type*} (S : System τ σ) (ι κ : Type*) where
  /-- the tasks that spin; the others fire at once -/
  waits : τ → Prop
  /-- what a task loads in every round -/
  lanes : τ → List ι
  /-- a load sees what the task waits for -/
  sees : σ → τ → ι → Bool
  /-- whose clock the watchdog of a task reads -/
  host : τ → κ
  /-- the bound on a wait; zero disables the watchdog -/
  timeout : ℕ
  guard_iff : ∀ m t, S.guard m t ↔ (waits t → ∀ i ∈ lanes t, sees m t i = true)

/-- A spin loop between two of its steps. -/
structure Spin (ι : Type*) where
  deadline : ℕ
  /-- the rounds that have failed -/
  rounds : ℕ
  /-- what the lanes have seen in this round -/
  seen : ι → Option Bool

/-- The loop when a round begins. -/
def Spin.begin {ι : Type*} (deadline rounds : ℕ) : Spin ι := ⟨deadline, rounds, fun _ => none⟩

/-- The system with the loops that are under way. -/
structure Machine (τ σ ι κ : Type*) where
  state : State τ σ
  clock : κ → ℕ
  spin : τ → Option (Spin ι)
  /-- the waits that the watchdog has stopped -/
  trapped : List τ

/-- Nothing has happened yet. -/
def Machine.start {τ σ ι κ : Type*} (m₀ : σ) (clock : κ → ℕ) : Machine τ σ ι κ :=
  ⟨⟨[], m₀⟩, clock, fun _ => none, []⟩

variable {τ σ ι κ : Type*} {S : System τ σ}

namespace Machine

@[simp] theorem start_state (m₀ : σ) (c : κ → ℕ) :
    (start m₀ c : Machine τ σ ι κ).state = ⟨[], m₀⟩ := rfl
@[simp] theorem start_spin (m₀ : σ) (c : κ → ℕ) (u : τ) :
    (start m₀ c : Machine τ σ ι κ).spin u = none := rfl
@[simp] theorem start_trapped (m₀ : σ) (c : κ → ℕ) :
    (start m₀ c : Machine τ σ ι κ).trapped = [] := rfl

variable [DecidableEq τ] (M : Machine τ σ ι κ) (t : τ)

/-- The machine with the loop of one task changed. -/
def setSpin (w : Option (Spin ι)) : Machine τ σ ι κ :=
  { M with spin := Function.update M.spin t w }

/-- The machine after a task has fired. -/
def fire (S : System τ σ) : Machine τ σ ι κ :=
  { M with state := S.fire M.state t, spin := Function.update M.spin t none }

/-- The machine after the watchdog has stopped a task. -/
def trap : Machine τ σ ι κ :=
  { M with spin := Function.update M.spin t none, trapped := t :: M.trapped }

variable (w : Option (Spin ι)) {M t} {u : τ}

@[simp] theorem setSpin_state : (M.setSpin t w).state = M.state := rfl
@[simp] theorem setSpin_clock : (M.setSpin t w).clock = M.clock := rfl
@[simp] theorem setSpin_trapped : (M.setSpin t w).trapped = M.trapped := rfl
@[simp] theorem setSpin_spin_self : (M.setSpin t w).spin t = w := by simp [setSpin]
@[simp] theorem setSpin_spin_of_ne (h : u ≠ t) : (M.setSpin t w).spin u = M.spin u := by
  simp [setSpin, h]
@[simp] theorem setSpin_setSpin (w' : Option (Spin ι)) :
    (M.setSpin t w).setSpin t w' = M.setSpin t w' := by
  simp [setSpin]

@[simp] theorem fire_state : (M.fire t S).state = S.fire M.state t := rfl
@[simp] theorem fire_clock : (M.fire t S).clock = M.clock := rfl
@[simp] theorem fire_trapped : (M.fire t S).trapped = M.trapped := rfl
@[simp] theorem fire_spin_self : (M.fire t S).spin t = none := by simp [fire]
@[simp] theorem fire_spin_of_ne (h : u ≠ t) : (M.fire t S).spin u = M.spin u := by
  simp [fire, h]

@[simp] theorem setSpin_fire : (M.setSpin t w).fire t S = M.fire t S := by
  simp [setSpin, fire]

theorem setSpin_eq_self (h : M.spin t = w) : M.setSpin t w = M := by
  rw [setSpin, ← h, Function.update_eq_self]

@[simp] theorem trap_state : (M.trap t).state = M.state := rfl
@[simp] theorem trap_clock : (M.trap t).clock = M.clock := rfl
@[simp] theorem trap_trapped : (M.trap t).trapped = t :: M.trapped := rfl
@[simp] theorem trap_spin_self : (M.trap t).spin t = none := by simp [trap]
@[simp] theorem trap_spin_of_ne (h : u ≠ t) : (M.trap t).spin u = M.spin u := by
  simp [trap, h]

end Machine

/-! ## The machine -/

section Steps

variable (p : Poller S ι κ)

/-- The watchdog stops the loop at the end of this round: it looks from the second round on. -/
def Expired (M : Machine τ σ ι κ) (t : τ) (w : Spin ι) : Prop :=
  0 < p.timeout ∧ 0 < w.rounds ∧ w.deadline < M.clock (p.host t)

/-- The lanes have loaded in this round. -/
def Loaded (t : τ) (w : Spin ι) : Prop := ∀ i ∈ p.lanes t, w.seen i ≠ none

/-- What a lane of a ready wait sees stays as it is until the wait ends. -/
def Stable (m₀ : σ) : Prop :=
  ∀ s t u i, Reachable S m₀ s → Ready S s t → p.waits t → i ∈ p.lanes t →
    p.sees s.mem t i = true → Enabled S s u → u ≠ t → p.sees (S.effect s.mem u) t i = true

variable [DecidableEq τ] [DecidableEq ι]

/-- One step of the machine. -/
inductive Step : Machine τ σ ι κ → Machine τ σ ι κ → Prop
  /-- time passes -/
  | tick {M : Machine τ σ ι κ} (c : κ → ℕ) : (∀ k, M.clock k ≤ c k) → Step M { M with clock := c }
  /-- a task that does not wait fires -/
  | act {M : Machine τ σ ι κ} {t : τ} : ¬ p.waits t → Enabled S M.state t → Step M (M.fire t S)
  /-- a wait begins: the deadline is set -/
  | arm {M : Machine τ σ ι κ} {t : τ} : p.waits t → Ready S M.state t → M.spin t = none →
      t ∉ M.trapped →
      Step M (M.setSpin t (some (.begin (M.clock (p.host t) + p.timeout) 0)))
  /-- a lane loads -/
  | load {M : Machine τ σ ι κ} {t : τ} {w : Spin ι} {i : ι} : M.spin t = some w → i ∈ p.lanes t →
      w.seen i = none →
      Step M (M.setSpin t (some
        { w with seen := Function.update w.seen i (some (p.sees M.state.mem t i)) }))
  /-- every lane saw what it waits for -/
  | leave {M : Machine τ σ ι κ} {t : τ} {w : Spin ι} : M.spin t = some w →
      (∀ i ∈ p.lanes t, w.seen i = some true) → ¬ Expired p M t w → Step M (M.fire t S)
  /-- some lane did not: the next round begins -/
  | again {M : Machine τ σ ι κ} {t : τ} {w : Spin ι} {i : ι} : M.spin t = some w →
      Loaded p t w → i ∈ p.lanes t → w.seen i = some false → ¬ Expired p M t w →
      Step M (M.setSpin t (some (.begin w.deadline (w.rounds + 1))))
  /-- the watchdog stops the wait, whatever the lanes saw -/
  | trap {M : Machine τ σ ι κ} {t : τ} {w : Spin ι} : M.spin t = some w → Loaded p t w →
      Expired p M t w → Step M (M.trap t)

/-- Any number of steps. -/
abbrev Reaches : Machine τ σ ι κ → Machine τ σ ι κ → Prop := ReflTransGen (Step p)

end Steps

variable {p : Poller S ι κ} {m₀ : σ} {M M' : Machine τ σ ι κ} {t : τ} {w w' : Spin ι}
  {c : κ → ℕ} {i : ι}

/-! ## Refinement -/

/-- What holds in every state that the machine reaches. -/
structure Sound (p : Poller S ι κ) (m₀ : σ) (M : Machine τ σ ι κ) : Prop where
  reachable : Reachable S m₀ M.state
  /-- a loop is that of a ready wait -/
  ready : ∀ t w, M.spin t = some w → p.waits t ∧ Ready S M.state t
  /-- what a lane has seen still holds -/
  seen : ∀ t w i, M.spin t = some w → i ∈ p.lanes t → w.seen i = some true →
    p.sees M.state.mem t i = true
  trapped : ∀ t ∈ M.trapped, p.waits t ∧ M.spin t = none ∧ Ready S M.state t

theorem sound_start : Sound p m₀ (Machine.start m₀ c) where
  reachable := .init
  ready := by simp
  seen := by simp
  trapped := by simp

/-- A wait that is under way has not been stopped. -/
theorem Sound.notMem_trapped (h : Sound p m₀ M) (hw : M.spin t = some w) : t ∉ M.trapped := by
  intro ht
  rw [(h.trapped t ht).2.1] at hw
  cases hw

/-- The guard of a wait whose lanes have all seen what they wait for holds. -/
theorem Sound.enabled (h : Sound p m₀ M) (hw : M.spin t = some w)
    (hall : ∀ i ∈ p.lanes t, w.seen i = some true) : Enabled S M.state t :=
  (h.ready t w hw).2.enabled ((p.guard_iff _ _).mpr fun _ i hi => h.seen t w i hw hi (hall i hi))

variable [DecidableEq τ]

/-- Firing a task keeps what is known of the others. -/
theorem Sound.fire (h : Sound p m₀ M) (hstable : Stable p m₀) (he : Enabled S M.state t)
    (hnot : t ∉ M.trapped) : Sound p m₀ (M.fire t S) where
  reachable := h.reachable.fire he
  ready u w hu := by
    by_cases hne : u = t
    · simp [hne] at hu
    · rw [Machine.fire_spin_of_ne hne] at hu
      exact ⟨(h.ready u w hu).1, (h.ready u w hu).2.fire hne⟩
  seen u w i hu hi hw := by
    by_cases hne : u = t
    · simp [hne] at hu
    · rw [Machine.fire_spin_of_ne hne] at hu
      exact hstable _ _ _ _ h.reachable (h.ready u w hu).2 (h.ready u w hu).1 hi
        (h.seen u w i hu hi hw) he (Ne.symm hne)
  trapped u hu := by
    have hne : u ≠ t := fun h => hnot (h ▸ hu)
    obtain ⟨hwaits, hspin, hready⟩ := h.trapped u hu
    exact ⟨hwaits, by rwa [Machine.fire_spin_of_ne hne], hready.fire hne⟩

/-- Changing the loop of a wait keeps what is known of the others. -/
theorem Sound.setSpin (h : Sound p m₀ M) (hwaits : p.waits t) (hready : Ready S M.state t)
    (hnot : t ∉ M.trapped)
    (hseen : ∀ i ∈ p.lanes t, w.seen i = some true → p.sees M.state.mem t i = true) :
    Sound p m₀ (M.setSpin t (some w)) where
  reachable := h.reachable
  ready u w' hu := by
    by_cases hne : u = t
    · subst hne
      exact ⟨hwaits, hready⟩
    · rw [Machine.setSpin_spin_of_ne _ hne] at hu
      exact h.ready u w' hu
  seen u w' i hu hi hw' := by
    by_cases hne : u = t
    · subst hne
      rw [Machine.setSpin_spin_self, Option.some_inj] at hu
      subst hu
      exact hseen i hi hw'
    · rw [Machine.setSpin_spin_of_ne _ hne] at hu
      exact h.seen u w' i hu hi hw'
  trapped u hu := by
    have hne : u ≠ t := fun h => hnot (h ▸ hu)
    rw [Machine.setSpin_spin_of_ne _ hne]
    exact h.trapped u hu

variable [DecidableEq ι]

theorem Sound.step (hstable : Stable p m₀) (h : Sound p m₀ M) (hstep : Step p M M') :
    Sound p m₀ M' := by
  cases hstep with
  | tick c _ => exact ⟨h.reachable, h.ready, h.seen, h.trapped⟩
  | act hnot he => exact h.fire hstable he fun ht => hnot (h.trapped _ ht).1
  | arm hwaits hready _ hnot => exact h.setSpin hwaits hready hnot (by simp [Spin.begin])
  | @load t w i hw hi hnone =>
    obtain ⟨hwaits, hready⟩ := h.ready t w hw
    refine h.setSpin hwaits hready (h.notMem_trapped hw) fun j hj hseen => ?_
    by_cases hne : j = i
    · subst hne
      simpa using hseen
    · exact h.seen t w j hw hj (by simpa [hne] using hseen)
  | leave hw hall _ => exact h.fire hstable (h.enabled hw hall) (h.notMem_trapped hw)
  | @again t w i hw _ _ _ _ =>
    obtain ⟨hwaits, hready⟩ := h.ready t w hw
    exact h.setSpin hwaits hready (h.notMem_trapped hw) (by simp [Spin.begin])
  | @trap t w hw _ _ =>
    refine ⟨h.reachable, fun u w' hu => ?_, fun u w' i hu => ?_, fun u hu => ?_⟩
    · by_cases hne : u = t
      · simp [hne] at hu
      · rw [Machine.trap_spin_of_ne hne] at hu
        exact h.ready u w' hu
    · by_cases hne : u = t
      · simp [hne] at hu
      · rw [Machine.trap_spin_of_ne hne] at hu
        exact h.seen u w' i hu
    · by_cases hne : u = t
      · subst hne
        exact ⟨(h.ready u w hw).1, Machine.trap_spin_self, (h.ready u w hw).2⟩
      · rw [Machine.trap_spin_of_ne hne]
        exact h.trapped u ((List.mem_cons.mp hu).resolve_left hne)

theorem Sound.reaches (hstable : Stable p m₀) (h : Sound p m₀ M) (hreach : Reaches p M M') :
    Sound p m₀ M' := by
  induction hreach with
  | refl => exact h
  | tail _ hstep ih => exact ih.step hstable hstep

/-- **What the machine reaches, the system reaches**, whatever the watchdog does. -/
theorem reachable_of_reaches (hstable : Stable p m₀) (h : Reaches p (Machine.start m₀ c) M) :
    Reachable S m₀ M.state :=
  (sound_start.reaches hstable h).reachable

/-! ## Progress -/

/-- No wait that is under way is past its deadline. -/
def InTime (p : Poller S ι κ) (M : Machine τ σ ι κ) : Prop :=
  0 < p.timeout → ∀ t w, M.spin t = some w → M.clock (p.host t) ≤ w.deadline

omit [DecidableEq τ] [DecidableEq ι] in
theorem InTime.not_expired (h : InTime p M) (hw : M.spin t = some w) : ¬ Expired p M t w := by
  rintro ⟨htimeout, -, hlt⟩
  exact absurd (h htimeout t w hw) (Nat.not_le_of_lt hlt)

omit [DecidableEq ι] in
theorem InTime.fire (h : InTime p M) : InTime p (M.fire t S) := by
  intro htimeout u w hu
  by_cases hne : u = t
  · simp [hne] at hu
  · rw [Machine.fire_spin_of_ne hne] at hu
    exact h htimeout u w hu

omit [DecidableEq ι] in
theorem InTime.setSpin (h : InTime p M) (hw : 0 < p.timeout → M.clock (p.host t) ≤ w.deadline) :
    InTime p (M.setSpin t (some w)) := by
  intro htimeout u w' hu
  by_cases hne : u = t
  · subst hne
    rw [Machine.setSpin_spin_self, Option.some_inj] at hu
    exact hu ▸ hw htimeout
  · rw [Machine.setSpin_spin_of_ne _ hne] at hu
    exact h htimeout u w' hu

/-- The lanes of a list load, one after the other. -/
theorem exists_loads (hw : M.spin t = some w) : ∀ l : List ι, (∀ i ∈ l, i ∈ p.lanes t) →
    ∃ w', Reaches p M (M.setSpin t (some w')) ∧ w'.deadline = w.deadline ∧
      w'.rounds = w.rounds ∧ (∀ i ∈ l, w'.seen i ≠ none) ∧
      ∀ i b, w'.seen i = some b → w.seen i = some b ∨ b = p.sees M.state.mem t i
  | [], _ => ⟨w, by rw [Machine.setSpin_eq_self _ hw], rfl, rfl, by simp, fun _ _ h => Or.inl h⟩
  | i :: l, hl => by
    obtain ⟨w', hreach, hdeadline, hrounds, hall, hseen⟩ :=
      exists_loads hw l fun j hj => hl j (List.mem_cons_of_mem i hj)
    by_cases hi : w'.seen i = none
    · -- the lane has not loaded yet
      refine ⟨{ w' with seen := Function.update w'.seen i (some (p.sees M.state.mem t i)) },
        hreach.tail ?_, hdeadline, hrounds, fun j hj => ?_, fun j b hb => ?_⟩
      · have hstep := Step.load (p := p) (M := M.setSpin t (some w')) (by simp)
          (hl i List.mem_cons_self) hi
        simpa using hstep
      · by_cases hji : j = i
        · simp [hji]
        · simpa [hji] using hall j ((List.mem_cons.mp hj).resolve_left hji)
      · by_cases hji : j = i
        · subst hji
          exact Or.inr (by simpa [eq_comm] using hb)
        · exact hseen j b (by simpa [hji] using hb)
    · refine ⟨w', hreach, hdeadline, hrounds, fun j hj => ?_, hseen⟩
      rcases List.mem_cons.mp hj with rfl | hj
      · exact hi
      · exact hall j hj

/-- A round that nothing interrupts lets a wait end, if its guard holds at the start. -/
theorem reaches_fire_of_begin {d r : ℕ} (hw : M.spin t = some (.begin d r))
    (hguard : ∀ i ∈ p.lanes t, p.sees M.state.mem t i = true)
    (hnot : ¬ Expired p M t (.begin d r)) : Reaches p M (M.fire t S) := by
  obtain ⟨w', hreach, hdeadline, hrounds, hall, hseen⟩ := exists_loads hw _ fun i hi => hi
  have htrue : ∀ i ∈ p.lanes t, w'.seen i = some true := by
    intro i hi
    obtain ⟨b, hb⟩ := Option.ne_none_iff_exists'.mp (hall i hi)
    rcases hseen i b hb with h | h
    · cases h
    · rw [hb, h, hguard i hi]
  have hstep := Step.leave (p := p) (M := M.setSpin t (some w')) (by simp) htrue
    (by rwa [Expired, hdeadline, hrounds])
  exact hreach.tail (by simpa using hstep)

/-- **What the system can do next, the machine can do**, unless the watchdog interferes. -/
theorem reaches_fire (htime : InTime p M) (he : Enabled S M.state t) (hnot : t ∉ M.trapped) :
    Reaches p M (M.fire t S) := by
  by_cases hwaits : p.waits t
  case neg => exact .single (.act hwaits he)
  have hguard := (p.guard_iff _ _).mp he.guard hwaits
  cases hw : M.spin t with
  | none =>
    -- the wait begins now
    refine ReflTransGen.head (.arm hwaits (ready_of_enabled he) hw hnot) ?_
    have hfire := reaches_fire_of_begin (p := p) (t := t)
      (M := M.setSpin t (some (.begin (M.clock (p.host t) + p.timeout) 0)))
      (Machine.setSpin_spin_self _) (by simpa using hguard)
      fun hexp => absurd hexp.2.1 (Nat.lt_irrefl 0)
    simpa using hfire
  | some w =>
    -- the round under way ends first
    obtain ⟨w', hreach, hdeadline, hrounds, hall, -⟩ := exists_loads (p := p) hw _ fun i hi => hi
    have hexp : ¬ Expired p (M.setSpin t (some w')) t w' := by
      have hexp := htime.not_expired hw
      rwa [Expired, hdeadline, hrounds]
    refine hreach.trans ?_
    by_cases htrue : ∀ i ∈ p.lanes t, w'.seen i = some true
    · exact .single (by simpa using Step.leave (by simp) htrue hexp)
    · push Not at htrue
      obtain ⟨i, hi, hfalse⟩ := htrue
      have hseen : w'.seen i = some false := by
        cases hb : w'.seen i with
        | none => exact absurd hb (hall i hi)
        | some b => cases b <;> simp_all
      refine ReflTransGen.head (.again (by simp) hall hi hseen hexp) ?_
      have hnext : ¬ Expired p (M.setSpin t (some (.begin w'.deadline (w'.rounds + 1)))) t
          (.begin w'.deadline (w'.rounds + 1)) := by
        rintro ⟨htimeout, -, hlt⟩
        refine absurd (htime htimeout t w hw) (Nat.not_le_of_lt ?_)
        rwa [← hdeadline]
      have hfire := reaches_fire_of_begin (p := p) (t := t)
        (M := M.setSpin t (some (.begin w'.deadline (w'.rounds + 1))))
        (Machine.setSpin_spin_self _) (by simpa using hguard) hnext
      simpa using hfire

/-- What the system reaches, the machine reaches without a loop under way. -/
theorem reaches_of_reachable {s : State τ σ} (h : Reachable S m₀ s) :
    Reaches p (Machine.start m₀ c) ⟨s, c, fun _ => none, []⟩ := by
  induction h with
  | init => exact .refl
  | @fire s t _ he ih =>
    have hstep := reaches_fire (p := p) (M := ⟨s, c, fun _ => none, []⟩) (fun _ => by simp) he
      (by simp)
    refine ih.trans ?_
    simpa [Machine.fire] using hstep

/-- **The machine reaches the states of the system and no others.** -/
theorem reaches_iff (hstable : Stable p m₀) {s : State τ σ} :
    (∃ M, Reaches p (Machine.start m₀ c) M ∧ M.state = s) ↔ Reachable S m₀ s := by
  constructor
  · rintro ⟨M, h, rfl⟩
    exact reachable_of_reaches hstable h
  · exact fun h => ⟨_, reaches_of_reachable h, rfl⟩

/-- **What the system can finish, the machine can finish**, from every state in which no wait
was stopped or is past its deadline. -/
theorem exists_finished (hstable : Stable p m₀) (hfin : {t | S.task t}.Finite)
    (hstep : ∀ s, Reachable S m₀ s → ¬ Finished S s → ∃ t, Enabled S s t)
    (h : Reaches p (Machine.start m₀ c) M) (htime : InTime p M) (htrapped : M.trapped = []) :
    ∃ M', Reaches p M M' ∧ M'.trapped = [] ∧ Finished S M'.state := by
  have hkeep : ∀ s, (∃ M', Reaches p M M' ∧ M'.state = s ∧ InTime p M' ∧ M'.trapped = []) →
      ¬ Finished S s → ∃ t, Enabled S s t ∧
        ∃ M', Reaches p M M' ∧ M'.state = S.fire s t ∧ InTime p M' ∧ M'.trapped = [] := by
    rintro _ ⟨M', hreach, rfl, htime', htrapped'⟩ hnot
    have hsound := sound_start.reaches hstable (h.trans hreach)
    obtain ⟨t, he⟩ := hstep _ hsound.reachable hnot
    exact ⟨t, he, M'.fire t S, hreach.trans (reaches_fire htime' he (by simp [htrapped'])), rfl,
      htime'.fire, htrapped'⟩
  obtain ⟨s', ⟨M', hreach, rfl, -, htrapped'⟩, hfinished⟩ :=
    exists_finished_of hfin hkeep ⟨M, .refl, rfl, htime, htrapped⟩
  exact ⟨M', hreach, htrapped', hfinished⟩

/-! ## Rounds -/

/-- The wait is over: it has fired, or the watchdog has stopped it. -/
def Ended (M : Machine τ σ ι κ) (t : τ) : Prop :=
  M.spin t = none ∧ (t ∈ M.state.done ∨ t ∈ M.trapped)

/-- **What a step does to a loop**: it ends it, goes on with the round, or begins the next. -/
theorem Step.of_spin (hstep : Step p M M') (hw : M.spin t = some w) :
    Ended M' t ∨ ∃ w', M'.spin t = some w' ∧ w'.deadline = w.deadline ∧
      (w'.rounds = w.rounds ∧ (∀ i, w'.seen i = some false → w.seen i = some false ∨
          i ∈ p.lanes t ∧ p.sees M.state.mem t i = false) ∨
        w' = .begin w.deadline (w.rounds + 1) ∧ ¬ Expired p M t w ∧
          ∃ i ∈ p.lanes t, w.seen i = some false) := by
  have hsame : ∀ {N : Machine τ σ ι κ}, N.spin t = some w → Ended N t ∨
      ∃ w', N.spin t = some w' ∧ w'.deadline = w.deadline ∧
        (w'.rounds = w.rounds ∧ (∀ i, w'.seen i = some false → w.seen i = some false ∨
            i ∈ p.lanes t ∧ p.sees M.state.mem t i = false) ∨
          w' = .begin w.deadline (w.rounds + 1) ∧ ¬ Expired p M t w ∧
            ∃ i ∈ p.lanes t, w.seen i = some false) :=
    fun h => Or.inr ⟨w, h, rfl, Or.inl ⟨rfl, fun _ => Or.inl⟩⟩
  cases hstep with
  | tick c _ => exact hsame hw
  | @act u _ _ =>
    by_cases hne : t = u
    · subst hne
      exact Or.inl ⟨Machine.fire_spin_self, Or.inl List.mem_cons_self⟩
    · exact hsame (by rwa [Machine.fire_spin_of_ne hne])
  | @arm u _ _ hnone _ =>
    have hne : t ≠ u := by
      rintro rfl
      rw [hw] at hnone
      cases hnone
    exact hsame (by rwa [Machine.setSpin_spin_of_ne _ hne])
  | @load u v i hv hi _ =>
    by_cases hne : t = u
    · subst hne
      obtain rfl : w = v := Option.some_inj.mp (hw.symm.trans hv)
      refine Or.inr ⟨_, Machine.setSpin_spin_self _, rfl, Or.inl ⟨rfl, fun j hj => ?_⟩⟩
      by_cases hji : j = i
      · subst hji
        exact Or.inr ⟨hi, by simpa using hj⟩
      · exact Or.inl (by simpa [hji] using hj)
    · exact hsame (by rwa [Machine.setSpin_spin_of_ne _ hne])
  | @leave u v _ _ _ =>
    by_cases hne : t = u
    · subst hne
      exact Or.inl ⟨Machine.fire_spin_self, Or.inl List.mem_cons_self⟩
    · exact hsame (by rwa [Machine.fire_spin_of_ne hne])
  | @again u v i hv _ hi hfalse hexp =>
    by_cases hne : t = u
    · subst hne
      obtain rfl : w = v := Option.some_inj.mp (hw.symm.trans hv)
      exact Or.inr ⟨_, Machine.setSpin_spin_self _, rfl, Or.inr ⟨rfl, hexp, i, hi, hfalse⟩⟩
    · exact hsame (by rwa [Machine.setSpin_spin_of_ne _ hne])
  | @trap u v _ _ _ =>
    by_cases hne : t = u
    · subst hne
      exact Or.inl ⟨Machine.trap_spin_self, Or.inr List.mem_cons_self⟩
    · exact hsame (by rwa [Machine.trap_spin_of_ne hne])

/-- A wait that is over does not begin again. -/
theorem Step.ended (hstep : Step p M M') (h : Ended M t) : Ended M' t := by
  obtain ⟨hnone, hor⟩ := h
  cases hstep with
  | tick c _ => exact ⟨hnone, hor⟩
  | @act u _ _ =>
    by_cases hne : t = u
    · subst hne
      exact ⟨Machine.fire_spin_self, Or.inl List.mem_cons_self⟩
    · exact ⟨by rwa [Machine.fire_spin_of_ne hne], hor.imp_left (List.mem_cons_of_mem u)⟩
  | @arm u _ hready _ hnot =>
    have hne : t ≠ u := by
      rintro rfl
      exact hor.elim hready.fresh hnot
    exact ⟨by rwa [Machine.setSpin_spin_of_ne _ hne], hor⟩
  | @load u v i hv _ _ | @again u v i hv _ _ _ _ =>
    have hne : t ≠ u := by
      rintro rfl
      rw [hv] at hnone
      cases hnone
    exact ⟨by rwa [Machine.setSpin_spin_of_ne _ hne], hor⟩
  | @leave u v hv _ _ =>
    have hne : t ≠ u := by
      rintro rfl
      rw [hv] at hnone
      cases hnone
    exact ⟨by rwa [Machine.fire_spin_of_ne hne], hor.imp_left (List.mem_cons_of_mem u)⟩
  | @trap u v hv _ _ =>
    have hne : t ≠ u := by
      rintro rfl
      rw [hv] at hnone
      cases hnone
    exact ⟨by rwa [Machine.trap_spin_of_ne hne], hor.imp_right (List.mem_cons_of_mem u)⟩

theorem Step.clock_le (hstep : Step p M M') (k : κ) : M.clock k ≤ M'.clock k := by
  cases hstep with
  | tick c hc => exact hc k
  | _ => exact Nat.le_refl _

/-- What the lanes of a wait see stays as it is while the wait lasts. -/
theorem Step.sees (hstable : Stable p m₀) (h : Sound p m₀ M) (hstep : Step p M M')
    (hw : M.spin t = some w) (hw' : M'.spin t = some w') (hi : i ∈ p.lanes t)
    (hsees : p.sees M.state.mem t i = true) : p.sees M'.state.mem t i = true := by
  obtain ⟨hwaits, hready⟩ := h.ready t w hw
  have hfire : ∀ u, Enabled S M.state u → (M.fire u S).spin t = some w' →
      p.sees (M.fire u S).state.mem t i = true := by
    intro u he hu
    have hne : u ≠ t := by
      rintro rfl
      simp at hu
    exact hstable _ _ _ _ h.reachable hready hwaits hi hsees he hne
  cases hstep with
  | act _ he => exact hfire _ he hw'
  | leave hv hall _ => exact hfire _ (h.enabled hv hall) hw'
  | _ => exact hsees

/-- **A wait whose guard holds fails one more round at most**: the one that is under way. -/
theorem rounds_le_of_guard (hstable : Stable p m₀) (h : Sound p m₀ M) (hw : M.spin t = some w)
    (hguard : ∀ i ∈ p.lanes t, p.sees M.state.mem t i = true) (hreach : Reaches p M M')
    (hw' : M'.spin t = some w') : w'.rounds ≤ w.rounds + 1 := by
  have hinv : Ended M' t ∨ ∃ v, M'.spin t = some v ∧
      (∀ i ∈ p.lanes t, p.sees M'.state.mem t i = true) ∧ (v.rounds ≤ w.rounds ∨
        v.rounds = w.rounds + 1 ∧ ∀ i ∈ p.lanes t, v.seen i ≠ some false) := by
    clear hw'
    induction hreach with
    | refl => exact Or.inr ⟨w, hw, hguard, Or.inl (Nat.le_refl _)⟩
    | @tail N N' hreach hstep ih =>
      rcases ih with hended | ⟨v, hv, hsees, hrounds⟩
      · exact Or.inl (hstep.ended hended)
      rcases hstep.of_spin hv with hended | ⟨v', hv', -, hnext⟩
      · exact Or.inl hended
      refine Or.inr ⟨v', hv', fun i hi =>
        hstep.sees hstable (h.reaches hstable hreach) hv hv' hi (hsees i hi), ?_⟩
      rcases hnext with ⟨heq, hseen⟩ | ⟨rfl, -, i, hi, hfalse⟩
      · -- the round goes on, and what is loaded now is seen
        refine hrounds.imp (heq.trans_le ·) fun ⟨hr, hnot⟩ => ⟨heq.trans hr, fun i hi hb => ?_⟩
        rcases hseen i hb with hb | ⟨-, hb⟩
        · exact hnot i hi hb
        · rw [hsees i hi] at hb
          cases hb
      · -- only the round that was under way at the start can have failed
        rcases hrounds with hr | ⟨-, hnot⟩
        · rcases Nat.lt_or_eq_of_le hr with hlt | heq
          · exact Or.inl hlt
          · exact Or.inr ⟨congrArg (· + 1) heq, by simp [Spin.begin]⟩
        · exact absurd hfalse (hnot i hi)
  rcases hinv with ⟨hnone, -⟩ | ⟨v, hv, -, hrounds⟩
  · rw [hw'] at hnone
    cases hnone
  · obtain rfl : w' = v := Option.some_inj.mp (hw'.symm.trans hv)
    omega

/-- **A wait past its deadline fails one more round at most**: the watchdog looks from the
second round on. -/
theorem rounds_le_of_expired (htimeout : 0 < p.timeout) (hw : M.spin t = some w)
    (hlate : w.deadline < M.clock (p.host t)) (hreach : Reaches p M M')
    (hw' : M'.spin t = some w') : w'.rounds ≤ max w.rounds 1 := by
  have hinv : w.deadline < M'.clock (p.host t) ∧ (Ended M' t ∨ ∃ v, M'.spin t = some v ∧
      v.deadline = w.deadline ∧ v.rounds ≤ max w.rounds 1) := by
    clear hw'
    induction hreach with
    | refl => exact ⟨hlate, Or.inr ⟨w, hw, rfl, le_max_left _ _⟩⟩
    | @tail N N' _ hstep ih =>
      obtain ⟨hlate, ih⟩ := ih
      refine ⟨hlate.trans_le (hstep.clock_le _), ?_⟩
      rcases ih with hended | ⟨v, hv, hdeadline, hrounds⟩
      · exact Or.inl (hstep.ended hended)
      rcases hstep.of_spin hv with hended | ⟨v', hv', hdeadline', hnext⟩
      · exact Or.inl hended
      refine Or.inr ⟨v', hv', hdeadline'.trans hdeadline, ?_⟩
      rcases hnext with ⟨heq, -⟩ | ⟨rfl, hexp, -⟩
      · rwa [heq]
      · -- a round fails only as the first one
        have hzero : v.rounds = 0 := by
          by_contra hpos
          exact hexp ⟨htimeout, Nat.pos_of_ne_zero hpos, by rwa [hdeadline]⟩
        simp [Spin.begin, hzero]
  rcases hinv.2 with ⟨hnone, -⟩ | ⟨v, hv, -, hrounds⟩
  · rw [hw'] at hnone
    cases hnone
  · obtain rfl : w' = v := Option.some_inj.mp (hw'.symm.trans hv)
    exact hrounds

/-! ## The watchdog -/

/-- The wait was armed at some point of the run, with this deadline. -/
def ArmedBefore (p : Poller S ι κ) (M₀ M : Machine τ σ ι κ) (t : τ) (d : ℕ) : Prop :=
  ∃ Q, Reaches p M₀ Q ∧ Reaches p Q M ∧ Ready S Q.state t ∧ d = Q.clock (p.host t) + p.timeout

theorem ArmedBefore.step {M₀ : Machine τ σ ι κ} {d : ℕ} (h : ArmedBefore p M₀ M t d)
    (hstep : Step p M M') : ArmedBefore p M₀ M' t d := by
  obtain ⟨Q, hQ, hreach, hready, hd⟩ := h
  exact ⟨Q, hQ, hreach.tail hstep, hready, hd⟩

/-- A loop after a step is that of a wait that begins, or one from before. -/
theorem Step.spin_of_spin (hstep : Step p M M') (hw : M'.spin t = some w') :
    (Ready S M.state t ∧ w'.deadline = M.clock (p.host t) + p.timeout) ∨
      ∃ w, M.spin t = some w ∧ w'.deadline = w.deadline := by
  have hdone : M.spin t = none → ∀ w, M.spin t ≠ some w := fun h w hw => by
    rw [h] at hw
    cases hw
  cases hv : M.spin t with
  | some v =>
    rcases hstep.of_spin hv with ⟨hnone, -⟩ | ⟨v', hv', hdeadline, -⟩
    · rw [hw] at hnone
      cases hnone
    · obtain rfl : w' = v' := Option.some_inj.mp (hw.symm.trans hv')
      exact Or.inr ⟨v, rfl, hdeadline⟩
  | none =>
    refine Or.inl ?_
    cases hstep with
    | @arm u _ hready _ _ =>
      by_cases hne : t = u
      · subst hne
        rw [Machine.setSpin_spin_self, Option.some_inj] at hw
        exact ⟨hready, by rw [← hw]; rfl⟩
      · simp [hne, hv] at hw
    | tick c _ => simp [hv] at hw
    | @load u v i hu _ _ | @again u v i hu _ _ _ _ =>
      by_cases hne : t = u
      · subst hne
        exact absurd hu (hdone hv v)
      · simp [hne, hv] at hw
    | @act u _ _ | @leave u _ _ _ _ =>
      by_cases hne : t = u
      · simp [hne] at hw
      · simp [hne, hv] at hw
    | @trap u _ _ _ _ =>
      by_cases hne : t = u
      · simp [hne] at hw
      · simp [hne, hv] at hw

/-- **A wait that was stopped has lasted longer than the timeout**, by the clock of its
host. -/
theorem exists_start_of_trapped (h : Reaches p (Machine.start m₀ c) M) (ht : t ∈ M.trapped) :
    0 < p.timeout ∧ ∃ Q, Reaches p (Machine.start m₀ c) Q ∧ Reaches p Q M ∧ Ready S Q.state t ∧
      Q.clock (p.host t) + p.timeout < M.clock (p.host t) := by
  have hinv : (∀ t w, M.spin t = some w →
        ArmedBefore p (Machine.start m₀ c) M t w.deadline) ∧
      ∀ t ∈ M.trapped, 0 < p.timeout ∧ ∃ d, ArmedBefore p (Machine.start m₀ c) M t d ∧
        d < M.clock (p.host t) := by
    clear ht
    induction h with
    | refl => simp
    | @tail N N' hreach hstep ih =>
      obtain ⟨hspin, htrapped⟩ := ih
      have hkeep : ∀ t ∈ N.trapped, 0 < p.timeout ∧ ∃ d,
          ArmedBefore p (Machine.start m₀ c) N' t d ∧ d < N'.clock (p.host t) := by
        intro t ht
        obtain ⟨hpos, d, harmed, hlt⟩ := htrapped t ht
        exact ⟨hpos, d, harmed.step hstep, hlt.trans_le (hstep.clock_le _)⟩
      refine ⟨fun t w' hw' => ?_, fun t ht => ?_⟩
      · rcases hstep.spin_of_spin hw' with ⟨hready, hdeadline⟩ | ⟨w, hw, hdeadline⟩
        · exact ⟨N, hreach, .single hstep, hready, hdeadline⟩
        · rw [hdeadline]
          exact (hspin t w hw).step hstep
      · cases hstep with
        | @trap u w hw hloaded hexp =>
          rcases List.mem_cons.mp ht with rfl | ht
          · exact ⟨hexp.1, _, (hspin t w hw).step (.trap hw hloaded hexp), hexp.2.2⟩
          · exact hkeep t ht
        | _ => exact hkeep t ht
  obtain ⟨hpos, d, ⟨Q, hQ, hreach, hready, rfl⟩, hlt⟩ := hinv.2 t ht
  exact ⟨hpos, Q, hQ, hreach, hready, hlt⟩

/-- **A wait that cannot end is stopped** once enough time has passed. -/
theorem exists_trapped (hpos : 0 < p.timeout) (hwaits : p.waits t) (hready : Ready S M.state t)
    (hspin : M.spin t = none) (hnot : t ∉ M.trapped) (hguard : ¬ S.guard M.state.mem t) :
    ∃ M', Reaches p M M' ∧ M'.state = M.state ∧ t ∈ M'.trapped := by
  obtain ⟨i, hi, hsees⟩ : ∃ i ∈ p.lanes t, p.sees M.state.mem t i = false := by
    simpa [p.guard_iff, hwaits] using hguard
  -- the first round fails
  obtain ⟨w, hround, hdeadline, hrounds, hloaded, hseen⟩ := exists_loads (p := p) (t := t)
    (M := M.setSpin t (some (.begin (M.clock (p.host t) + p.timeout) 0)))
    (Machine.setSpin_spin_self _) _ fun i hi => hi
  rw [Machine.setSpin_setSpin] at hround
  have hfalse : w.seen i = some false := by
    obtain ⟨b, hb⟩ := Option.ne_none_iff_exists'.mp (hloaded i hi)
    rcases hseen i b hb with h | h
    · cases h
    · rw [hb, h, Machine.setSpin_state, hsees]
  have hexp : ¬ Expired p (M.setSpin t (some w)) t w := by
    rintro ⟨-, hlt, -⟩
    rw [hrounds] at hlt
    exact Nat.lt_irrefl 0 hlt
  have hfailed := Step.again (p := p) (M := M.setSpin t (some w)) (Machine.setSpin_spin_self _)
    hloaded hi hfalse hexp
  rw [Machine.setSpin_setSpin] at hfailed
  -- the deadline passes before the second one ends
  obtain ⟨w', hround', hdeadline', hrounds', hloaded', -⟩ := exists_loads (p := p) (t := t)
    (M := { M.setSpin t (some (.begin w.deadline (w.rounds + 1))) with
      clock := fun k => M.clock k + p.timeout + 1 })
    (Machine.setSpin_spin_self _) _ fun i hi => hi
  refine ⟨_, .head (.arm hwaits hready hspin hnot) (hround.trans (.head hfailed
    (.head (.tick (fun k => M.clock k + p.timeout + 1) fun k => ?_) (hround'.tail
      (.trap (Machine.setSpin_spin_self _) hloaded' ⟨hpos, ?_, ?_⟩))))), rfl, List.mem_cons_self⟩
  · rw [Machine.setSpin_clock]
    omega
  · rw [hrounds']
    exact Nat.succ_pos _
  · rw [hdeadline']
    show w.deadline < M.clock (p.host t) + p.timeout + 1
    rw [hdeadline]
    exact Nat.lt_succ_self _

end Polling
