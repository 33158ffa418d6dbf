import Mathlib.Algebra.Order.BigOperators.Group.Finset
import Mathlib.Data.Finset.Max
import Mathlib.Logic.Relation
import Mathlib.Tactic.Common

/-!
# Parties that meet

Several parties run scripts over a common state.  A step of a script is an action of the
party, or a meeting: the party arrives, and it departs when every party has arrived at the
meeting that is next for it, and all of them at the same one.

* *Fences.*  A party that has left a meeting finds that everybody has done what their scripts
  have before it (`Reachable.suffix_of_left`).
* *Invariants.*  What an action establishes and later ones keep holds once it has been done
  (`Reachable.of_done`).
* *Progress.*  When all scripts have the same meetings, some party can take a step until all
  have finished (`Reachable.exists_step`), and all can finish (`Reachable.exists_finished`).
* *Deadlock.*  Otherwise they cannot: a party whose meeting another does not share stays there
  (`Reachable.stays`).  So all parties can leave all their meetings exactly if their scripts
  have the same ones (`exists_left_iff`).
-/

namespace Rendezvous

open Relation

/-- A step of a script. -/
inductive Instr (α β : Type*) where
  | act (a : α)
  | meet (l : β)

variable {ι α β σ : Type*}

/-- The meetings of a script. -/
def meets (is : List (Instr α β)) : List β :=
  is.filterMap fun
    | .act _ => none
    | .meet l => some l

section Meets

variable {is js : List (Instr α β)} {a : α} {l : β}

@[simp] theorem meets_nil : meets ([] : List (Instr α β)) = [] := rfl
@[simp] theorem meets_act : meets (.act a :: is) = meets is := rfl
@[simp] theorem meets_meet : meets (.meet l :: is) = l :: meets is := rfl
@[simp] theorem meets_append : meets (is ++ js) = meets is ++ meets js := by
  simp [meets]

theorem meets_suffix (h : is <:+ js) : meets is <:+ meets js := h.filterMap _

/-- What a prefix has at a position. -/
theorem getElem?_mono {xs ys : List β} (h : xs <+: ys) {j : ℕ} (hj : xs[j]? = some l) :
    ys[j]? = some l := by
  obtain ⟨zs, rfl⟩ := h
  rw [List.getElem?_append_left (List.getElem?_eq_some_iff.mp hj).1, hj]

/-- A script that is run to before and beyond a meeting, cut at that meeting. -/
theorem suffix_of_lt {done todo pre post : List (Instr α β)}
    (h : done ++ todo = pre ++ .meet l :: post)
    (hlt : (meets pre).length < (meets done).length) : todo <:+ post := by
  rcases List.append_eq_append_iff.mp h with ⟨c, rfl, -⟩ | ⟨c, rfl, hc⟩
  · simp at hlt
  · cases c with
    | nil => simp at hlt
    | cons x c =>
      obtain ⟨-, rfl⟩ := List.cons_eq_cons.mp hc
      exact List.suffix_append c todo

/-- A script that is run to a meeting, and has as many meetings before it as another one. -/
theorem eq_of_length_eq {l' : β} {done todo pre post : List (Instr α β)}
    (h : done ++ .meet l' :: todo = pre ++ .meet l :: post)
    (hlen : (meets done).length = (meets pre).length) : done = pre := by
  rcases List.append_eq_append_iff.mp h with ⟨c, rfl, hc⟩ | ⟨c, rfl, hc⟩
  · cases c with
    | nil => simp
    | cons x c =>
      obtain ⟨rfl, -⟩ := List.cons_eq_cons.mp hc
      simp at hlen
  · cases c with
    | nil => simp
    | cons x c =>
      obtain ⟨rfl, -⟩ := List.cons_eq_cons.mp hc
      simp at hlen

end Meets

/-- The parties, what they run, and what their actions do. -/
structure Protocol (ι α β σ : Type*) where
  parties : Finset ι
  script : ι → List (Instr α β)
  effect : ι → α → σ → σ

/-- A point of a run. -/
structure State (ι α β σ : Type*) where
  /-- what is left of the scripts -/
  todo : ι → List (Instr α β)
  /-- the meetings that a party has arrived at -/
  arrived : ι → List β
  /-- how many of them it has left -/
  left : ι → ℕ
  mem : σ

variable (P : Protocol ι α β σ) (m₀ : σ)

/-- Nothing has happened yet. -/
def Protocol.start : State ι α β σ := ⟨P.script, fun _ => [], fun _ => 0, m₀⟩

/-- Every party has come to the end of its script. -/
def Finished (s : State ι α β σ) : Prop := ∀ p ∈ P.parties, s.todo p = []

variable {P m₀} {s s' : State ι α β σ} {p q : ι} {l : β}

/-! ## Fences -/

/-- Where a party is: the script it has run, the meetings it has left, and the one that it
may be waiting at. -/
structure At (P : Protocol ι α β σ) (s : State ι α β σ) (p : ι) (done : List (Instr α β)) :
    Prop where
  script : done ++ s.todo p = P.script p
  left : s.left p = (meets done).length
  arrived : s.arrived p = meets done ∨
    ∃ l is, s.todo p = .meet l :: is ∧ s.arrived p = meets done ++ [l]

/-- Every party is somewhere, and what one has left all have arrived at. -/
structure Sound (P : Protocol ι α β σ) (s : State ι α β σ) : Prop where
  at_ : ∀ p, ∃ done, At P s p done
  fence : ∀ p ∈ P.parties, ∀ q ∈ P.parties, ∀ j < s.left p,
    (s.arrived q)[j]? = (meets (P.script p))[j]?

/-- A step of another party changes nothing about where this one is. -/
theorem At.congr {done : List (Instr α β)} (h : At P s p done) (htodo : s'.todo p = s.todo p)
    (hleft : s'.left p = s.left p) (harrived : s'.arrived p = s.arrived p) : At P s' p done where
  script := by rw [htodo, h.script]
  left := by rw [hleft, h.left]
  arrived := by rw [htodo, harrived]; exact h.arrived

theorem At.arrived_prefix {done : List (Instr α β)} (h : At P s p done) :
    s.arrived p <+: meets (P.script p) := by
  rw [← h.script, meets_append]
  rcases h.arrived with heq | ⟨l, is, htodo, heq⟩
  · rw [heq]
    exact List.prefix_append _ _
  · exact ⟨meets is, by simp [heq, htodo]⟩

theorem sound_start : Sound P (P.start m₀) where
  at_ _ := ⟨[], rfl, rfl, Or.inl rfl⟩
  fence _ _ _ _ j hj := absurd hj (Nat.not_lt_zero j)

variable [DecidableEq ι] (P m₀)

/-- The state after an action of a party. -/
def State.run (s : State ι α β σ) (p : ι) (a : α) (is : List (Instr α β)) : State ι α β σ :=
  { s with todo := Function.update s.todo p is, mem := P.effect p a s.mem }

/-- One step of one party. -/
inductive Step : State ι α β σ → State ι α β σ → Prop
  | act {s : State ι α β σ} {p : ι} {a : α} {is : List (Instr α β)} : p ∈ P.parties →
      s.todo p = .act a :: is → Step s (s.run P p a is)
  | arrive {s : State ι α β σ} {p : ι} {l : β} {is : List (Instr α β)} : p ∈ P.parties →
      s.todo p = .meet l :: is → (s.arrived p).length = s.left p →
      Step s { s with arrived := Function.update s.arrived p (s.arrived p ++ [l]) }
  | depart {s : State ι α β σ} {p : ι} {l : β} {is : List (Instr α β)} : p ∈ P.parties →
      s.todo p = .meet l :: is → (s.arrived p).length = s.left p + 1 →
      (∀ q ∈ P.parties, (s.arrived q)[s.left p]? = some l) →
      Step s { s with
        todo := Function.update s.todo p is, left := Function.update s.left p (s.left p + 1) }

/-- What some run reaches. -/
abbrev Reachable (s : State ι α β σ) : Prop := ReflTransGen (Step P) (P.start m₀) s

variable {P m₀}

theorem Sound.step (h : Sound P s) (hstep : Step P s s') : Sound P s' := by
  cases hstep with
  | @act p a is hp htodo =>
    refine ⟨fun q => ?_, h.fence⟩
    obtain ⟨done, hq⟩ := h.at_ q
    by_cases hne : q = p
    · subst hne
      refine ⟨done ++ [.act a], ?_, ?_, Or.inl ?_⟩
      · simpa [State.run, htodo] using hq.script
      · simpa [State.run, meets] using hq.left
      · rcases hq.arrived with heq | ⟨l, is', htodo', -⟩
        · simpa [State.run, meets] using heq
        · rw [htodo] at htodo'
          cases htodo'
    · exact ⟨done, hq.congr (by simp [State.run, hne]) rfl rfl⟩
  | @arrive p l is hp htodo hlen =>
    refine ⟨fun q => ?_, fun r hr q hq j hj => ?_⟩
    · obtain ⟨done, hq⟩ := h.at_ q
      by_cases hne : q = p
      · subst hne
        refine ⟨done, hq.script, hq.left, Or.inr ⟨l, is, htodo, ?_⟩⟩
        rcases hq.arrived with heq | ⟨l', is', -, heq⟩
        · simp [heq]
        · have hleft := hq.left
          simp only [heq, List.length_append, List.length_singleton] at hlen
          omega
      · exact ⟨done, hq.congr rfl rfl (by simp [hne])⟩
    · have hold := h.fence r hr q hq j hj
      by_cases hne : q = p
      · subst hne
        have hsome : j < (meets (P.script r)).length := by
          obtain ⟨done, hr'⟩ := h.at_ r
          rw [← hr'.script, meets_append, List.length_append]
          have hleft := hr'.left
          have hj : j < s.left r := hj
          omega
        rw [List.getElem?_eq_getElem hsome] at hold ⊢
        obtain ⟨hlt, -⟩ := List.getElem?_eq_some_iff.mp hold
        simpa [List.getElem?_append_left hlt] using hold
      · simpa [hne] using hold
  | @depart p l is hp htodo hlen hall =>
    refine ⟨fun q => ?_, fun r hr q hq j hj => ?_⟩
    · obtain ⟨done, hq⟩ := h.at_ q
      by_cases hne : q = p
      · subst hne
        refine ⟨done ++ [.meet l], ?_, ?_, Or.inl ?_⟩
        · simpa [htodo] using hq.script
        · simpa [meets] using hq.left
        · rcases hq.arrived with heq | ⟨l', is', htodo', heq⟩
          · have hleft := hq.left
            rw [heq] at hlen
            omega
          · rw [htodo] at htodo'
            cases htodo'
            simpa [meets] using heq
      · exact ⟨done, hq.congr (by simp [hne]) (by simp [hne]) rfl⟩
    · by_cases hne : r = p
      · subst hne
        simp only [Function.update_self] at hj
        rcases Nat.lt_succ_iff_lt_or_eq.mp hj with hj | rfl
        · exact h.fence r hr q hq j hj
        · -- the meeting that is being left
          obtain ⟨done, hr'⟩ := h.at_ r
          rw [show (s.arrived q)[s.left r]? = some l from hall q hq, ← hr'.script, htodo,
            meets_append, hr'.left]
          simp
      · exact h.fence r hr q hq j (by simpa [hne] using hj)

theorem Reachable.sound (h : Reachable P m₀ s) : Sound P s := by
  induction h with
  | refl => exact sound_start
  | tail _ hstep ih => exact ih.step hstep

/-- What is left of a script is its end. -/
theorem Reachable.todo_suffix (h : Reachable P m₀ s) (p : ι) : s.todo p <:+ P.script p := by
  obtain ⟨done, hp⟩ := h.sound.at_ p
  rw [← hp.script]
  exact List.suffix_append _ _

/-- A step of a script that is still to come is in what is left of it, and the other way
round. -/
theorem suffix_of_notMem {xs pre post : List (Instr α β)} {x : Instr α β}
    (h : xs <:+ pre ++ x :: post) (hx : x ∉ xs) : xs <:+ post := by
  obtain ⟨done, h⟩ := h
  rcases List.append_eq_append_iff.mp h with ⟨c, rfl, rfl⟩ | ⟨c, rfl, hc⟩
  · simp at hx
  · cases c with
    | nil =>
      rw [List.nil_append] at hc
      simp [← hc] at hx
    | cons y c =>
      obtain ⟨-, rfl⟩ := List.cons_eq_cons.mp hc
      exact List.suffix_append c xs

/-- When a step is still to come, the next one is it or one from before it. -/
theorem mem_of_next {y x : Instr α β} {ys pre post : List (Instr α β)}
    (h : y :: ys <:+ pre ++ x :: post) (hx : x ∈ y :: ys) (hnot : x ∉ post) : y = x ∨ y ∈ pre := by
  obtain ⟨done, h⟩ := h
  rcases List.append_eq_append_iff.mp h with ⟨c, rfl, hc⟩ | ⟨c, rfl, hc⟩
  · cases c with
    | nil => exact Or.inl (List.cons_eq_cons.mp hc).1
    | cons z c =>
      obtain ⟨rfl, -⟩ := List.cons_eq_cons.mp hc
      exact Or.inr (by simp)
  · cases c with
    | nil => exact Or.inl (List.cons_eq_cons.mp hc).1.symm
    | cons z c =>
      obtain ⟨-, rfl⟩ := List.cons_eq_cons.mp hc
      exact absurd (List.mem_append_right c hx) hnot

/-- What comes after an action that a script has once. -/
theorem Reachable.eq_of_next (h : Reachable P m₀ s) {a : α} {is pre post : List (Instr α β)}
    (hscript : P.script p = pre ++ .act a :: post) (hpre : .act a ∉ pre) (hpost : .act a ∉ post)
    (htodo : s.todo p = .act a :: is) : is = post := by
  obtain ⟨done, hp⟩ := h.todo_suffix p
  rw [hscript, htodo] at hp
  rcases List.append_eq_append_iff.mp hp with ⟨c, rfl, hc⟩ | ⟨c, rfl, hc⟩
  · cases c with
    | nil => exact (List.cons_eq_cons.mp hc).2
    | cons x c =>
      obtain ⟨rfl, -⟩ := List.cons_eq_cons.mp hc
      simp at hpre
  · cases c with
    | nil => exact (List.cons_eq_cons.mp hc).2.symm
    | cons x c =>
      obtain ⟨-, rfl⟩ := List.cons_eq_cons.mp hc
      simp at hpost

/-- Everybody has arrived at a meeting that a party has left. -/
theorem Reachable.arrived_of_left (h : Reachable P m₀ s) (hp : p ∈ P.parties)
    (hq : q ∈ P.parties) {pre post : List (Instr α β)} (hpre : P.script p = pre ++ .meet l :: post)
    (hleft : s.todo p <:+ post) : (s.arrived q)[(meets pre).length]? = some l := by
  obtain ⟨done, hp'⟩ := h.sound.at_ p
  have hlt : (meets pre).length < s.left p := by
    have hlen := congrArg List.length (congrArg meets (hp'.script.trans hpre))
    have hpost : (meets (s.todo p)).length ≤ (meets post).length :=
      (meets_suffix hleft).length_le
    simp only [meets_append, meets_meet, List.length_append, List.length_cons] at hlen
    rw [hp'.left]
    omega
  rw [h.sound.fence p hp q hq _ hlt, hpre]
  simp

theorem Reachable.mem_meets_of_left (h : Reachable P m₀ s) (hp : p ∈ P.parties)
    (hq : q ∈ P.parties) {pre post : List (Instr α β)} (hpre : P.script p = pre ++ .meet l :: post)
    (hleft : s.todo p <:+ post) : l ∈ meets (P.script q) := by
  obtain ⟨done, hat⟩ := h.sound.at_ q
  exact hat.arrived_prefix.subset (List.mem_of_getElem? (h.arrived_of_left hp hq hpre hleft))

/-- **A fence**: when a party has left a meeting that the script of another has once, the other
has done what comes before it. -/
theorem Reachable.suffix_of_left (h : Reachable P m₀ s) (hp : p ∈ P.parties)
    (hq : q ∈ P.parties) {pre post pre' post' : List (Instr α β)}
    (hpre : P.script p = pre ++ .meet l :: post) (hleft : s.todo p <:+ post)
    (hpre' : P.script q = pre' ++ .meet l :: post') (hnot : l ∉ meets pre')
    (hnot' : l ∉ meets post') : s.todo q <:+ .meet l :: post' := by
  obtain ⟨done', hq'⟩ := h.sound.at_ q
  -- the other has arrived there, and only there is this label
  have hget := h.arrived_of_left hp hq hpre hleft
  have hpos : (meets pre).length = (meets pre').length := by
    have hget' := getElem?_mono hq'.arrived_prefix hget
    rw [hpre', meets_append, meets_meet, List.getElem?_append] at hget'
    split at hget'
    · exact absurd (List.mem_of_getElem? hget') hnot
    · rw [List.getElem?_cons] at hget'
      split at hget'
      · omega
      · exact absurd (List.mem_of_getElem? hget') hnot'
  have hlen : (meets pre').length < (s.arrived q).length := by
    rw [← hpos]
    exact (List.getElem?_eq_some_iff.mp hget).1
  have hcut := hq'.script.trans hpre'
  rcases hq'.arrived with heq | ⟨l', is, htodo, heq⟩
  · rw [heq] at hlen
    exact (suffix_of_lt hcut hlen).trans (List.suffix_cons _ _)
  · rw [heq, List.length_append, List.length_singleton] at hlen
    rcases Nat.lt_succ_iff_lt_or_eq.mp hlen with hlt | heq'
    · exact (suffix_of_lt hcut hlt).trans (List.suffix_cons _ _)
    · rw [htodo] at hcut
      have hdone := eq_of_length_eq hcut heq'.symm
      rw [hdone, List.append_cancel_left_eq] at hcut
      rw [htodo, hcut]

/-! ## Invariants -/

/-- What the actions keep holds throughout: meetings change neither the common state nor what
actions are to come. -/
theorem Reachable.act_invariant {I : σ → (ι → List (Instr α β)) → Prop} (h0 : I m₀ P.script)
    (hquiet : ∀ m todo todo', (∀ q a, .act a ∈ todo' q ↔ .act a ∈ todo q) → I m todo → I m todo')
    (hact : ∀ s p a is, Reachable P m₀ s → I s.mem s.todo → p ∈ P.parties →
      s.todo p = .act a :: is → I (s.run P p a is).mem (s.run P p a is).todo)
    (h : Reachable P m₀ s) : I s.mem s.todo := by
  induction h with
  | refl => exact h0
  | @tail s s' hreach hstep ih =>
    cases hstep with
    | act hp htodo => exact hact _ _ _ _ hreach ih hp htodo
    | arrive => exact ih
    | @depart p l is _ htodo _ _ =>
      refine hquiet _ _ _ (fun q a => ?_) ih
      by_cases hne : q = p
      · subst hne
        simp [htodo]
      · simp [hne]

/-- **What an action establishes** and later ones keep holds once it has been done. -/
theorem Reachable.of_done {Q : σ → Prop} {x : α} (hx : .act x ∈ P.script q)
    (hdo : ∀ s is, Reachable P m₀ s → q ∈ P.parties → s.todo q = .act x :: is →
      Q (P.effect q x s.mem))
    (hkeep : ∀ s p a is, Reachable P m₀ s → p ∈ P.parties → s.todo p = .act a :: is →
      .act x ∉ s.todo q → Q s.mem → Q (P.effect p a s.mem))
    (h : Reachable P m₀ s) (hdone : .act x ∉ s.todo q) : Q s.mem := by
  refine Reachable.act_invariant (I := fun m todo => .act x ∉ todo q → Q m)
    (fun hnot => absurd hx hnot) (fun m todo todo' hsame hI hnot => hI ?_)
    (fun s p a is hs hI hp htodo hnot => ?_) h hdone
  · rwa [← hsame]
  · by_cases hnext : .act x ∈ s.todo q
    · by_cases hne : q = p
      · -- this is the action
        subst hne
        have hmem : x = a ∨ .act x ∈ is := by simpa [htodo] using hnext
        rcases hmem with rfl | hmem
        · exact hdo s is hs hp htodo
        · exact absurd hmem (by simpa [State.run] using hnot)
      · exact absurd hnext (by simpa [State.run, hne] using hnot)
    · exact hkeep s p a is hs hp htodo hnext (hI hnext)

/-! ## Progress -/

/-- **When all scripts have the same meetings, some party can take a step**, unless all have
finished. -/
theorem Reachable.exists_step (h : Reachable P m₀ s)
    (hagree : ∀ p ∈ P.parties, ∀ q ∈ P.parties, meets (P.script p) = meets (P.script q))
    (hnot : ¬ Finished P s) : ∃ s', Step P s s' := by
  -- the unfinished party that has left the fewest meetings
  have hsome : (P.parties.filter fun p => ¬ (s.todo p).isEmpty).Nonempty := by
    simpa [Finished, Finset.filter_nonempty_iff] using hnot
  obtain ⟨p, hmem, hmin⟩ := Finset.exists_min_image _ s.left hsome
  obtain ⟨hp, hne⟩ := Finset.mem_filter.mp hmem
  have hstep : ∀ q ∈ P.parties, s.todo q ≠ [] → (s.arrived q).length = s.left q →
      ∃ s', Step P s s' := by
    intro q hq hne hlen
    obtain ⟨x, is, htodo⟩ := List.exists_cons_of_ne_nil hne
    cases x with
    | act a => exact ⟨_, .act hq htodo⟩
    | meet l => exact ⟨_, .arrive hq htodo hlen⟩
  have hne : s.todo p ≠ [] := by simpa using hne
  obtain ⟨done, hat⟩ := h.sound.at_ p
  rcases hat.arrived with heq | ⟨l, is, htodo, heq⟩
  · exact hstep p hp hne (by rw [heq, hat.left])
  -- it waits at a meeting: everybody is there, or somebody else can move
  by_cases hall : ∀ q ∈ P.parties, (s.arrived q)[s.left p]? = some l
  · exact ⟨_, .depart hp htodo (by rw [heq, hat.left]; simp) hall⟩
  push Not at hall
  obtain ⟨q, hq, hmissing⟩ := hall
  obtain ⟨done', hat'⟩ := h.sound.at_ q
  have hget : (meets (P.script q))[s.left p]? = some l := by
    rw [← hagree p hp q hq, ← hat.script, htodo, meets_append, hat.left]
    simp
  have hshort : (s.arrived q).length ≤ s.left p := by
    by_contra hlt
    have hsome := List.getElem?_eq_getElem (Nat.lt_of_not_le hlt)
    rw [getElem?_mono hat'.arrived_prefix hsome] at hget
    exact hmissing (hsome.trans hget)
  have hne' : s.todo q ≠ [] := by
    intro hnil
    have hdone := hat'.script
    rw [hnil, List.append_nil] at hdone
    rcases hat'.arrived with heq' | ⟨l', is', htodo', -⟩
    · rw [heq', hdone] at hshort
      exact Nat.not_lt_of_le hshort (List.getElem?_eq_some_iff.mp hget).1
    · rw [hnil] at htodo'
      cases htodo'
  have hle : s.left p ≤ s.left q :=
    hmin q (Finset.mem_filter.mpr ⟨hq, by simpa using hne'⟩)
  refine hstep q hq hne' (le_antisymm (hshort.trans hle) ?_)
  rcases hat'.arrived with heq' | ⟨l', is', -, heq'⟩
  · rw [heq', hat'.left]
  · rw [heq', hat'.left]
    simp

/-- What is left to do: two steps for each instruction, less the arrival at a meeting. -/
def remaining (P : Protocol ι α β σ) (s : State ι α β σ) : ℕ :=
  ∑ p ∈ P.parties, (2 * (s.todo p).length + s.left p - (s.arrived p).length)

theorem Step.remaining_lt (h : Sound P s) (hstep : Step P s s') :
    remaining P s' < remaining P s := by
  have hpos : ∀ q, s.todo q ≠ [] → (s.arrived q).length ≤ s.left q + 1 := by
    intro q _
    obtain ⟨done, hq⟩ := h.at_ q
    rcases hq.arrived with heq | ⟨l, is, -, heq⟩ <;> rw [heq, hq.left] <;> simp
  -- only one summand changes
  have hsum : ∀ p ∈ P.parties, (∀ q, q ≠ p → s'.todo q = s.todo q ∧ s'.left q = s.left q ∧
        s'.arrived q = s.arrived q) →
      2 * (s'.todo p).length + s'.left p - (s'.arrived p).length <
        2 * (s.todo p).length + s.left p - (s.arrived p).length →
      remaining P s' < remaining P s := by
    intro p hp hsame hlt
    refine Finset.sum_lt_sum (fun q _ => ?_) ⟨p, hp, hlt⟩
    by_cases hne : q = p
    · exact hne ▸ hlt.le
    · obtain ⟨h₁, h₂, h₃⟩ := hsame q hne
      rw [h₁, h₂, h₃]
  cases hstep with
  | @act p a is hp htodo =>
    refine hsum p hp (fun q hne => by simp [State.run, hne]) ?_
    have hle := hpos p (by simp [htodo])
    simp only [State.run, Function.update_self, htodo, List.length_cons]
    omega
  | @arrive p l is hp htodo hlen =>
    refine hsum p hp (fun q hne => by simp [hne]) ?_
    simp only [Function.update_self, htodo, List.length_cons, List.length_append,
      List.length_nil]
    omega
  | @depart p l is hp htodo hlen hall =>
    refine hsum p hp (fun q hne => by simp [hne]) ?_
    simp only [Function.update_self, htodo, List.length_cons]
    omega

/-- **When all scripts have the same meetings, every run can be finished.** -/
theorem Reachable.exists_finished (h : Reachable P m₀ s)
    (hagree : ∀ p ∈ P.parties, ∀ q ∈ P.parties, meets (P.script p) = meets (P.script q)) :
    ∃ s', ReflTransGen (Step P) s s' ∧ Finished P s' := by
  induction hn : remaining P s using Nat.strong_induction_on generalizing s with
  | _ n ih =>
    by_cases hfinished : Finished P s
    · exact ⟨s, .refl, hfinished⟩
    · obtain ⟨s', hstep⟩ := h.exists_step hagree hfinished
      obtain ⟨s'', hreach, hfinished''⟩ :=
        ih _ (hn ▸ hstep.remaining_lt h.sound) (h.tail hstep) rfl
      exact ⟨s'', .head hstep hreach, hfinished''⟩

/-! ## Deadlock -/

/-- **A party stays at a meeting that another does not share.** -/
theorem Reachable.stays (h : Reachable P m₀ s) (hp : p ∈ P.parties) (hq : q ∈ P.parties) {j : ℕ}
    (hl : (meets (P.script p))[j]? = some l) (hne : (meets (P.script q))[j]? ≠ some l) :
    s.left p ≤ j ∧ meets (s.todo p) ≠ [] := by
  have hle : s.left p ≤ j := by
    by_contra hlt
    obtain ⟨done, hat⟩ := h.sound.at_ q
    have hget := h.sound.fence p hp q hq j (Nat.lt_of_not_le hlt)
    exact hne (getElem?_mono hat.arrived_prefix (hget.trans hl))
  refine ⟨hle, fun hnil => ?_⟩
  obtain ⟨done, hat⟩ := h.sound.at_ p
  rw [← hat.script, meets_append, hnil, List.append_nil] at hl
  rw [hat.left] at hle
  exact Nat.not_lt_of_le hle (List.getElem?_eq_some_iff.mp hl).1

/-- **All parties can leave all their meetings exactly if their scripts have the same
meetings.** -/
theorem exists_left_iff : (∃ s, Reachable P m₀ s ∧ ∀ p ∈ P.parties, meets (s.todo p) = []) ↔
    ∀ p ∈ P.parties, ∀ q ∈ P.parties, meets (P.script p) = meets (P.script q) := by
  constructor
  · rintro ⟨s, h, hleft⟩ p hp q hq
    by_contra hne
    obtain ⟨j, hj⟩ : ∃ j, (meets (P.script p))[j]? ≠ (meets (P.script q))[j]? := by
      by_contra hall
      push Not at hall
      exact hne (List.ext_getElem? hall)
    cases hl : (meets (P.script p))[j]? with
    | some l =>
      rw [hl] at hj
      exact (h.stays hp hq hl hj.symm).2 (hleft p hp)
    | none =>
      rw [hl] at hj
      obtain ⟨l, hl'⟩ := Option.ne_none_iff_exists'.mp hj.symm
      exact (h.stays hq hp hl' (by simp [hl])).2 (hleft q hq)
  · intro hagree
    have hstart : Reachable P m₀ (P.start m₀) := .refl
    obtain ⟨s, h, hfinished⟩ := hstart.exists_finished hagree
    exact ⟨s, h, fun p hp => by rw [hfinished p hp]; rfl⟩

end Rendezvous
