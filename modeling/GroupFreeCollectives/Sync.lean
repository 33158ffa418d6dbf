import GroupFreeCollectives.Barrier
import GroupFreeCollectives.DataFlow
import Mathlib.Logic.Relation

/-!
# What the waits of a program wait for

A barrier waits for the token of its peer, a fused kernel for the step values of its
peers.  `TokenEdge` and `SyncEdge` relate a publication to the wait that it is for.  When
both ends of every edge have the same tokens, none of them twice (`Synchronized`), and a
step value is published to a cell by one task only (`StepsSynchronized`), the edges are
sound: no such wait ends before its publication, in any interleaving.  Happens-before is
generated by these edges and by program order, and `Leads` is the part of it within one
rank.
-/

namespace GroupFreeCollectives

open TaskGraph

/-- Memory as the runtime allocates it: zeroed grids, pads and counters, any bytes. -/
structure Memory.Zeroed {α : Type} (m : Memory α) : Prop extends m.Fresh where
  stepPad : ∀ r i, m.stepPad r i = 0

theorem cellNames_zeroed : cellNames.Zeroed where
  signal _ _ := rfl
  edgeSeq _ _ := rfl
  stepPad _ _ := rfl

/-- What makes the barriers of a program meet. -/
structure Synchronized (prog : Program) (W : ℕ) : Prop where
  wellFormed : WellFormed prog W
  symm : ∀ p q, edgeTokens prog p q = edgeTokens prog q p
  ne_zero : ∀ p q i tok, OnEdge prog p q i tok → tok ≠ 0
  nodup : ∀ p q, (edgeTokens prog p q).Nodup

/-- What makes the waits for step values meet their publications. -/
structure StepsSynchronized (prog : Program) : Prop where
  /-- a step value is published to a cell once -/
  unique : ∀ u u', IsTask prog u → IsTask prog u' → ∀ r c v,
    u.op.act = .data (.stepPublish r c v) → u'.op.act = .data (.stepPublish r c v) → u = u'
  ne_zero : ∀ t, IsTask prog t → ∀ cells v, t.op.act = .data (.stepAwait cells v) → v ≠ 0

/-- The publication of a token, and the wait of the peer for it. -/
inductive TokenEdge (prog : Program) : Task → Task → Prop
  | mk {p q i j tok : ℕ} (he : OnEdge prog p q i tok) (hj : OnEdge prog q p j tok) :
      TokenEdge prog (publishTask q j p tok) (awaitTask p i q tok)

/-- A publication and the wait that it is for. -/
inductive SyncEdge (prog : Program) : Task → Task → Prop
  | token {u t : Task} (h : TokenEdge prog u t) : SyncEdge prog u t
  | step {u t : Task} {c v : ℕ} {cells : List ℕ} (hu : IsTask prog u)
      (hpub : u.op.act = .data (.stepPublish t.rank c v))
      (hact : t.op.act = .data (.stepAwait cells v)) (hc : c ∈ cells) : SyncEdge prog u t

variable {prog : Program} {W : ℕ} {α : Type} {m₀ : Memory α} {s : State Task (Memory α)}
  {p q i j tok : ℕ}

namespace Synchronized

theorem edgesAgree (h : Synchronized prog W) : EdgesAgree prog where
  symm := h.symm
  ne_zero := h.ne_zero
  ne_of_two_apart p q n tok tok' hn hn' heq := by
    subst heq
    have hlt := (List.getElem?_eq_some_iff.mp hn).1
    have hidx := (List.getElem?_inj hlt (h.nodup p q)).mp (hn.trans hn'.symm)
    omega

/-- A token stands at the same position on both ends of an edge. -/
theorem edgePos_eq (h : Synchronized prog W) (he : OnEdge prog p q i tok)
    (hj : OnEdge prog q p j tok) : edgePos prog q p j = edgePos prog p q i := by
  have hget := hj.getElem?
  rw [h.symm] at hget
  exact (List.getElem?_inj (List.getElem?_eq_some_iff.mp hget).1 (h.nodup p q)).mp
    (hget.trans he.getElem?.symm)

/-- **No barrier ends before the peers have published their tokens.** -/
theorem tokenSound (h : Synchronized prog W) (hm : m₀.Fresh) :
    SyncSound (device prog α W) m₀ (TokenEdge prog) where
  irrefl := by
    rintro _ ⟨⟩
  mem s hs u t hut ht := by
    obtain ⟨he, hj⟩ := hut
    exact publish_mem_of_await h.wellFormed h.edgesAgree hm hs he ht hj (h.edgePos_eq he hj)

/-- **No wait ends before its publication.** -/
theorem sound (h : Synchronized prog W) (h' : StepsSynchronized prog) (hm : m₀.Zeroed) :
    SyncSound (device prog α W) m₀ (SyncEdge prog) where
  irrefl := by
    rintro t (hut | ⟨hu, hpub, hact, hc⟩)
    · exact (h.tokenSound (α := α) hm.toFresh).irrefl t hut
    · rw [hpub] at hact
      cases hact
  mem s hs u t hut ht := by
    cases hut with
    | token hut => exact (h.tokenSound hm.toFresh).mem s hs u t hut ht
    | @step c v cells hu hpub hact hc =>
      have hv : v ≠ 0 := h'.ne_zero t (hs.task_of_mem ht) cells v hact
      have h0 : m₀.stepPad t.rank c ≠ v := by
        rw [hm.stepPad]
        exact hv.symm
      obtain ⟨w, hw, hwact⟩ := exists_stepPublish_of_stepAwait hs hact hc h0 ht
      rw [h'.unique u w hu (hs.task_of_mem hw) _ _ _ hpub hwact]
      exact hw

end Synchronized

/-! ## Order within a rank -/

/-- Item `i` leads to item `j`: streams and events order them, by way of items that have
something to execute. -/
def Leads (its : List Item) : ℕ → ℕ → Prop :=
  Relation.TransGen fun i j => i < j ∧ ∃ x y, its[i]? = some x ∧ its[j]? = some y ∧
    x.precedes y ∧ x.cmd.ops ≠ []

namespace Leads

variable {its : List Item} {x y : Item} {o o' : Op Act}

theorem of_precedes (hij : i < j) (hi : its[i]? = some x) (hj : its[j]? = some y)
    (h : x.precedes y) (hops : x.cmd.ops ≠ []) : Leads its i j :=
  .single ⟨hij, x, y, hi, hj, h, hops⟩

theorem of_stream (hij : i < j) (hi : its[i]? = some x) (hj : its[j]? = some y)
    (h : x.stream = y.stream) (hops : x.cmd.ops ≠ []) : Leads its i j :=
  of_precedes hij hi hj (Or.inl h) hops

/-- An event that is recorded and then waited for. -/
theorem of_event {e : ℕ} (hij : i < j) (hi : its[i]? = some x) (hj : its[j]? = some y)
    (hcall : x.call = y.call) (hx : x.cmd = .record e) (hy : y.cmd = .wait e) :
    Leads its i j := by
  refine of_precedes hij hi hj (Or.inr (Or.inr ⟨hcall, e, hx, hy⟩)) ?_
  rw [hx]
  exact List.cons_ne_nil _ _

/-- Items enqueued around others change nothing about their order. -/
theorem append (h : Leads its i j) (before after : List Item) :
    Leads (before ++ (its ++ after)) (before.length + i) (before.length + j) := by
  have hget : ∀ {i : ℕ} {x : Item}, its[i]? = some x →
      (before ++ (its ++ after))[before.length + i]? = some x := by
    intro i x hi
    rw [List.getElem?_append_right (Nat.le_add_right _ _), Nat.add_sub_cancel_left,
      List.getElem?_append_left (List.getElem?_eq_some_iff.mp hi).1, hi]
  induction h with
  | single h =>
    obtain ⟨hij, x, y, hi, hj, hxy, hops⟩ := h
    exact of_precedes (Nat.add_lt_add_left hij _) (hget hi) (hget hj) hxy hops
  | tail _ h ih =>
    obtain ⟨hij, x, y, hi, hj, hxy, hops⟩ := h
    exact Relation.TransGen.trans ih
      (of_precedes (Nat.add_lt_add_left hij _) (hget hi) (hget hj) hxy hops)

/-- **Tasks of items that are ordered are ordered.** -/
theorem hb {sync : Task → Task → Prop} (h : Leads (prog p) i j)
    (ht : IsTask prog ⟨p, i, o⟩) : HB (device prog α W) sync ⟨p, i, o⟩ ⟨p, j, o'⟩ := by
  induction h generalizing o' with
  | single h =>
    obtain ⟨hij, x, y, hi, hj, hxy, -⟩ := h
    exact .before ht (Before.of_precedes hij hi hj hxy)
  | @tail k _ _ h ih =>
    obtain ⟨hij, x, y, hi, hj, hxy, hops⟩ := h
    obtain ⟨o₁, ho₁⟩ := List.exists_mem_of_ne_nil _ hops
    have hmid : HB (device prog α W) sync ⟨p, i, o⟩ ⟨p, k, o₁⟩ := ih
    exact hmid.trans (.before ⟨x, hi, ho₁⟩ (Before.of_precedes hij hi hj hxy))

end Leads

end GroupFreeCollectives
