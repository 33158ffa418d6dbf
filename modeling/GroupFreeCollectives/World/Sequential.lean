import GroupFreeCollectives.World.Performs

/-!
# Schedules run as if one exchange happened after another

Let the calls of all ranks be those of one list of exchanges (`Performs`).  The tensors lie
in the memories of the ranks, and calls may use each other's tensors in any way.  Then the
memory of a rank that has done its first `n` calls is what the exchanges, one after another
and each all at once, leave there (`Sequential.heap_eq`), in every state that any interleaving of
the ranks reaches.

A run of `placedDevice` is followed by a run of `device`, in which every call finds in its own
input what the list of exchanges says (`Jobs.unplaced`).  The relation `Tracks` says that the
two agree on what the ranks share, and that a rank which is at its call number `n` has in its
memory what the exchanges before that call leave, but for what this call has stored so far
(`Settled`).  A call that has delivered its output brings the rank to its next call
(`Settled.advance`).
-/

namespace GroupFreeCollectives

open TaskGraph Positions

/-! ## Memories that agree on what the ranks share -/

/-- The communication buffers, the grids and the counters are the same. -/
structure Shares {α : Type} (m m' : Memory α) : Prop where
  comm : ∀ r b, m.byte (.comm r b) = m'.byte (.comm r b)
  signal : m.signal = m'.signal
  stepPad : m.stepPad = m'.stepPad
  edgeSeq : m.edgeSeq = m'.edgeSeq
  slot : m.slot = m'.slot

namespace Shares

variable {α : Type} {m m' : Memory α} {W r : ℕ} {a : Act}

theorem guard_iff (h : Shares m m') : a.guard W r m ↔ a.guard W r m' := by
  rcases a with _ | _ | _ | ⟨_ | _ | _⟩ | _
  case await => simp only [Act.guard, h.signal, h.slot]
  case data.stepAwait => simp only [Act.guard, h.stepPad]
  all_goals exact Iff.rfl

/-- What copies nothing keeps the agreement. -/
theorem effect (h : Shares m m') (ha : ∀ src dst, a ≠ .data (.copy src dst)) :
    Shares (a.effect W r m) (a.effect W r m') := by
  obtain ⟨hcomm, hsignal, hstep, hedge, hslot⟩ := h
  rcases a with _ | _ | _ | ⟨⟨src, dst⟩ | _ | _⟩ | _
  case data.copy => exact absurd rfl (ha src dst)
  all_goals
    constructor <;> simp only [Act.effect, DataAct.effect, hsignal, hstep, hedge, hslot]
    exact hcomm

/-- The same store to a communication buffer keeps the agreement. -/
theorem store_comm (h : Shares m m') (q b : ℕ) (v : α) :
    Shares { m with byte := Function.update m.byte (.comm q b) v }
      { m' with byte := Function.update m'.byte (.comm q b) v } := by
  refine ⟨fun r a => ?_, h.signal, h.stepPad, h.edgeSeq, h.slot⟩
  simp only [Function.update_apply, h.comm]

/-- A store to an output keeps the agreement. -/
theorem store_output (h : Shares m m') (q c y : ℕ) (v : α) :
    Shares m { m' with byte := Function.update m'.byte (.output q c y) v } := by
  refine ⟨fun r a => ?_, h.signal, h.stepPad, h.edgeSeq, h.slot⟩
  have hne : Cell.comm r a ≠ .output q c y := by simp
  exact (h.comm r a).trans (Function.update_of_ne hne v m'.byte).symm

end Shares

/-! ## Where a rank is -/

/-- Rank `p` is at its part number `n`: the kernels of what comes before are done, and nothing
of those that come after. -/
structure World.Current {cfg : Config} {nonce : ℤ} {W : ℕ} (w : World cfg nonce W) (p n : ℕ)
    (done : List Task) : Prop where
  le : n ≤ (w.parts p).length
  before : ∀ k < n, ∀ c m op, (w.parts p)[k]? = some c → HasOp c.items m op →
    w.task p k m op ∈ done
  after : ∀ k, n < k → ∀ c m op, (w.parts p)[k]? = some c → HasOp c.items m op →
    w.task p k m op ∉ done

/-- The memory of rank `p`, which is at its part number `n`: what the exchanges before leave,
but for what the part stores to. -/
structure Settled {cfg : Config} {nonce : ℤ} {W : ℕ} (J : Jobs cfg nonce W) (xs : List Exchange)
    {α : Type} (h₀ : Heaps α) (p n : ℕ) (x : PlacedMemory α) (m : Memory α) : Prop where
  rest : ∀ k, turns xs p k = n → ∀ a, ¬ J.StoresTo p n a →
    x.heap p a = runAll (xs.take k) h₀ p a
  output : ∀ c, (J.parts p)[n]? = some c → ∀ y,
    x.heap p (J.placement.output p c.call + y) = m.byte (.output p c.call y)

/-- The run of `device` that a run of `placedDevice` is followed by. -/
structure Tracks {cfg : Config} {nonce : ℤ} {W : ℕ} (J : Jobs cfg nonce W)
    (htok : J.TokensDistinct) (xs : List Exchange) {α : Type} (h₀ : Heaps α)
    (x : State Task (PlacedMemory α)) (s : State Task (Memory α)) : Prop where
  done : x.done = s.done
  shares : Shares x.mem.device s.mem
  settled : ∀ p n, (J.world htok).Current p n s.done → Settled J xs h₀ p n x.mem s.mem

section Track

variable {cfg : Config} {nonce : ℤ} {W : ℕ} {J : Jobs cfg nonce W} {xs : List Exchange}
  {α : Type} {m₀ x : PlacedMemory α} {s : State Task (Memory α)} {p n n' : ℕ}
  {c : Contribution} (hxs : J.Performs xs) (htok : J.TokensDistinct)
  (hsteps : (J.world htok).StepsFresh) (hm : m₀.device.Zeroed)

/-- The output of a part that has not started. -/
theorem Jobs.output_of_fresh {y : ℕ}
    (hs : Reachable (device J.program α W) (J.unplaced xs m₀) s) (hc : (J.parts p)[n]? = some c)
    (hfresh : ∀ m op, HasOp c.items m op → (J.world htok).task p n m op ∉ s.done) :
    s.mem.byte (.output p c.call y) =
      runAll (xs.take (position cfg xs c.op)) m₀.heap p (J.placement.output p c.call + y) := by
  rcases hs.last_writer (fun m => m.byte (.output p c.call y)) (World.Stores (.output p c.call y))
    (World.stores_frame (w := J.world htok)) with ⟨hval, -⟩ | ⟨u, s', hstores, hmem, -⟩
  · refine hval.trans ?_
    show J.before xs m₀.heap p c.call _ = _
    rw [before_eq hc]
  · obtain ⟨m, op, src, hop, rfl, -⟩ := World.exists_of_stores_output (w := J.world htok) hc
      (hs.task_of_mem hmem) hstores
    exact absurd hmem (hfresh m op hop)

include hxs hsteps hm

/-- The memory of a rank whose part is done. -/
theorem Settled.of_copied (hsettled : Settled J xs m₀.heap p n x s.mem)
    (hs : Reachable (device J.program α W) (J.unplaced xs m₀) s) (hc : (J.parts p)[n]? = some c)
    (hcopied : (J.world htok).Copied s p n c) (a : ℕ) :
    x.heap p a = runAll (xs.take (Jobs.position cfg xs c.op + 1)) m₀.heap p a := by
  obtain ⟨e, -, -, he, -, hturn, -⟩ := hxs.exists_fits hc
  by_cases ha : J.StoresTo p n a
  · obtain ⟨c', m, op, src, y, hc', hop, hact, rfl⟩ := ha
    obtain rfl : c = c' := Option.some_inj.mp (hc.symm.trans hc')
    rw [hsettled.output c hc, Jobs.delivered hxs htok hsteps hm hs hc hcopied hop hact]
  · rw [hsettled.rest _ hturn a ha, runAll_take_succ he,
      Jobs.apply_of_not_storesTo hxs htok hc he ha]

/-- **A part that is done brings its rank to the next one.** -/
theorem Settled.advance (hsettled : Settled J xs m₀.heap p n x s.mem)
    (hs : Reachable (device J.program α W) (J.unplaced xs m₀) s) (hc : (J.parts p)[n]? = some c)
    (hcopied : (J.world htok).Copied s p n c)
    (hfresh : ∀ c m op, (J.parts p)[n + 1]? = some c → HasOp c.items m op →
      (J.world htok).task p (n + 1) m op ∉ s.done) :
    Settled J xs m₀.heap p (n + 1) x s.mem := by
  obtain ⟨e, -, -, he, -, hturn, -⟩ := hxs.exists_fits hc
  have hmem : p ∈ e.ranks := by
    have hranks : e.ranks = c.op.ranks := congrArg Request.ranks (hxs.toRequest_eq hc he)
    rw [hranks]
    exact (World.toPart (w := J.world htok) hc).mem
  have hnext : turns xs p (Jobs.position cfg xs c.op + 1) = n + 1 := by
    rw [turns_succ he hmem, hturn]
  constructor
  · intro k hk a _
    rw [hsettled.of_copied hxs htok hsteps hm hs hc hcopied a,
      runAll_take_congr (hnext.trans hk.symm)]
  · intro c' hc' y
    obtain ⟨-, -, -, -, -, hturn', -⟩ := hxs.exists_fits hc'
    rw [hsettled.of_copied hxs htok hsteps hm hs hc hcopied,
      Jobs.output_of_fresh htok hs hc' fun m op => hfresh c' m op hc',
      runAll_take_congr (hnext.trans hturn'.symm)]

/-- A rank that is at one part and also at a later one, since there is nothing in between. -/
theorem Settled.of_le (hsettled : Settled J xs m₀.heap p n x s.mem)
    (hs : Reachable (device J.program α W) (J.unplaced xs m₀) s)
    (hcur : (J.world htok).Current p n s.done) (hcur' : (J.world htok).Current p n' s.done)
    (hle : n ≤ n') : Settled J xs m₀.heap p n' x s.mem := by
  induction n', hle using Nat.le_induction with
  | base => exact hsettled
  | succ k hle ih =>
    have hlt : k < (J.parts p).length := hcur'.le
    have hmid : (J.world htok).Current p k s.done :=
      ⟨Nat.le_of_lt hlt, fun l hl => hcur'.before l (Nat.lt_succ_of_lt hl),
        fun l hl => hcur.after l (Nat.lt_of_le_of_lt hle hl)⟩
    have hc := List.getElem?_eq_getElem hlt
    exact (ih hmid).advance hxs htok hsteps hm hs hc
      (fun m op hop => hcur'.before k (Nat.lt_succ_self k) _ m op hc hop)
      fun c m op hc' hop => hcur.after _ (Nat.lt_succ_of_le hle) c m op hc' hop

end Track

/-! ## A firing of the run that is followed -/

section Fire

variable {cfg : Config} {nonce : ℤ} {W : ℕ} {J : Jobs cfg nonce W} {xs : List Exchange}
  {α : Type} {m₀ : PlacedMemory α} {x : State Task (PlacedMemory α)}
  {s : State Task (Memory α)} {t : Task} {p n n' m : ℕ} {c : Contribution} {op : Op DataAct}
  {src dst : Cell} (hxs : J.Performs xs) {htok : J.TokensDistinct}
  (hsteps : (J.world htok).StepsFresh) (hm : m₀.device.Zeroed)

/-- What can run on placed tensors can run in the run that is followed. -/
theorem Tracks.enabled (h : Tracks J htok xs m₀.heap x s)
    (hen : Enabled (placedDevice J.placement J.program α W) x t) :
    Enabled (device J.program α W) s t where
  task := hen.task
  fresh := h.done ▸ hen.fresh
  ready u hu hut := h.done ▸ hen.ready u hu hut
  guard := h.shares.guard_iff.mp hen.guard

/-- Conversely, what can run in the run that is followed can run on placed tensors. -/
theorem Tracks.placed_enabled (h : Tracks J htok xs m₀.heap x s)
    (hen : Enabled (device J.program α W) s t) :
    Enabled (placedDevice J.placement J.program α W) x t where
  task := hen.task
  fresh := h.done ▸ hen.fresh
  ready u hu hut := h.done ▸ hen.ready u hu hut
  guard := h.shares.guard_iff.mpr hen.guard

include hm in
/-- A rank is at the part of a kernel that can run. -/
theorem current_of_enabled (hs : Reachable (device J.program α W) (J.unplaced xs m₀) s)
    (hc : (J.parts p)[n]? = some c) (hop : HasOp c.items m op)
    (hen : Enabled (device J.program α W) s ((J.world htok).task p n m op)) :
    (J.world htok).Current p n s.done where
  le := Nat.le_of_lt (List.getElem?_eq_some_iff.mp hc).1
  before _ hk _ _ _ hc' hop' :=
    World.mem_done_of_lt (Jobs.unplaced_zeroed hm).toFresh hs hc' hop' hc hop hen hk
  after _ hk _ _ _ hc' hop' hdone := hen.fresh
    (World.mem_done_of_mem_done (Jobs.unplaced_zeroed hm).toFresh hs hc hop hc' hop' hdone hk)

include hxs hsteps hm in
/-- **The relation is kept** by a task that keeps what the ranks share and the memories of the
ranks at their parts. -/
theorem Tracks.fire (h : Tracks J htok xs m₀.heap x s)
    (hs : Reachable (device J.program α W) (J.unplaced xs m₀) s)
    (hen : Enabled (device J.program α W) s t) {y : PlacedMemory α} {m' : Memory α}
    (hm' : m' = t.op.act.effect W t.rank s.mem) (hshares : Shares y.device m')
    (hkeep : ∀ p n, Settled J xs m₀.heap p n x.mem s.mem →
      (∀ k c m op, (J.parts p)[k]? = some c → HasOp c.items m op →
        t = (J.world htok).task p k m op → k = n) → Settled J xs m₀.heap p n y m') :
    Tracks J htok xs m₀.heap ⟨t :: x.done, y⟩ ⟨t :: s.done, m'⟩ := by
  subst hm'
  have hs' := hs.fire hen
  refine ⟨by rw [h.done], hshares, fun p n' hcur' => ?_⟩
  by_cases hkernel : ∃ n c m op, (J.parts p)[n]? = some c ∧ HasOp c.items m op ∧
      t = (J.world htok).task p n m op
  · obtain ⟨n, c, m, op, hc, hop, rfl⟩ := hkernel
    have htask : ∀ {k c' m' op'}, (J.parts p)[k]? = some c' → HasOp c'.items m' op' →
        (J.world htok).task p n m op = (J.world htok).task p k m' op' → k = n :=
      fun hc' hop' heq => (World.eq_of_task_eq hc hop hc' hop' heq).1.symm
    have hcur := current_of_enabled hm hs hc hop hen
    have hcur₁ : (J.world htok).Current p n ((J.world htok).task p n m op :: s.done) := by
      refine ⟨hcur.le, fun k hk c' m' op' hc' hop' =>
        List.mem_cons_of_mem _ (hcur.before k hk c' m' op' hc' hop'),
        fun k hk c' m' op' hc' hop' hmem => ?_⟩
      rcases List.mem_cons.mp hmem with heq | hmem
      · exact absurd (htask hc' hop' heq.symm) (Nat.ne_of_gt hk)
      · exact hcur.after k hk c' m' op' hc' hop' hmem
    have hle : n ≤ n' := by
      by_contra hlt
      exact hcur'.after n (Nat.lt_of_not_le hlt) c m op hc hop List.mem_cons_self
    exact (hkeep p n (h.settled p n hcur) fun _ _ _ _ hc' hop' heq =>
      htask hc' hop' heq).of_le (s := ⟨_ :: s.done, _⟩) hxs htok hsteps hm hs' hcur₁ hcur' hle
  · have hcur : (J.world htok).Current p n' s.done := by
      refine ⟨hcur'.le, fun k hk c' m' op' hc' hop' => ?_, fun k hk c' m' op' hc' hop' hmem =>
        hcur'.after k hk c' m' op' hc' hop' (List.mem_cons_of_mem _ hmem)⟩
      rcases List.mem_cons.mp (hcur'.before k hk c' m' op' hc' hop') with heq | hmem
      · exact absurd ⟨k, c', m', op', hc', hop', heq.symm⟩ hkernel
      · exact hmem
    exact hkeep p n' (h.settled p n' hcur) fun k c' m' op' hc' hop' heq =>
      absurd ⟨k, c', m', op', hc', hop', heq⟩ hkernel

/-- The relation, after a store to a communication buffer. -/
theorem Settled.store_comm {y : PlacedMemory α} {m' : Memory α}
    (h : Settled J xs m₀.heap p n y m') {d : Memory α} (q b : ℕ) (v : α) :
    Settled J xs m₀.heap p n { y with device := d }
      { m' with byte := Function.update m'.byte (.comm q b) v } := by
  refine ⟨h.rest, fun c hc a => ?_⟩
  have hne : Cell.output p c.call a ≠ .comm q b := by simp
  exact (h.output c hc a).trans (Function.update_of_ne hne v m'.byte).symm

/-- The relation, after a store of the part to its output. -/
theorem Settled.store_output {y : PlacedMemory α} {m' : Memory α} {q a : ℕ}
    (h : Settled J xs m₀.heap p n y m') (hc : (J.parts q)[n']? = some c) (hop : HasOp c.items m op)
    (hact : op.act = .copy src (.output q c.call a)) (hn : q = p → n' = n) (v : α) :
    Settled J xs m₀.heap p n (y.storeHeap q (J.placement.output q c.call + a) v)
      { m' with byte := Function.update m'.byte (.output q c.call a) v } := by
  by_cases hq : q = p
  · subst hq
    obtain rfl := hn rfl
    constructor
    · intro k hk b hb
      have hne : b ≠ J.placement.output q c.call + a := by
        rintro rfl
        exact hb ⟨c, m, op, src, a, hc, hop, hact, rfl⟩
      simp only [PlacedMemory.storeHeap, Function.update_self, Function.update_of_ne hne]
      exact h.rest k hk b hb
    · intro c' hc' b
      obtain rfl : c = c' := Option.some_inj.mp (hc.symm.trans hc')
      by_cases hb : b = a
      · subst hb
        simp only [PlacedMemory.storeHeap, Function.update_self]
      · have hne : J.placement.output q c.call + b ≠ J.placement.output q c.call + a := by omega
        simp only [PlacedMemory.storeHeap, Function.update_self, Function.update_of_ne hne]
        exact (h.output c hc b).trans (Function.update_of_ne (by simpa using hb) v m'.byte).symm
  · have hne : p ≠ q := fun heq => hq heq.symm
    constructor
    · intro k hk b hb
      simp only [PlacedMemory.storeHeap, Function.update_of_ne hne]
      exact h.rest k hk b hb
    · intro c' hc' b
      simp only [PlacedMemory.storeHeap, Function.update_of_ne hne]
      exact (h.output c' hc' b).trans (Function.update_of_ne (by simp [hne]) v m'.byte).symm

variable (hapart : ∀ p, ∀ j ∈ J.jobs p, j.Apart)
include hxs hm hapart

/-- **A copy of a call loads what it loads in the run that is followed.** -/
theorem Tracks.load_eq (h : Tracks J htok xs m₀.heap x s)
    (hs : Reachable (device J.program α W) (J.unplaced xs m₀) s)
    (hc : (J.parts p)[n]? = some c) (hop : HasOp c.items m op) (hact : op.act = .copy src dst)
    (hen : Enabled (device J.program α W) s ((J.world htok).task p n m op)) :
    x.mem.load J.placement src = s.mem.byte src := by
  have hsettled := h.settled p n (current_of_enabled hm hs hc hop hen)
  obtain ⟨-, j, e, -, -, hturn, hj, hvalid, hrank, hceq⟩ := hxs.exists_fits hc
  -- the part does not store to what it reads
  have hinput : ∀ {b : ℕ}, src = .input p c.call b →
      x.mem.heap p (J.placement.input p c.call + b) = s.mem.byte (.input p c.call b) := by
    rintro b rfl
    rw [World.input_eq (w := J.world htok) hs]
    show _ = J.before xs m₀.heap p c.call _
    rw [Jobs.before_eq hc]
    refine hsettled.rest _ hturn _ ?_
    rintro ⟨c', m', op', src', y, hc', hop', hact', heq⟩
    obtain rfl : c = c' := Option.some_inj.mp (hc.symm.trans hc')
    subst hceq
    obtain ⟨t, ht⟩ := hvalid.exists_inputTensor hop hact
    obtain ⟨t', ht'⟩ := hvalid.exists_outputTensor hop' hact'
    rw [Jobs.placement_input hj ht, Jobs.placement_output hj ht'] at heq
    rw [← hrank] at hact'
    exact hvalid.addr_ne (hapart p j (List.mem_of_getElem? hj)) ht ht' hop hact hop' hact' heq
  cases (World.toPart (w := J.world htok) hc).copy_form m op hop src dst hact with
  | stage => exact hinput rfl
  | own => exact hinput rfl
  | pull => exact h.shares.comm _ _
  | put => exact h.shares.comm _ _

include hsteps

/-- **Every task keeps the relation.** -/
theorem Tracks.fire_task (h : Tracks J htok xs m₀.heap x s)
    (hs : Reachable (device J.program α W) (J.unplaced xs m₀) s)
    (hen : Enabled (device J.program α W) s t) :
    Tracks J htok xs m₀.heap ((placedDevice J.placement J.program α W).fire x t)
      ((device J.program α W).fire s t) := by
  by_cases hcopy : ∃ src dst, t.op.act = .data (.copy src dst)
  · obtain ⟨src, dst, hact⟩ := hcopy
    obtain ⟨n, c, m, op, hc, hop, heq, hd⟩ :=
      World.exists_of_isTask (w := J.world htok) hen.task hact
    have hload : x.mem.load J.placement src = s.mem.byte src := by
      rw [heq] at hen
      exact h.load_eq hxs hm hapart hs hc hop hd hen
    have hy : (placedDevice J.placement J.program α W).effect x.mem t =
        x.mem.put J.placement (s.mem.byte src) dst := by
      show t.op.act.placedEffect J.placement W t.rank x.mem = _
      rw [hact, ← hload]
      rfl
    have hm' : { s.mem with byte := Function.update s.mem.byte dst (s.mem.byte src) } =
        t.op.act.effect W t.rank s.mem := by
      rw [hact]
      rfl
    show Tracks J htok xs m₀.heap
      ⟨t :: x.done, (placedDevice J.placement J.program α W).effect x.mem t⟩
      ⟨t :: s.done, t.op.act.effect W t.rank s.mem⟩
    rw [hy, ← hm']
    have hform := (World.toPart (w := J.world htok) hc).copy_form m op hop src dst hd
    have hcases : (∃ q b, dst = .comm q b) ∨ ∃ a, dst = .output t.rank c.call a := by
      cases hform with
      | stage => exact Or.inl ⟨_, _, rfl⟩
      | own => exact Or.inr ⟨_, rfl⟩
      | pull => exact Or.inr ⟨_, rfl⟩
      | put => exact Or.inl ⟨_, _, rfl⟩
    rcases hcases with ⟨q, b, rfl⟩ | ⟨a, rfl⟩
    · exact h.fire hxs hsteps hm hs hen hm' (h.shares.store_comm q b _) fun p n hsettled _ =>
        hsettled.store_comm q b _
    · refine h.fire hxs hsteps hm hs hen hm' (h.shares.store_output _ _ a _)
        fun p n' hsettled huniq => hsettled.store_output hc hop hd (fun hp => ?_) _
      subst hp
      exact huniq n c m op hc hop heq
  · have hne : ∀ src dst, t.op.act ≠ .data (.copy src dst) :=
      fun src dst heq => hcopy ⟨src, dst, heq⟩
    have hbyte : ∀ {r a} {m : Memory α} {cell : Cell}, t.op.act = a →
        (a.effect W r m).byte cell = m.byte cell := by
      rintro r a m cell rfl
      refine byte_effect_of_not_writes fun hw => ?_
      obtain ⟨src, heq⟩ := Act.exists_of_writesByte hw
      exact hne _ _ heq
    have hplaced : t.op.act.placedEffect J.placement W t.rank x.mem =
        { x.mem with device := t.op.act.effect W t.rank x.mem.device } := by
      unfold Act.placedEffect
      split
      case h_1 src dst heq => exact absurd heq (hne src dst)
      case h_2 => rfl
    show Tracks J htok xs m₀.heap ⟨t :: x.done, t.op.act.placedEffect J.placement W t.rank x.mem⟩ _
    rw [hplaced]
    refine h.fire hxs hsteps hm hs hen rfl (h.shares.effect hne) fun p n hsettled _ =>
      ⟨hsettled.rest, fun c hc a => ?_⟩
    rw [hsettled.output c hc]
    exact (hbyte rfl).symm

end Fire

/-! ## Runs -/

section Runs

variable {cfg : Config} {nonce : ℤ} {W : ℕ} {J : Jobs cfg nonce W} {xs : List Exchange}
  {α : Type} {m₀ : PlacedMemory α} {x : State Task (PlacedMemory α)}
  {s : State Task (Memory α)} {p k n : ℕ} (hxs : J.Performs xs) (htok : J.TokensDistinct)
  (hsteps : (J.world htok).StepsFresh) (hm : m₀.device.Zeroed)

include hxs in
/-- A rank has as many calls as exchanges. -/
theorem Jobs.Performs.turns_length : turns xs p xs.length = (J.jobs p).length := by
  rw [turns, List.take_length, List.countP_eq_length_filter, (hxs p).length_eq]

include hxs in
theorem Jobs.Performs.turns_le : turns xs p k ≤ (J.jobs p).length := by
  rw [← hxs.turns_length]
  exact ((List.take_sublist k xs).countP_le).trans (by rw [turns, List.take_length])

/-- Rank `p` has done the kernels of its first `n` calls and nothing of those of the others. -/
structure Jobs.At (J : Jobs cfg nonce W) (p n : ℕ) (done : List Task) : Prop where
  before : ∀ j ∈ (J.jobs p).take n, ∀ t, IsKernelTask J.program p j.call t → t ∈ done
  after : ∀ j ∈ (J.jobs p).drop n, ∀ t, IsKernelTask J.program p j.call t → t ∉ done

include hxs hsteps hm in
/-- The relation holds at first. -/
theorem tracks_init : Tracks J htok xs m₀.heap ⟨[], m₀⟩ ⟨[], J.unplaced xs m₀⟩ := by
  refine ⟨rfl, ⟨fun _ _ => rfl, rfl, rfl, rfl, rfl⟩, fun p n hcur => ?_⟩
  have hstart : ∀ {k}, turns xs p k = 0 → runAll (xs.take k) m₀.heap p = m₀.heap p := by
    intro k hk
    have hcongr := runAll_take_congr (h := m₀.heap) (p := p)
      (show turns xs p k = turns xs p 0 from hk)
    rwa [List.take_zero] at hcongr
  have hzero : Settled J xs m₀.heap p 0 m₀ (J.unplaced xs m₀) := by
    refine ⟨fun k hk a _ => by rw [hstart hk], fun c hc y => ?_⟩
    obtain ⟨-, -, -, -, -, hturn, -⟩ := hxs.exists_fits hc
    show _ = J.before xs m₀.heap p c.call _
    rw [Jobs.before_eq hc, hstart hturn]
  exact hzero.of_le (s := ⟨[], J.unplaced xs m₀⟩) hxs htok hsteps hm .init
    ⟨Nat.zero_le _, fun _ h => absurd h (Nat.not_lt_zero _), fun _ _ _ _ _ _ _ => List.not_mem_nil⟩
    hcur (Nat.zero_le n)

variable (hapart : ∀ p, ∀ j ∈ J.jobs p, j.Apart)
include hxs hsteps hm hapart

/-- **Every run with placed tensors is followed by a run in which every call has tensors of its
own.** -/
theorem exists_tracks (hx : Reachable (placedDevice J.placement J.program α W) m₀ x) :
    ∃ s, Reachable (device J.program α W) (J.unplaced xs m₀) s ∧
      Tracks J htok xs m₀.heap x s :=
  hx.exists_follower (tracks_init hxs htok hsteps hm) fun _ _ _ _ hen hs h =>
    Or.inr ⟨_, h.enabled hen, h.fire_task hxs hsteps hm hapart hs (h.enabled hen)⟩

/-- **The memory of a rank between two calls.** -/
theorem heap_eq (hx : Reachable (placedDevice J.placement J.program α W) m₀ x)
    (hat : J.At p (turns xs p k) x.done) : x.mem.heap p = runAll (xs.take k) m₀.heap p := by
  obtain ⟨s, hs, h⟩ := exists_tracks hxs htok hsteps hm hapart hx
  rw [h.done] at hat
  have hcall : ∀ {n c m op}, (J.parts p)[n]? = some c → HasOp c.items m op →
      ∃ j, (J.jobs p)[n]? = some j ∧
        IsKernelTask J.program p j.call ((J.world htok).task p n m op) := by
    intro n c m op hc hop
    obtain ⟨j, e, hj, rfl⟩ := Jobs.exists_job hc
    exact ⟨j, hj, Jobs.isKernelTask_task hc hop⟩
  have hfresh : ∀ {n c m op}, turns xs p k ≤ n → (J.parts p)[n]? = some c → HasOp c.items m op →
      (J.world htok).task p n m op ∉ s.done := by
    intro n c m op hn hc hop
    obtain ⟨j, hj, ht⟩ := hcall hc hop
    refine hat.after j (List.mem_of_getElem? (i := n - turns xs p k) ?_) _ ht
    rw [List.getElem?_drop, Nat.add_sub_cancel' hn, hj]
  have hcur : (J.world htok).Current p (turns xs p k) s.done := by
    refine ⟨?_, fun n hn c m op hc hop => ?_, fun n hn c m op => hfresh (Nat.le_of_lt hn)⟩
    · show _ ≤ (J.parts p).length
      rw [Jobs.parts, length_contributions]
      exact hxs.turns_le
    · obtain ⟨j, hj, ht⟩ := hcall hc hop
      refine hat.before j (List.mem_of_getElem? (i := n) ?_) _ ht
      rw [List.getElem?_take_of_lt hn, hj]
  have hsettled := h.settled p _ hcur
  funext a
  by_cases ha : J.StoresTo p (turns xs p k) a
  · obtain ⟨c, m, op, src, y, hc, hop, hact, rfl⟩ := ha
    obtain ⟨-, -, -, -, -, hturn, -⟩ := hxs.exists_fits hc
    rw [hsettled.output c hc, Jobs.output_of_fresh htok hs hc fun m op => hfresh (Nat.le_refl _) hc,
      runAll_take_congr hturn]
  · exact hsettled.rest k rfl a ha

/-- The memories of all ranks when everything is done. -/
theorem heap_eq_of_finished (hx : Reachable (placedDevice J.placement J.program α W) m₀ x)
    (hfinished : Finished (placedDevice J.placement J.program α W) x) :
    x.mem.heap = runAll xs m₀.heap := by
  funext p
  have hat : J.At p (turns xs p xs.length) x.done := by
    rw [hxs.turns_length]
    refine ⟨fun j _ t ht => hfinished t ?_, fun j hj => ?_⟩
    · obtain ⟨rfl, it, ops, hit, -, -, ho⟩ := ht
      exact ⟨it, hit, ho⟩
    · rw [List.drop_length] at hj
      cases hj
  rw [heap_eq hxs htok hsteps hm hapart hx hat, List.take_length]

end Runs

namespace Sessions

variable {cfg : Config} {nonce : ℤ} {W : ℕ} {S : Sessions cfg nonce W} {xs : List Exchange}
  {α : Type} {m₀ : PlacedMemory α} {s : State Task (PlacedMemory α)}

/-- From every state that is reached everything can be done. -/
theorem placed_exists_finished (hxs : S.toJobs.Performs xs) (htok : S.toJobs.TokensDistinct)
    (hsteps : (S.toJobs.world htok).StepsFresh) (hapart : ∀ p, ∀ j ∈ S.toJobs.jobs p, j.Apart)
    (hm : m₀.device.Zeroed)
    (hs : Reachable (placedDevice S.toJobs.placement S.program α W) m₀ s) :
    ∃ s', Reachable (placedDevice S.toJobs.placement S.program α W) m₀ s' ∧
      Finished (placedDevice S.toJobs.placement S.program α W) s' ∧ ∀ t ∈ s.done, t ∈ s'.done := by
  rw [S.program_eq] at hs ⊢
  refine hs.exists_finished ?_ fun x hx hnot => ?_
  · show {t | (device S.toJobs.program α W).task t}.Finite
    rw [← S.program_eq]
    exact finite_tasks fun _ hp => program_eq_nil hp
  · obtain ⟨s, hs, h⟩ := exists_tracks hxs htok hsteps hm hapart hx
    have hnot' : ¬ Finished (device S.toJobs.program α W) s := by
      intro hfinished
      refine hnot fun t ht => ?_
      rw [h.done]
      exact hfinished t ht
    rw [← S.program_eq] at hs hnot'
    obtain ⟨t, hen⟩ := exists_enabled hxs.follows htok (Jobs.unplaced_zeroed hm) hs hnot'
    rw [S.program_eq] at hen
    exact ⟨t, h.placed_enabled hen⟩

/-- **A schedule runs as if its exchanges happened one after another**, each all at once,
whatever data paths the calls take, whatever tensors they share, and however the ranks'
streams interleave. -/
theorem runs_in_sequence (hxs : S.toJobs.Performs xs) (htok : S.toJobs.TokensDistinct)
    (hsteps : (S.toJobs.world htok).StepsFresh) (hapart : ∀ p, ∀ j ∈ S.toJobs.jobs p, j.Apart)
    (hm : m₀.device.Zeroed)
    (hs : Reachable (placedDevice S.toJobs.placement S.program α W) m₀ s) :
    (∀ p k, S.toJobs.At p (turns xs p k) s.done →
      s.mem.heap p = runAll (xs.take k) m₀.heap p) ∧
    (Finished (placedDevice S.toJobs.placement S.program α W) s →
      s.mem.heap = runAll xs m₀.heap) ∧
    ∃ s', Reachable (placedDevice S.toJobs.placement S.program α W) m₀ s' ∧
      Finished (placedDevice S.toJobs.placement S.program α W) s' ∧ ∀ t ∈ s.done, t ∈ s'.done := by
  refine ⟨?_, ?_, placed_exists_finished hxs htok hsteps hapart hm hs⟩
  · rw [S.program_eq] at hs
    exact fun p k => heap_eq hxs htok hsteps hm hapart hs
  · rw [S.program_eq] at hs ⊢
    exact heap_eq_of_finished hxs htok hsteps hm hapart hs

/-- **The configuration does not matter**: two worlds whose exchanges move the same bytes end
with the same memories, whatever their configurations, autotune tables, nonces, data paths and
protocols, and however the ranks of each interleave. -/
theorem same_memory {cfg' : Config} {nonce' : ℤ} {W' : ℕ} {S' : Sessions cfg' nonce' W'}
    {xs' : List Exchange} {m₀' : PlacedMemory α} {s' : State Task (PlacedMemory α)}
    (hsame : List.Forall₂ Exchange.SameMove xs xs') (hheap : m₀.heap = m₀'.heap)
    (hxs : S.toJobs.Performs xs) (htok : S.toJobs.TokensDistinct)
    (hsteps : (S.toJobs.world htok).StepsFresh) (hapart : ∀ p, ∀ j ∈ S.toJobs.jobs p, j.Apart)
    (hm : m₀.device.Zeroed)
    (hs : Reachable (placedDevice S.toJobs.placement S.program α W) m₀ s)
    (hfinished : Finished (placedDevice S.toJobs.placement S.program α W) s)
    (hxs' : S'.toJobs.Performs xs') (htok' : S'.toJobs.TokensDistinct)
    (hsteps' : (S'.toJobs.world htok').StepsFresh)
    (hapart' : ∀ p, ∀ j ∈ S'.toJobs.jobs p, j.Apart) (hm' : m₀'.device.Zeroed)
    (hs' : Reachable (placedDevice S'.toJobs.placement S'.program α W') m₀' s')
    (hfinished' : Finished (placedDevice S'.toJobs.placement S'.program α W') s') :
    s.mem.heap = s'.mem.heap := by
  rw [S.program_eq] at hs hfinished
  rw [S'.program_eq] at hs' hfinished'
  calc s.mem.heap = runAll xs m₀.heap := heap_eq_of_finished hxs htok hsteps hm hapart hs hfinished
    _ = runAll xs' m₀'.heap := by rw [runAll_congr hsame, hheap]
    _ = s'.mem.heap := (heap_eq_of_finished hxs' htok' hsteps' hm' hapart' hs' hfinished').symm

end Sessions

/-! ## Two ranks -/

section Pair

/-- What two ranks do together in their jobs `j` and `j'`. -/
def pairExchange (j j' : Job) : Exchange where
  toRequest := j.request
  input p := (if p = 0 then j else j').inputTensor.elim 0 Tensor.dataPtr
  output p := (if p = 0 then j else j').outputTensor.elim 0 Tensor.dataPtr

/-- The exchanges of two ranks. -/
def pairExchanges (a b : List Runtime.Call) : List Exchange :=
  (((pairRank 0).jobsOf a).zip ((pairRank 1).jobsOf b)).map fun x => pairExchange x.1 x.2

theorem pairExchange_fits_zero {j j' : Job} : j.Fits 0 (pairExchange j j') where
  request := rfl
  input t ht := by simp [pairExchange, Option.mem_def.mp ht]
  output t ht := by simp [pairExchange, Option.mem_def.mp ht]

theorem pairExchange_fits_one {j j' : Job} (h : j.request = j'.request) :
    j'.Fits 1 (pairExchange j j') where
  request := h
  input t ht := by simp [pairExchange, Option.mem_def.mp ht]
  output t ht := by simp [pairExchange, Option.mem_def.mp ht]

/-- Jobs of two ranks with the same requests fit their exchanges. -/
theorem forall₂_pairExchange {js js' : List Job}
    (h : js.map Job.request = js'.map Job.request) :
    List.Forall₂ (Job.Fits 0) js ((js.zip js').map fun x => pairExchange x.1 x.2) ∧
      List.Forall₂ (Job.Fits 1) js' ((js.zip js').map fun x => pairExchange x.1 x.2) := by
  induction js generalizing js' with
  | nil =>
    obtain rfl : js' = [] := by simpa using h.symm
    exact ⟨.nil, .nil⟩
  | cons j js ih =>
    cases js' with
    | nil => cases h
    | cons j' js' =>
      obtain ⟨hj, hjs⟩ := List.cons.inj h
      obtain ⟨h₀, h₁⟩ := ih hjs
      exact ⟨.cons pairExchange_fits_zero h₀, .cons (pairExchange_fits_one hj) h₁⟩

variable {a b : List Runtime.Call}

theorem PairChecked.performs (h : PairChecked a b) :
    h.sessions.toJobs.Performs (pairExchanges a b) := by
  have hranks : ∀ x ∈ pairExchanges a b, x.ranks = [0, 1] := by
    intro x hx
    obtain ⟨y, hy, rfl⟩ := List.mem_map.mp hx
    exact h.ranks_eq _ (List.mem_map_of_mem (List.of_mem_zip hy).1)
  obtain ⟨h₀, h₁⟩ := forall₂_pairExchange h.same
  have hfilter : ∀ p < 2, (pairExchanges a b).filter (p ∈ ·.ranks) = pairExchanges a b := by
    intro p hp
    refine List.filter_eq_self.mpr fun x hx => ?_
    rw [hranks x hx]
    interval_cases p <;> rfl
  rintro (_ | _ | p)
  · rw [hfilter 0 Nat.two_pos]
    exact h₀
  · rw [hfilter 1 Nat.one_lt_two]
    exact h₁
  · have hnil : (pairExchanges a b).filter (p + 2 ∈ ·.ranks) = [] := by
      refine List.filter_eq_nil_iff.mpr fun x hx => ?_
      rw [hranks x hx]
      simp
    rw [hnil]
    exact .nil

theorem PairChecked.apart (h : PairChecked a b)
    (hall : ∀ p < 2, ∀ j ∈ (pairRank p).jobsOf (callsOf a b p), j.Apart) (p : ℕ) :
    ∀ j ∈ h.sessions.toJobs.jobs p, j.Apart := by
  by_cases hp : p < 2
  · exact hall p hp
  · rw [h.sessions.toJobs.jobs_eq_nil p (Nat.le_of_not_lt hp)]
    exact List.forall_mem_nil _

/-- Sessions of two ranks that do not take the fused path. -/
theorem PairChecked.stepsFresh (h : PairChecked a b) (htok : h.sessions.toJobs.TokensDistinct)
    (hall : ∀ p < 2, ∀ x ∈ h.sessions.toJobs.parts p, x.op.stepBase 1 = none) :
    (h.sessions.toJobs.world htok).StepsFresh := by
  have hnone : ∀ p, ∀ x ∈ h.sessions.toJobs.parts p, x.op.stepBase 1 = none := by
    intro p x hx
    obtain ⟨j, hj, -⟩ := Jobs.exists_of_mem_parts hx
    exact hall p (Jobs.lt_of_mem_jobs hj) x hx
  constructor
  · intro p
    have hnil : (h.sessions.toJobs.parts p).filterMap (fun x => x.op.stepBase 1) = [] :=
      List.filterMap_eq_nil_iff.mpr (hnone p)
    rw [Jobs.world_parts, hnil]
    exact List.nodup_nil
  · intro p x hx F
    have hx := hnone p x hx
    rw [Operation.stepBase, F.work_eq] at hx
    cases hx

/-- Every byte of a rank's memory is the name of its place. -/
def placeNames : PlacedMemory (ℕ × ℕ) where
  device := ⟨fun _ => (0, 0), fun _ _ => 0, fun _ _ => 0, fun _ _ => 0, fun _ _ => 0⟩
  heap p a := (p, a)

theorem placeNames_zeroed : placeNames.device.Zeroed :=
  ⟨⟨fun _ _ => rfl, fun _ _ => rfl⟩, fun _ _ => rfl⟩

theorem pairSessions_apart : ∀ p, ∀ j ∈ pairSessions.toJobs.jobs p, j.Apart :=
  pairChecked.apart (by decide +kernel)

theorem pairSessions_performs :
    pairSessions.toJobs.Performs (pairExchanges putCalls recvCalls) := pairChecked.performs

/-- The theorem for the two ranks.  Rank 0 puts the output of the gather, and rank 1 gets a byte
of its own back. -/
theorem runs_in_sequence_witness : ∃ s : State Task (PlacedMemory (ℕ × ℕ)),
    Reachable (placedDevice pairSessions.toJobs.placement pairSessions.program (ℕ × ℕ) 2)
      placeNames s ∧
    Finished (placedDevice pairSessions.toJobs.placement pairSessions.program (ℕ × ℕ) 2) s ∧
    s.mem.heap 1 8197 = (1, 4097) := by
  have hruns : ∀ {s : State Task (PlacedMemory (ℕ × ℕ))}, Reachable (placedDevice
      pairSessions.toJobs.placement pairSessions.program (ℕ × ℕ) 2) placeNames s → _ :=
    Sessions.runs_in_sequence pairSessions_performs pairSessions_tokensDistinct
      pairSessions_stepsFresh pairSessions_apart placeNames_zeroed
  obtain ⟨-, -, s, hs, hfinished, -⟩ := hruns .init
  refine ⟨s, hs, hfinished, ?_⟩
  rw [(hruns hs).2.1 hfinished]
  decide +kernel

/-- The same, with a `get` in the place of the `put`. -/
def serveCalls : List Runtime.Call := Runtime.pairSession 0 ++
  [.p2p 2 (.user 0) (.getServe 1 (Runtime.pairTensor 8192 16) none) []]

def getCalls : List Runtime.Call := Runtime.pairSession 1 ++
  [.p2p 2 (.user 0) (.get 0 (Runtime.pairTensor 8192 16) none) []]

theorem getChecked : PairChecked serveCalls getCalls := by
  constructor <;> decide +kernel

def getSessions : Sessions Config.default 1 2 := getChecked.sessions

theorem getSessions_tokensDistinct : getSessions.toJobs.TokensDistinct := by
  have hall : ∀ p < 2, ((getSessions.toJobs.parts p).flatMap fun x =>
      x.op.tokens 1 Config.default.alignment).Nodup := by decide +kernel
  intro p
  by_cases hp : p < 2
  · exact hall p hp
  · rw [Jobs.parts, getSessions.toJobs.jobs_eq_nil p (Nat.le_of_not_lt hp)]
    exact List.nodup_nil

theorem getSessions_stepsFresh :
    (getSessions.toJobs.world getSessions_tokensDistinct).StepsFresh :=
  getChecked.stepsFresh getSessions_tokensDistinct (by decide +kernel)

theorem getSessions_apart : ∀ p, ∀ j ∈ getSessions.toJobs.jobs p, j.Apart :=
  getChecked.apart (by decide +kernel)

theorem getSessions_performs :
    getSessions.toJobs.Performs (pairExchanges serveCalls getCalls) := getChecked.performs

/-- What the exchange of two jobs moves, and where. -/
def pairMove (x : Job × Job) : List ℕ × Work × List (Option ℕ) :=
  (x.1.request.ranks, x.1.request.work.move,
    [x.1.inputTensor.map Tensor.dataPtr, x.2.inputTensor.map Tensor.dataPtr,
      x.1.outputTensor.map Tensor.dataPtr, x.2.outputTensor.map Tensor.dataPtr])

theorem sameMove_of_pairMove {x y : Job × Job} (h : pairMove x = pairMove y) :
    (pairExchange x.1 x.2).SameMove (pairExchange y.1 y.2) := by
  obtain ⟨hranks, hwork, htensors⟩ : _ ∧ _ ∧ _ := by simpa [pairMove] using h
  obtain ⟨hin, hin', hout, hout'⟩ := htensors
  have helim : ∀ {t t' : Option Tensor}, t.map Tensor.dataPtr = t'.map Tensor.dataPtr →
      t.elim 0 Tensor.dataPtr = t'.elim 0 Tensor.dataPtr := by
    intro t t' htt
    cases t <;> cases t' <;> simp_all
  refine ⟨hranks, hwork, ?_, ?_⟩
  · funext p
    by_cases hp : p = 0
    · simp only [pairExchange, if_pos hp, helim hin]
    · simp only [pairExchange, if_neg hp, helim hin']
  · funext p
    by_cases hp : p = 0
    · simp only [pairExchange, if_pos hp, helim hout]
    · simp only [pairExchange, if_neg hp, helim hout']

/-- A `put` and a `get` move the same bytes. -/
theorem put_sameMove_get : List.Forall₂ Exchange.SameMove (pairExchanges putCalls recvCalls)
    (pairExchanges serveCalls getCalls) := by
  have hmoves : (((pairRank 0).jobsOf putCalls).zip ((pairRank 1).jobsOf recvCalls)).map pairMove =
      (((pairRank 0).jobsOf serveCalls).zip ((pairRank 1).jobsOf getCalls)).map pairMove := by
    decide +kernel
  unfold pairExchanges
  rw [List.forall₂_map_left_iff, List.forall₂_map_right_iff]
  have heq := List.forall₂_eq_eq_eq ▸ hmoves
  rw [List.forall₂_map_left_iff, List.forall₂_map_right_iff] at heq
  exact heq.imp fun _ _ => sameMove_of_pairMove

/-- The theorem for the `put` and the `get`. -/
theorem same_memory_witness : ∃ s s' : State Task (PlacedMemory (ℕ × ℕ)),
    Finished (placedDevice pairSessions.toJobs.placement pairSessions.program (ℕ × ℕ) 2) s ∧
    Finished (placedDevice getSessions.toJobs.placement getSessions.program (ℕ × ℕ) 2) s' ∧
    s.mem.heap = s'.mem.heap := by
  obtain ⟨s, hs, hfinished, -⟩ := Sessions.placed_exists_finished pairSessions_performs
    pairSessions_tokensDistinct pairSessions_stepsFresh pairSessions_apart placeNames_zeroed .init
  obtain ⟨s', hs', hfinished', -⟩ := Sessions.placed_exists_finished getSessions_performs
    getSessions_tokensDistinct getSessions_stepsFresh getSessions_apart placeNames_zeroed .init
  exact ⟨s, s', hfinished, hfinished', Sessions.same_memory put_sameMove_get rfl
    pairSessions_performs pairSessions_tokensDistinct pairSessions_stepsFresh pairSessions_apart
    placeNames_zeroed hs hfinished getSessions_performs getSessions_tokensDistinct
    getSessions_stepsFresh getSessions_apart placeNames_zeroed hs' hfinished'⟩

end Pair

end GroupFreeCollectives
