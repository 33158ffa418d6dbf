import GroupFreeCollectives.DataFlow
import GroupFreeCollectives.World.Order
import Mathlib.Data.Prod.Lex

/-!
# A globally ordered world never gets stuck

Let the operations of a world be numbered, in a way that every rank follows.  A task
has its place in this order: the operation, the barriers before it in the part, the items since the
last of them, and the phase.  Program order goes from smaller places to larger ones, and so
does every wait: a barrier and the barrier of another member with the same token differ in
their phase only, and so do the fused kernels of two members.

What a wait needs has been published when everything smaller has fired, and it cannot have
been overwritten (`await_guard_of_smaller`, `stepAwait_guard_of_smaller`).  So the least task
that has not fired can fire (`Follows.exists_enabled`).
-/

namespace GroupFreeCollectives

open TaskGraph Positions FusedKernelArgs

namespace World

variable {cfg : Config} {nonce : ℤ} {W : ℕ}

/-! ## Places -/

section Places

variable (w : World cfg nonce W) (pos : Operation → ℕ)

/-- The ranks follow one order of all operations. -/
def Follows : Prop :=
  ∀ (p n n' : ℕ) (x y : Contribution), (w.parts p)[n]? = some x → (w.parts p)[n']? = some y →
    n < n' → pos x.op < pos y.op

/-- Barriers before an item of a part; an odd number is that of a barrier. -/
def level (p : ℕ) (its : List Item) (m : ℕ) : ℕ :=
  posIn (Item.tokenFor p) its m + posIn (Item.tokenFor p) its (m + 1)

/-- Where item `i` of rank `p` stands in the order of all operations. -/
def spot (p i : ℕ) : ℕ ×ₗ ℕ ×ₗ ℕ :=
  match (w.parts p)[(locate Contribution.items (w.parts p) i).1]? with
  | none => toLex (0, toLex (0, 0))
  | some x => toLex (pos x.op, toLex (level p x.items (locate Contribution.items (w.parts p) i).2,
      sinceLast (Item.tokenFor p) x.items ((locate Contribution.items (w.parts p) i).2 + 1)))

/-- The place of a task. -/
def place (t : Task) : (ℕ ×ₗ ℕ ×ₗ ℕ) ×ₗ ℕ := toLex (w.spot pos t.rank t.idx, t.op.phase)

end Places

variable {w : World cfg nonce W} {pos : Operation → ℕ} {α : Type} {m₀ : Memory α}
  {s : State Task (Memory α)} {p q n n' m m' tok : ℕ} {x y : Contribution} {op : Op DataAct}
  {t u : Task}

theorem spot_eq (hx : (w.parts p)[n]? = some x) (hm : m < x.items.length) :
    w.spot pos p (w.start p n + m) = toLex (pos x.op, toLex (level p x.items m,
      sinceLast (Item.tokenFor p) x.items (m + 1))) := by
  have hlocate : locate Contribution.items (w.parts p) (w.start p n + m) = (n, m) :=
    locate_partStart_add hx hm
  unfold spot
  rw [hlocate]
  simp [hx]

/-- Items of a part stand in order. -/
theorem level_lt_or {its : List Item} (hlt : m < m') (hm' : m' < its.length) :
    level p its m < level p its m' ∨ level p its m = level p its m' ∧
      sinceLast (Item.tokenFor p) its (m + 1) < sinceLast (Item.tokenFor p) its (m' + 1) := by
  have h₁ : posIn (Item.tokenFor p) its m ≤ posIn (Item.tokenFor p) its m' := posIn_mono hlt.le
  have h₂ : posIn (Item.tokenFor p) its (m + 1) ≤ posIn (Item.tokenFor p) its (m' + 1) :=
    posIn_mono (by omega)
  unfold level
  by_cases heq : posIn (Item.tokenFor p) its (m + 1) = posIn (Item.tokenFor p) its (m' + 1)
  · have hsince := sinceLast_lt (f := Item.tokenFor p) (i := m + 1) (j := m' + 1) hm' (by omega) heq
    by_cases heq' : posIn (Item.tokenFor p) its m = posIn (Item.tokenFor p) its m'
    · exact Or.inr ⟨by omega, hsince⟩
    · exact Or.inl (by omega)
  · exact Or.inl (by omega)

/-- **Program order goes from smaller places to larger ones.** -/
theorem Follows.place_lt (h : w.Follows pos) (hu : IsTask w.program u) (ht : IsTask w.program t)
    (hut : Before w.program u t) : w.place pos u < w.place pos t := by
  obtain ⟨p, i, o⟩ := u
  obtain ⟨p', j, o'⟩ := t
  obtain ⟨hp, hut⟩ := hut
  obtain rfl : p = p' := hp
  refine Prod.Lex.toLex_lt_toLex.mpr ?_
  rcases hut with ⟨hij, -, hphase⟩ | ⟨hij, -⟩
  · obtain rfl : i = j := hij
    exact Or.inr ⟨rfl, hphase⟩
  · left
    obtain ⟨it, hit, -⟩ := hu
    obtain ⟨it', hit', -⟩ := ht
    obtain ⟨n, x, m, hx, hm, hi⟩ := exists_of_getElem?_program (i := i) hit
    obtain ⟨n', y, m', hy, hm', hj⟩ := exists_of_getElem?_program (i := j) hit'
    have hlen := (List.getElem?_eq_some_iff.mp hm).1
    have hlen' := (List.getElem?_eq_some_iff.mp hm').1
    have hlt : w.start p n + m < w.start p n' + m' := hi ▸ hj ▸ hij
    show w.spot pos p i < w.spot pos p j
    rw [hi, hj, spot_eq hx hlen, spot_eq hy hlen', Prod.Lex.toLex_lt_toLex,
      Prod.Lex.toLex_lt_toLex]
    rcases Nat.lt_trichotomy n n' with hn | rfl | hn
    · exact Or.inl (h p n n' x y hx hy hn)
    · obtain rfl : x = y := Option.some_inj.mp (hx.symm.trans hy)
      exact Or.inr ⟨rfl, level_lt_or (by omega) hlen'⟩
    · have hgt : w.start p n' + m' < w.start p n + m := partStart_add_lt hy hlen' hn
      omega

/-- A token stands at one position, whatever the member. -/
theorem posIn_eq_of_token (hx : (w.parts p)[n]? = some x) (hy : (w.parts q)[n']? = some y)
    (heq : y.op = x.op) (h : HasToken x.items m tok) (h' : HasToken y.items m' tok) :
    posIn (Item.tokenFor p) x.items m = posIn (Item.tokenFor q) y.items m' := by
  obtain ⟨it, hm, htok⟩ := ((toPart hx).hasToken_iff (toPart hx).mem).mp h
  obtain ⟨it', hm', htok'⟩ := ((toPart hy).hasToken_iff (toPart hy).mem).mp h'
  have hget := filterMap_getElem?_posIn hm htok
  have hget' := filterMap_getElem?_posIn hm' htok'
  rw [(toPart hx).filterMap_tokenFor, if_pos (toPart hx).mem] at hget
  rw [(toPart hy).filterMap_tokenFor, if_pos (toPart hy).mem, heq] at hget'
  have hnodup : (x.op.tokens nonce cfg.alignment).Nodup :=
    (List.nodup_flatMap.mp (w.tokens_nodup p)).1 x (List.mem_of_getElem? hx)
  exact (List.getElem?_inj (List.getElem?_eq_some_iff.mp hget).1 hnodup).mp (hget.trans hget'.symm)

theorem spot_eq_of_token (hx : (w.parts p)[n]? = some x) (hy : (w.parts q)[n']? = some y)
    (heq : y.op = x.op) (h : HasToken x.items m tok) (h' : HasToken y.items m' tok) :
    w.spot pos p (w.start p n + m) = w.spot pos q (w.start q n' + m') := by
  have hpos := posIn_eq_of_token hx hy heq h h'
  obtain ⟨it, hm, htok⟩ := ((toPart hx).hasToken_iff (toPart hx).mem).mp h
  obtain ⟨it', hm', htok'⟩ := ((toPart hy).hasToken_iff (toPart hy).mem).mp h'
  rw [spot_eq hx (List.getElem?_eq_some_iff.mp hm).1,
    spot_eq hy (List.getElem?_eq_some_iff.mp hm').1,
    sinceLast_succ_of_some hm htok, sinceLast_succ_of_some hm' htok', heq, level, level,
    posIn_succ_of_some hm htok, posIn_succ_of_some hm' htok', hpos]

/-- The kernels of two members on the fused path stand at one place. -/
theorem spot_eq_of_kernel (hx : (w.parts p)[n]? = some x) (hy : (w.parts q)[n']? = some y)
    (heq : y.op = x.op) {F : FusedWork x.op} {F' : FusedWork y.op} {op' : Op DataAct}
    (h : FusedPart cfg nonce W F p x.call x.items)
    (h' : FusedPart cfg nonce W F' q y.call y.items) (hop : HasOp x.items m op)
    (hop' : HasOp y.items m' op') :
    w.spot pos p (w.start p n + m) = w.spot pos q (w.start q n' + m') := by
  obtain ⟨m₀, hiff, hfirst, -⟩ := h.exists_kernel
  obtain ⟨m₁, hiff', hfirst', -⟩ := h'.exists_kernel
  obtain ⟨rfl, -⟩ := (hiff m op).mp hop
  obtain ⟨rfl, -⟩ := (hiff' m' op').mp hop'
  have htoken : y.op.token nonce 0 = x.op.token nonce 0 := by rw [heq]
  have hpos := posIn_eq_of_token hx hy heq ⟨_, _, hfirst, rfl⟩ ⟨_, _, hfirst', by rw [htoken]⟩
  obtain ⟨it, ops, hm, hcmd, -⟩ := hop
  obtain ⟨it', ops', hm', hcmd', -⟩ := hop'
  have hnone : it.tokenFor p = none := by simp [Item.tokenFor, hcmd]
  have hnone' : it'.tokenFor q = none := by simp [Item.tokenFor, hcmd']
  have hsome := posIn_succ_of_some hfirst (Item.tokenFor_eq_some_iff.mpr ⟨_, rfl, h.mem⟩)
  have hsome' := posIn_succ_of_some hfirst' (Item.tokenFor_eq_some_iff.mpr ⟨_, rfl, h'.mem⟩)
  rw [spot_eq hx (List.getElem?_eq_some_iff.mp hm).1,
    spot_eq hy (List.getElem?_eq_some_iff.mp hm').1,
    sinceLast_succ_of_none hm hnone, sinceLast_succ_of_none hm' hnone',
    sinceLast_succ_of_some hfirst (Item.tokenFor_eq_some_iff.mpr ⟨_, rfl, h.mem⟩),
    sinceLast_succ_of_some hfirst' (Item.tokenFor_eq_some_iff.mpr ⟨_, rfl, h'.mem⟩), heq, level,
    level, posIn_succ_of_none hm hnone, posIn_succ_of_none hm' hnone', hsome, hsome', hpos]

/-! ## What a wait finds -/

/-- **A barrier finds the token of its peer** when everything smaller has fired. -/
theorem await_guard_of_smaller (hm : m₀.Zeroed) (hs : Reachable (device w.program α W) m₀ s)
    {i : ℕ} (he : OnEdge w.program p q i tok) (hfresh : awaitTask p i q tok ∉ s.done)
    (hsmall : ∀ u, IsTask w.program u → w.place pos u < w.place pos (awaitTask p i q tok) →
      u ∈ s.done) : (device w.program α W).guard s.mem (awaitTask p i q tok) := by
  obtain ⟨n, x, m, hx, htok, hq, rfl⟩ := exists_of_onEdge he
  obtain ⟨n', y, m', hy, heq, htok', -, hj, -⟩ := exists_edge hx htok hq
  have hbump : bumpTask p (w.start p n + m) q ∈ s.done :=
    hsmall _ he.isTask_bump (Prod.Lex.toLex_lt_toLex.mpr (Or.inr ⟨rfl, Nat.two_pos⟩))
  have hpublish : publishTask q (w.start q n' + m') p tok ∈ s.done :=
    hsmall _ hj.isTask_publish (Prod.Lex.toLex_lt_toLex.mpr
      (Or.inr ⟨(spot_eq_of_token hx hy heq htok htok').symm, Nat.one_lt_two⟩))
  exact await_guard w.synchronized.wellFormed w.synchronized.edgesAgree hm.toFresh hs he hbump
    hfresh hj (w.synchronized.edgePos_eq he hj) hpublish

/-- Publications to a cell that a kernel waits for are ordered: in an earlier operation of
the peer they come before that of this operation, and in a later one after the wait. -/
theorem stepPublish_cases {ch k : ℕ} {F : FusedWork x.op} (hx : (w.parts p)[n]? = some x)
    (h : FusedPart cfg nonce W F p x.call x.items)
    (hch : (F.geometry cfg nonce W).IsChunk ch k) (hop : HasOp x.items m op)
    (hy : (w.parts q)[n']? = some y) (heq : y.op = x.op) (hmain : OnMain y.items m')
    (hop' : HasOp y.items m' ⟨2 * ch, 2 * k + 1, .stepPublish p
      ((F.geometry cfg nonce W).cellOff ch k q) (stepValue (x.op.token nonce 1) k)⟩)
    (hu : IsTask w.program u)
    (hpub : PublishesStep p ((F.geometry cfg nonce W).cellOff ch k q) u) :
    u = w.task q n' m' ⟨2 * ch, 2 * k + 1, .stepPublish p
        ((F.geometry cfg nonce W).cellOff ch k q) (stepValue (x.op.token nonce 1) k)⟩ ∨
      w.Earlier α u (w.task q n' m' ⟨2 * ch, 2 * k + 1, .stepPublish p
        ((F.geometry cfg nonce W).cellOff ch k q) (stepValue (x.op.token nonce 1) k)⟩) ∨
      w.Earlier α (w.task p n m op) u := by
  obtain ⟨v, hact⟩ := hpub
  obtain ⟨n'', z, m'', op'', F'', ch', k', hz, h'', hop'', htask, hd, hch', hF⟩ :=
    exists_of_stepPublish hu hact
  obtain ⟨hopeq, hp, -, hcell, hval⟩ := FusedPart.of_stepPublish hF hd
  -- the cell tells the rank and the chunk
  obtain ⟨rfl, rfl, hrank⟩ := stepCell_inj (h.valid.chunk_lt_max hch) (h''.valid.chunk_lt_max hch')
    (w.lt q y (List.mem_of_getElem? hy) q (toPart hy).mem)
    (w.lt _ z (List.mem_of_getElem? hz) _ h''.mem) hcell
  rw [← hrank] at hz htask
  rcases Nat.lt_trichotomy n'' n' with hlt | rfl | hlt
  · rw [htask]
    exact Or.inr (Or.inl ((mainTask_task hz hop'' (h''.between_tokens hop'').2.2).earlier
      (mainTask_task hy hop' hmain) hlt))
  · obtain rfl : y = z := Option.some_inj.mp (hy.symm.trans hz)
    rw [heq] at hval
    rw [htask, h''.eq_of_hasOp hop'' hop', hopeq, hval]
    exact Or.inl rfl
  · obtain ⟨i, z', e, hz', heq', he, hentry⟩ := exists_entry_of_token (α := α)
      (o := ⟨op''.thread, op''.phase, .data op''.act⟩) hz (h''.between_tokens hop'').1 hp
    have hpy : p ∈ y.op.ranks := heq ▸ h.mem
    have hni : n < i := lt_of_lt hy hz hlt hpy hp hx heq.symm hz' heq'
    rw [htask]
    exact Or.inr (Or.inr (((mainTask_task hx hop (h.between_tokens hop).2.2).earlier he hni).trans
      hentry))

/-- **A fused kernel finds the step values of its peers** when everything smaller has
fired: what a peer published for an earlier operation it has overwritten, and what it
publishes for a later one comes after this wait. -/
theorem stepAwait_guard_of_smaller (hm : m₀.Zeroed)
    (hs : Reachable (device w.program α W) m₀ s) (hx : (w.parts p)[n]? = some x)
    (hop : HasOp x.items m op) {cells : List ℕ} {v : ℕ} (hact : op.act = .stepAwait cells v)
    (hfresh : w.task p n m op ∉ s.done)
    (hsmall : ∀ u, IsTask w.program u → w.place pos u < w.place pos (w.task p n m op) →
      u ∈ s.done) : (device w.program α W).guard s.mem (w.task p n m op) := by
  rcases (part hx).cases with ⟨-, h⟩ | ⟨F, h⟩
  · obtain ⟨src, dst, hcopy⟩ := h.act_eq_copy m op hop
    rw [hact] at hcopy
    cases hcopy
  obtain ⟨ch, k, hch, hF⟩ := h.exists_fusedOp hop
  obtain ⟨rfl, rfl⟩ := FusedPart.of_stepAwait hF hact
  show (Act.data op.act).guard W p s.mem
  rw [hact]
  intro c hc
  obtain ⟨q, hq, hne, rfl⟩ := (FusedPart.mem_cells h.nodup h.mem).mp hc
  -- the publication of the peer in this operation
  obtain ⟨n', ⟨call, o, its⟩, hy, rfl⟩ := exists_partner hx hq
  rcases (part hy).cases with ⟨hempty, -⟩ | ⟨F', h'⟩
  · exact hempty.elim F
  obtain rfl := Subsingleton.elim F F'
  obtain ⟨m', hop'⟩ := h'.exists_hasOp hch (.publish h.mem hne.symm)
  have hphase : op.phase = 2 * k + 2 := by
    cases hF with
    | await => rfl
    | _ => cases hact
  have hdone := hsmall _ (isTask_task hy hop') (Prod.Lex.toLex_lt_toLex.mpr
    (Or.inr ⟨(spot_eq_of_kernel hx hy rfl h h' hop hop').symm, by
      show 2 * k + 1 < op.phase
      omega⟩))
  obtain ⟨u, s', rfl, -, -, -, hval⟩ := hs.good_writer
    (fun mem => mem.stepPad p ((F.geometry cfg nonce W).cellOff ch k q))
    (w.synchronized.tokenSound hm.toFresh) stepPad_frame ⟨_, rfl⟩ hdone hfresh
    fun u hu hpub => stepPublish_cases hx h hch hop hy rfl (h'.between_tokens hop').2.2 hop' hu hpub
  exact hval.trans (stepPad_effect_publish s'.mem rfl)

/-- **A globally ordered world never gets stuck**: in every state that any interleaving
reaches, if something is left to do then something can be done. -/
theorem Follows.exists_enabled (h : w.Follows pos) (hm : m₀.Zeroed)
    (hs : Reachable (device w.program α W) m₀ s)
    (hnot : ¬ Finished (device w.program α W) s) : ∃ t, Enabled (device w.program α W) s t := by
  have hwf : WellFounded fun u t : Task => w.place pos u < w.place pos t :=
    InvImage.wf (w.place pos) wellFounded_lt
  refine TaskGraph.exists_enabled hwf (fun u t hu ht hut => h.place_lt hu ht hut)
    (fun t ht hfresh hsmall => ?_) hnot
  cases hact : t.op.act with
  | await q tok =>
    obtain ⟨he, heq⟩ := IsTask.eq_awaitTask ht hact
    rw [heq] at hfresh hsmall ⊢
    exact await_guard_of_smaller hm hs he hfresh hsmall
  | data d =>
    cases d with
    | stepAwait cells v =>
      obtain ⟨n, x, m, op, hx, hop, heq, hd⟩ := exists_of_isTask ht hact
      rw [heq] at hfresh hsmall ⊢
      exact stepAwait_guard_of_smaller hm hs hx hop hd hfresh hsmall
    | copy src dst =>
      rw [device_guard, hact]
      trivial
    | stepPublish r c v =>
      rw [device_guard, hact]
      trivial
  | _ =>
    rw [device_guard, hact]
    trivial

end World

end GroupFreeCollectives
