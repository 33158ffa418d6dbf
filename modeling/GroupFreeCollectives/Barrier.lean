import GroupFreeCollectives.Device
import GroupFreeCollectives.Lib.Positions

/-!
# The two-slot barrier on one edge

The barriers of rank `p` that involve rank `q` form the edge from `p` to `q`.  They
execute one after another, and each runs three operations there: it bumps the counter,
publishes to `q`, waits for `q`.  The position of a barrier on the edge is how many
barriers precede it there.

1. *The counter.*  `edge_seq` counts the bumps, so a program in flight uses the parity
   of its position as slot (`edge_counter`, `slot_of_inFlight`).
2. *The cells.*  A signal cell holds the token of the latest publication of its parity
   (`signal_cell`).  With it, a wait that ends has found a token its peer published
   (`exists_publish_of_await`), whatever the order of the barriers on the two sides.
3. *Agreement.*  When both ends have the same tokens in the same order, no two
   consecutive tokens of one slot equal, a wait at position `n` ends only after the peer
   published at position `n` (`publish_mem_of_await`), the two ends stay within one
   barrier of each other, and a token that is waited for is not overwritten
   (`await_guard`).
-/

namespace GroupFreeCollectives

open TaskGraph Positions

/-! ## Edges -/

/-- The token of a barrier that involves `q`. -/
def Item.tokenFor (q : ℕ) (it : Item) : Option ℕ :=
  match it.cmd with
  | .barrier ranks tok => if q ∈ ranks then some tok else none
  | _ => none

/-- What holds of every program the runtime enqueues: barriers are on the main stream,
their members are ranks of the world, and only ranks of the world enqueue them. -/
structure WellFormed (prog : Program) (worldSize : ℕ) : Prop where
  main : ∀ p (it : Item) ranks tok, it ∈ prog p → it.cmd = .barrier ranks tok → it.stream = .main
  rank_lt : ∀ p (it : Item) ranks tok, it ∈ prog p → it.cmd = .barrier ranks tok → p < worldSize
  ranks_lt : ∀ p (it : Item) ranks tok, it ∈ prog p → it.cmd = .barrier ranks tok →
    ∀ q ∈ ranks, q < worldSize

variable (prog : Program)

/-- The tokens of the barriers of `p` that involve `q`, in order. -/
def edgeTokens (p q : ℕ) : List ℕ := (prog p).filterMap (Item.tokenFor q)

/-- Item `i` of rank `p` is a barrier that involves `q`, with this token. -/
def OnEdge (p q i tok : ℕ) : Prop := ∃ it, (prog p)[i]? = some it ∧ it.tokenFor q = some tok

/-- The number of barriers on the edge before item `i`. -/
def edgePos (p q i : ℕ) : ℕ := posIn (Item.tokenFor q) (prog p) i

/-- The three operations of barrier `i` of rank `p` for the peer `q`. -/
def bumpTask (p i q : ℕ) : Task := ⟨p, i, ⟨q, 0, .bump q⟩⟩
def publishTask (p i q tok : ℕ) : Task := ⟨p, i, ⟨q, 1, .publish q tok⟩⟩
def awaitTask (p i q tok : ℕ) : Task := ⟨p, i, ⟨q, 2, .await q tok⟩⟩

variable {prog} {p q i j n tok tok' : ℕ}

theorem Item.tokenFor_eq_some_iff {it : Item} :
    it.tokenFor q = some tok ↔ ∃ ranks, it.cmd = .barrier ranks tok ∧ q ∈ ranks := by
  unfold Item.tokenFor
  split
  case h_1 ranks tok' h =>
    rw [h]
    by_cases hq : q ∈ ranks <;> simp [hq, and_comm]
  case h_2 h =>
    simp only [reduceCtorEq, false_iff, not_exists, not_and]
    intro ranks hc
    exact absurd hc (h ranks tok)

theorem OnEdge.cmd (h : OnEdge prog p q i tok) :
    ∃ it ranks, (prog p)[i]? = some it ∧ it.cmd = .barrier ranks tok ∧ q ∈ ranks := by
  obtain ⟨it, hit, htok⟩ := h
  obtain ⟨ranks, hcmd, hq⟩ := Item.tokenFor_eq_some_iff.mp htok
  exact ⟨it, ranks, hit, hcmd, hq⟩

theorem OnEdge.token_unique (h : OnEdge prog p q i tok) (h' : OnEdge prog p q i tok') :
    tok = tok' := by
  obtain ⟨it, hit, htok⟩ := h
  obtain ⟨it', hit', htok'⟩ := h'
  rw [hit] at hit'
  cases hit'
  rw [htok] at htok'
  exact Option.some_inj.mp htok'

/-- The token at the position of a barrier on the edge. -/
theorem OnEdge.getElem? (h : OnEdge prog p q i tok) :
    (edgeTokens prog p q)[edgePos prog p q i]? = some tok := by
  obtain ⟨it, hit, htok⟩ := h
  exact filterMap_getElem?_posIn hit htok

theorem exists_onEdge (h : (edgeTokens prog p q)[n]? = some tok) :
    ∃ i, OnEdge prog p q i tok ∧ edgePos prog p q i = n := by
  obtain ⟨i, it, hit, htok, hpos⟩ := exists_of_filterMap_getElem? h
  exact ⟨i, ⟨it, hit, htok⟩, hpos⟩

theorem OnEdge.pos_lt_iff (h : OnEdge prog p q i tok) :
    edgePos prog p q i < edgePos prog p q j ↔ i < j := by
  obtain ⟨it, hit, htok⟩ := h
  exact posIn_lt_iff hit htok

theorem OnEdge.pos_inj (h : OnEdge prog p q i tok) (h' : OnEdge prog p q j tok')
    (hpos : edgePos prog p q i = edgePos prog p q j) : i = j := by
  obtain ⟨it, hit, htok⟩ := h
  obtain ⟨it', hit', htok'⟩ := h'
  exact posIn_inj hit htok hit' htok' hpos

theorem OnEdge.pos_lt_length (h : OnEdge prog p q i tok) :
    edgePos prog p q i < (edgeTokens prog p q).length := by
  obtain ⟨it, hit, htok⟩ := h
  exact posIn_lt_length hit htok

/-- Every smaller position is taken by an earlier barrier. -/
theorem exists_onEdge_of_lt (h : n < edgePos prog p q i) :
    ∃ j tok, j < i ∧ OnEdge prog p q j tok ∧ edgePos prog p q j = n := by
  obtain ⟨j, it, tok, hji, hit, htok, hpos⟩ := exists_of_lt_posIn h
  exact ⟨j, tok, hji, ⟨it, hit, htok⟩, hpos⟩

/-! ## The tasks of an edge -/

theorem OnEdge.isTask_bump (h : OnEdge prog p q i tok) : IsTask prog (bumpTask p i q) := by
  obtain ⟨it, ranks, hit, hcmd, hq⟩ := h.cmd
  refine ⟨it, hit, ?_⟩
  rw [hcmd]
  exact mem_barrierKernel.mpr ⟨q, hq, Or.inl rfl⟩

theorem OnEdge.isTask_publish (h : OnEdge prog p q i tok) :
    IsTask prog (publishTask p i q tok) := by
  obtain ⟨it, ranks, hit, hcmd, hq⟩ := h.cmd
  refine ⟨it, hit, ?_⟩
  rw [hcmd]
  exact mem_barrierKernel.mpr ⟨q, hq, Or.inr (Or.inl rfl)⟩

theorem OnEdge.isTask_await (h : OnEdge prog p q i tok) :
    IsTask prog (awaitTask p i q tok) := by
  obtain ⟨it, ranks, hit, hcmd, hq⟩ := h.cmd
  refine ⟨it, hit, ?_⟩
  rw [hcmd]
  exact mem_barrierKernel.mpr ⟨q, hq, Or.inr (Or.inr rfl)⟩

/-- A barrier operation is one of the three of its edge. -/
theorem IsTask.cases {t : Task} (h : IsTask prog t) :
    (∃ q tok, OnEdge prog t.rank q t.idx tok ∧
      (t = bumpTask t.rank t.idx q ∨ t = publishTask t.rank t.idx q tok ∨
        t = awaitTask t.rank t.idx q tok)) ∨
    (∃ d, t.op.act = .data d) ∨ t.op.act = .nop := by
  obtain ⟨r, i, o⟩ := t
  obtain ⟨it, hit, ho⟩ := h
  cases hcmd : it.cmd with
  | barrier ranks tok =>
    rw [hcmd] at ho
    obtain ⟨q, hq, hcase⟩ := mem_barrierKernel.mp ho
    have hedge : OnEdge prog r q i tok :=
      ⟨it, hit, Item.tokenFor_eq_some_iff.mpr ⟨ranks, hcmd, hq⟩⟩
    refine Or.inl ⟨q, tok, hedge, ?_⟩
    rcases hcase with rfl | rfl | rfl
    · exact Or.inl rfl
    · exact Or.inr (Or.inl rfl)
    · exact Or.inr (Or.inr rfl)
  | kernel ops =>
    rw [hcmd] at ho
    obtain ⟨o', -, rfl⟩ := List.mem_map.mp ho
    exact Or.inr (Or.inl ⟨o'.act, rfl⟩)
  | record e =>
    rw [hcmd] at ho
    rcases List.mem_singleton.mp ho with rfl
    exact Or.inr (Or.inr rfl)
  | wait e =>
    rw [hcmd] at ho
    rcases List.mem_singleton.mp ho with rfl
    exact Or.inr (Or.inr rfl)
  | waitStream s =>
    rw [hcmd] at ho
    rcases List.mem_singleton.mp ho with rfl
    exact Or.inr (Or.inr rfl)

theorem IsTask.eq_bumpTask {t : Task} (h : IsTask prog t) (ha : t.op.act = .bump q) :
    ∃ tok, OnEdge prog t.rank q t.idx tok ∧ t = bumpTask t.rank t.idx q := by
  rcases h.cases with ⟨q', tok, hedge, heq | heq | heq⟩ | ⟨d, heq⟩ | heq <;> rw [heq] at ha <;>
    cases ha
  exact ⟨tok, hedge, heq⟩

theorem IsTask.eq_publishTask {t : Task} (h : IsTask prog t) (ha : t.op.act = .publish q tok) :
    OnEdge prog t.rank q t.idx tok ∧ t = publishTask t.rank t.idx q tok := by
  rcases h.cases with ⟨q', tok', hedge, heq | heq | heq⟩ | ⟨d, heq⟩ | heq <;> rw [heq] at ha <;>
    cases ha
  exact ⟨hedge, heq⟩

theorem IsTask.eq_awaitTask {t : Task} (h : IsTask prog t) (ha : t.op.act = .await q tok) :
    OnEdge prog t.rank q t.idx tok ∧ t = awaitTask t.rank t.idx q tok := by
  rcases h.cases with ⟨q', tok', hedge, heq | heq | heq⟩ | ⟨d, heq⟩ | heq <;> rw [heq] at ha <;>
    cases ha
  exact ⟨hedge, heq⟩

/-! ## Program order on an edge -/

theorem before_publish_of_bump : Before prog (bumpTask p i q) (publishTask p i q tok) :=
  .of_phase (by decide)

theorem before_await_of_publish : Before prog (publishTask p i q tok) (awaitTask p i q tok) :=
  .of_phase (by decide)

theorem before_await_of_bump : Before prog (bumpTask p i q) (awaitTask p i q tok) :=
  .of_phase (by decide)

/-- Barriers of one rank execute one after another. -/
theorem OnEdge.before {W : ℕ} (hwf : WellFormed prog W) {q' : ℕ} (h : OnEdge prog p q i tok)
    (h' : OnEdge prog p q' j tok') (hij : i < j) (o o' : Op Act) :
    Before prog ⟨p, i, o⟩ ⟨p, j, o'⟩ := by
  obtain ⟨it, ranks, hit, hcmd, -⟩ := h.cmd
  obtain ⟨it', ranks', hit', hcmd', -⟩ := h'.cmd
  refine .of_stream hij hit hit' ?_
  rw [hwf.main p it ranks tok (List.mem_of_getElem? hit) hcmd,
    hwf.main p it' ranks' tok' (List.mem_of_getElem? hit') hcmd']

theorem OnEdge.src_lt {W : ℕ} (hwf : WellFormed prog W) (h : OnEdge prog p q i tok) : p < W := by
  obtain ⟨it, ranks, hit, hcmd, -⟩ := h.cmd
  exact hwf.rank_lt p it ranks tok (List.mem_of_getElem? hit) hcmd

theorem OnEdge.dst_lt {W : ℕ} (hwf : WellFormed prog W) (h : OnEdge prog p q i tok) : q < W := by
  obtain ⟨it, ranks, hit, hcmd, hq⟩ := h.cmd
  exact hwf.ranks_lt p it ranks tok (List.mem_of_getElem? hit) hcmd q hq

/-! ## The counter -/

variable {α : Type} {W : ℕ} {m₀ : Memory α} {s : State Task (Memory α)}

/-- `edge_seq` is the number of barriers of the edge whose bump has fired, and
`slot` is the parity of the latest of them. -/
structure EdgeCounter (prog : Program) (p q : ℕ) (s : State Task (Memory α)) : Prop where
  bumped : ∀ i tok, OnEdge prog p q i tok →
    (bumpTask p i q ∈ s.done ↔ edgePos prog p q i < s.mem.edgeSeq p q)
  le_length : s.mem.edgeSeq p q ≤ (edgeTokens prog p q).length
  slot : 0 < s.mem.edgeSeq p q → s.mem.slot p q = (s.mem.edgeSeq p q - 1) % 2

/-- The bump that fires is the one at position `edge_seq`. -/
theorem EdgeCounter.pos_of_enabled (hwf : WellFormed prog W) (hc : EdgeCounter prog p q s)
    (he : OnEdge prog p q i tok) (hen : Enabled (device prog α W) s (bumpTask p i q)) :
    edgePos prog p q i = s.mem.edgeSeq p q := by
  have hfresh : ¬ edgePos prog p q i < s.mem.edgeSeq p q := fun h =>
    hen.fresh ((hc.bumped i tok he).mpr h)
  by_contra hne
  -- an earlier barrier would not have bumped yet
  obtain ⟨j, tok', hji, hj, hpos⟩ :=
    exists_onEdge_of_lt (show s.mem.edgeSeq p q < edgePos prog p q i by omega)
  have hdone : bumpTask p j q ∈ s.done := hen.ready _ hj.isTask_bump (hj.before hwf he hji _ _)
  have := (hc.bumped j tok' hj).mp hdone
  omega

theorem edge_counter (hwf : WellFormed prog W) (hm : m₀.Fresh)
    (hs : Reachable (device prog α W) m₀ s) : EdgeCounter prog p q s := by
  refine hs.invariant ⟨fun i tok _ => ?_, ?_, ?_⟩ fun s t hs ih hen => ?_
  · simp [hm.edgeSeq]
  · simp [hm.edgeSeq]
  · simp [hm.edgeSeq]
  · by_cases ht : t.rank = p ∧ t.op.act = .bump q
    · obtain ⟨rfl, hact⟩ := ht
      obtain ⟨tok, he, heq⟩ := IsTask.eq_bumpTask hen.task hact
      rw [heq] at hen
      have hpos := ih.pos_of_enabled hwf he hen
      have hseq : ((device prog α W).fire s t).mem.edgeSeq t.rank q =
          s.mem.edgeSeq t.rank q + 1 := by
        rw [fire_mem, device_effect, hact]
        exact store_self ..
      have hslot : ((device prog α W).fire s t).mem.slot t.rank q =
          s.mem.edgeSeq t.rank q % 2 := by
        rw [fire_mem, device_effect, hact, ← Nat.and_one_is_mod]
        exact store_self ..
      refine ⟨fun j tok' hj => ?_, ?_, fun _ => ?_⟩
      · rw [hseq, fire_done, List.mem_cons, ih.bumped j tok' hj]
        constructor
        · rintro (h | h)
          · have hij : j = t.idx := congrArg Task.idx (h.trans heq)
            rw [hij, hpos]
            omega
          · omega
        · intro h
          by_cases hlt : edgePos prog t.rank q j < s.mem.edgeSeq t.rank q
          · exact Or.inr hlt
          · have hij : j = t.idx := hj.pos_inj he (by omega)
            rw [hij]
            exact Or.inl heq.symm
      · rw [hseq, ← hpos]
        exact he.pos_lt_length
      · rw [hseq, hslot, Nat.add_sub_cancel]
    · obtain ⟨hseq, hslot⟩ : (t.op.act.effect W t.rank s.mem).edgeSeq p q = s.mem.edgeSeq p q ∧
          (t.op.act.effect W t.rank s.mem).slot p q = s.mem.slot p q := edgeSeq_effect_of_ne ht
      refine ⟨fun j tok' hj => ?_, ?_, ?_⟩
      · rw [fire_mem, device_effect, hseq, fire_done, List.mem_cons, ih.bumped j tok' hj]
        refine or_iff_right fun h => ht ?_
        rw [← h]
        exact ⟨rfl, rfl⟩
      · rw [fire_mem, device_effect, hseq]
        exact ih.le_length
      · rw [fire_mem, device_effect, hseq, hslot]
        exact ih.slot

/-- A program in flight is the last that bumped, and its slot is the parity of its
position. -/
theorem slot_of_inFlight (hwf : WellFormed prog W) (hm : m₀.Fresh)
    (hs : Reachable (device prog α W) m₀ s) (he : OnEdge prog p q i tok)
    (hb : bumpTask p i q ∈ s.done) (ha : awaitTask p i q tok ∉ s.done) :
    s.mem.slot p q = edgePos prog p q i % 2 ∧ s.mem.edgeSeq p q = edgePos prog p q i + 1 := by
  have hc : EdgeCounter prog p q s := edge_counter hwf hm hs
  have hlt := (hc.bumped i tok he).mp hb
  have hseq : s.mem.edgeSeq p q = edgePos prog p q i + 1 := by
    by_contra hne
    -- the next barrier has bumped, so this one has ended
    have hlen := hc.le_length
    obtain ⟨j, hj, hpos⟩ := exists_onEdge (List.getElem?_eq_getElem
      (show edgePos prog p q i + 1 < (edgeTokens prog p q).length by omega))
    have hij : i < j := he.pos_lt_iff.mp (by omega)
    have hbj := (hc.bumped j _ hj).mpr (by omega)
    exact ha (hs.before_mem hbj he.isTask_await (he.before hwf hj hij _ _))
  refine ⟨?_, hseq⟩
  rw [hc.slot (by omega), hseq, Nat.add_sub_cancel]

/-! ## The cells -/

/-- The slot a publication uses. -/
theorem slot_of_publish_enabled (hwf : WellFormed prog W) (hm : m₀.Fresh)
    (hs : Reachable (device prog α W) m₀ s) (he : OnEdge prog p q i tok)
    (hen : Enabled (device prog α W) s (publishTask p i q tok)) :
    s.mem.slot p q = edgePos prog p q i % 2 := by
  refine (slot_of_inFlight hwf hm hs he (hen.ready _ he.isTask_bump before_publish_of_bump)
    fun ha => hen.fresh ?_).1
  exact hs.before_mem ha he.isTask_publish before_await_of_publish

/-- Publications on an edge fire in order. -/
theorem publish_mem_of_le (hwf : WellFormed prog W) (hs : Reachable (device prog α W) m₀ s)
    (he : OnEdge prog p q i tok) (hj : OnEdge prog p q j tok')
    (hle : edgePos prog p q i ≤ edgePos prog p q j)
    (hd : publishTask p j q tok' ∈ s.done) : publishTask p i q tok ∈ s.done := by
  rcases Nat.lt_or_eq_of_le hle with hlt | heq
  · exact hs.before_mem hd he.isTask_publish (he.before hwf hj (he.pos_lt_iff.mp hlt) _ _)
  · obtain rfl := he.pos_inj hj heq
    obtain rfl := he.token_unique hj
    exact hd

/-- Flat indices of a signal grid determine slot and source. -/
theorem signal_index_inj {a b x y : ℕ} (hx : x < W) (hy : y < W)
    (h : a * W + x = b * W + y) : a = b ∧ x = y := by
  have hW : 0 < W := by omega
  have hdiv : (a * W + x) / W = (b * W + y) / W := by rw [h]
  have hmod : (a * W + x) % W = (b * W + y) % W := by rw [h]
  rw [Nat.mul_comm a, Nat.mul_comm b, Nat.mul_add_div hW, Nat.mul_add_div hW,
    Nat.div_eq_of_lt hx, Nat.div_eq_of_lt hy] at hdiv
  rw [Nat.mul_add_mod_self_right, Nat.mul_add_mod_self_right, Nat.mod_eq_of_lt hx,
    Nat.mod_eq_of_lt hy] at hmod
  exact ⟨hdiv, hmod⟩

/-- The signal cell of `q` for slot `b` of source `p`: zero before the first publication
of that parity, then the token of the latest one. -/
def CellHolds (prog : Program) (W p q b : ℕ) (s : State Task (Memory α)) : Prop :=
  (s.mem.signal q (b * W + p) = 0 ∧ ∀ i tok, OnEdge prog p q i tok →
    edgePos prog p q i % 2 = b → publishTask p i q tok ∉ s.done) ∨
  ∃ i tok, OnEdge prog p q i tok ∧ edgePos prog p q i % 2 = b ∧
    publishTask p i q tok ∈ s.done ∧ s.mem.signal q (b * W + p) = tok ∧
    ∀ j tok', OnEdge prog p q j tok' → edgePos prog p q j % 2 = b →
      publishTask p j q tok' ∈ s.done → edgePos prog p q j ≤ edgePos prog p q i

theorem signal_cell (hwf : WellFormed prog W) (hm : m₀.Fresh) (hp : p < W)
    (hs : Reachable (device prog α W) m₀ s) (b : ℕ) : CellHolds prog W p q b s := by
  refine hs.invariant (Or.inl ⟨hm.signal _ _, by simp⟩) fun s t hs ih hen => ?_
  by_cases ht : ∃ tok, t.rank = p ∧ t.op.act = .publish q tok ∧ edgePos prog p q t.idx % 2 = b
  · obtain ⟨tok, rfl, hact, hb⟩ := ht
    obtain ⟨he, heq⟩ := IsTask.eq_publishTask hen.task hact
    have hen' := hen
    rw [heq] at hen'
    have hslot := slot_of_publish_enabled hwf hm hs he hen'
    refine Or.inr ⟨t.idx, tok, he, hb, ?_, ?_, fun j tok' hj hjb hd => ?_⟩
    · rw [fire_done, ← heq]
      exact List.mem_cons_self
    · rw [fire_mem, device_effect, hact, ← hb, ← hslot]
      exact store_self ..
    · -- a later publication would have needed this one
      rw [fire_done] at hd
      rcases List.mem_cons.mp hd with h | hd
      · have hij : j = t.idx := congrArg Task.idx h
        rw [hij]
      · by_contra hlt
        have hmem := publish_mem_of_le hwf hs he hj (by omega) hd
        rw [← heq] at hmem
        exact hen.fresh hmem
  · -- the cell and its publications are as before
    have hcell : ((device prog α W).fire s t).mem.signal q (b * W + p) =
        s.mem.signal q (b * W + p) := by
      refine signal_effect_of_ne fun tok hact hidx => ht ?_
      obtain ⟨he, heq⟩ := IsTask.eq_publishTask hen.task hact
      have hen' := hen
      rw [heq] at hen'
      have hslot := slot_of_publish_enabled hwf hm hs he hen'
      obtain ⟨hb, hp'⟩ := signal_index_inj (he.src_lt hwf) hp hidx
      exact ⟨tok, hp', hact, by rw [← hb, hslot, hp']⟩
    have hpub : ∀ j tok', OnEdge prog p q j tok' → edgePos prog p q j % 2 = b →
        (publishTask p j q tok' ∈ ((device prog α W).fire s t).done ↔
          publishTask p j q tok' ∈ s.done) := by
      intro j tok' _ hjb
      rw [fire_done, List.mem_cons]
      refine or_iff_right fun h => ht ⟨tok', ?_, ?_, ?_⟩
      · rw [← h]; rfl
      · rw [← h]; rfl
      · rw [← h]; exact hjb
    rcases ih with ⟨h0, hnone⟩ | ⟨i, tok, he, hb, hd, hval, hlast⟩
    · refine Or.inl ⟨hcell.trans h0, fun j tok' hj hjb hd => ?_⟩
      exact hnone j tok' hj hjb ((hpub j tok' hj hjb).mp hd)
    · refine Or.inr ⟨i, tok, he, hb, (hpub i tok he hb).mpr hd, hcell.trans hval,
        fun j tok' hj hjb hd' => ?_⟩
      exact hlast j tok' hj hjb ((hpub j tok' hj hjb).mp hd')

/-- What the cell holds when a wait can end: its own token, in the slot of its
position. -/
theorem signal_of_await_enabled (hwf : WellFormed prog W) (hm : m₀.Fresh)
    (hs : Reachable (device prog α W) m₀ s) (he : OnEdge prog p q i tok)
    (hen : Enabled (device prog α W) s (awaitTask p i q tok)) :
    s.mem.signal p (edgePos prog p q i % 2 * W + q) = tok := by
  have hb := hen.ready _ he.isTask_bump before_await_of_bump
  rw [← (slot_of_inFlight hwf hm hs he hb hen.fresh).1]
  exact hen.guard

/-- **No wait ends before its peer has published that token**, whatever the order of
the barriers on the two sides. -/
theorem exists_publish_of_await (hwf : WellFormed prog W) (hm : m₀.Fresh)
    (hs : Reachable (device prog α W) m₀ s) (he : OnEdge prog p q i tok) (h0 : tok ≠ 0)
    (ha : awaitTask p i q tok ∈ s.done) :
    ∃ j, OnEdge prog q p j tok ∧ publishTask q j p tok ∈ s.done := by
  obtain ⟨s', hs', hen, hsub⟩ := hs.fired ha
  have hval := signal_of_await_enabled hwf hm hs' he hen
  rcases signal_cell hwf hm (he.dst_lt hwf) hs' (edgePos prog p q i % 2) with
    ⟨hz, -⟩ | ⟨j, tok', hj, -, hd, hval', -⟩
  · exact absurd (hval.symm.trans hz) h0
  · obtain rfl : tok = tok' := hval.symm.trans hval'
    exact ⟨j, hj, hsub _ hd⟩

/-! ## Agreement of the two ends -/

/-- Both ends of every edge have the same tokens in the same order, no token is zero,
and consecutive tokens of one slot differ. -/
structure EdgesAgree (prog : Program) : Prop where
  symm : ∀ p q, edgeTokens prog p q = edgeTokens prog q p
  ne_zero : ∀ p q i tok, OnEdge prog p q i tok → tok ≠ 0
  ne_of_two_apart : ∀ p q (n : ℕ) tok tok', (edgeTokens prog p q)[n]? = some tok →
    (edgeTokens prog p q)[n + 2]? = some tok' → tok ≠ tok'

/-- The barrier of `q` at the position of a barrier of `p`. -/
theorem EdgesAgree.exists_partner (hag : EdgesAgree prog) (he : OnEdge prog p q i tok) :
    ∃ j, OnEdge prog q p j tok ∧ edgePos prog q p j = edgePos prog p q i := by
  have hget := he.getElem?
  rw [hag.symm] at hget
  exact exists_onEdge hget

theorem EdgesAgree.token_eq (hag : EdgesAgree prog) (he : OnEdge prog p q i tok)
    (hj : OnEdge prog q p j tok') (hpos : edgePos prog q p j = edgePos prog p q i) :
    tok' = tok := by
  have hget := he.getElem?
  rw [hag.symm, ← hpos, hj.getElem?] at hget
  exact Option.some_inj.mp hget

/-- The wait at position `n` is preceded by the one at every smaller position. -/
theorem await_mem_of_lt (hwf : WellFormed prog W) (hs : Reachable (device prog α W) m₀ s)
    (he : OnEdge prog p q i tok) (hj : OnEdge prog p q j tok')
    (hlt : edgePos prog p q i < edgePos prog p q j) {o : Op Act}
    (hd : ⟨p, j, o⟩ ∈ s.done) : awaitTask p i q tok ∈ s.done :=
  hs.before_mem hd he.isTask_await (he.before hwf hj (he.pos_lt_iff.mp hlt) _ _)

/-- **A wait at position `n` ends only after the peer published at position `n`.** -/
theorem publish_mem_of_await (hwf : WellFormed prog W) (hag : EdgesAgree prog) (hm : m₀.Fresh)
    (hs : Reachable (device prog α W) m₀ s) :
    ∀ {p q i j tok tok'}, OnEdge prog p q i tok → awaitTask p i q tok ∈ s.done →
      OnEdge prog q p j tok' → edgePos prog q p j = edgePos prog p q i →
      publishTask q j p tok' ∈ s.done := by
  induction hs with
  | init => simp
  | @fire s t hs hen ih =>
    intro p q i j tok tok' he ha hj hpos
    rw [fire_done] at ha ⊢
    rcases List.mem_cons.mp ha with heq | ha
    case inr => exact List.mem_cons_of_mem _ (ih he ha hj hpos)
    subst heq
    refine List.mem_cons_of_mem _ ?_
    by_contra hnot
    have htok : tok' = tok := hag.token_eq he hj hpos
    have hval := signal_of_await_enabled hwf hm hs he hen
    rcases signal_cell hwf hm (he.dst_lt hwf) hs (edgePos prog p q i % 2) with
      ⟨hz, -⟩ | ⟨m, tokm, hmE, hmpar, hmd, hmval, hlast⟩
    · exact hag.ne_zero p q i tok he (hval.symm.trans hz)
    have htm : tokm = tok := (hmval.symm.trans hval)
    -- the value read is of an earlier publication of the same slot
    have hmlt : edgePos prog q p m < edgePos prog q p j := by
      by_contra hle
      exact hnot (publish_mem_of_le hwf hs hj hmE (by omega) hmd)
    have hm2 : edgePos prog q p m + 2 ≤ edgePos prog p q i := by omega
    -- the waits at the two positions before this one have ended, on either side
    obtain ⟨i₁, tok₁, hi₁, he₁, hpos₁⟩ :=
      exists_onEdge_of_lt (show edgePos prog p q i - 1 < edgePos prog p q i by omega)
    have ha₁ : awaitTask p i₁ q tok₁ ∈ s.done :=
      hen.ready _ he₁.isTask_await (he₁.before hwf he hi₁ _ _)
    obtain ⟨j₁, hj₁, hposj₁⟩ := hag.exists_partner he₁
    have hd₁ := ih he₁ ha₁ hj₁ hposj₁
    obtain ⟨j₂, tok₂, -, hj₂, hposj₂⟩ :=
      exists_onEdge_of_lt (show edgePos prog p q i - 2 < edgePos prog q p j₁ by omega)
    have hd₂ : publishTask q j₂ p tok₂ ∈ s.done :=
      publish_mem_of_le hwf hs hj₂ hj₁ (by omega) hd₁
    have hle := hlast j₂ tok₂ hj₂ (by omega) hd₂
    have hmj : m = j₂ := hmE.pos_inj hj₂ (by omega)
    have hget₂ : (edgeTokens prog q p)[edgePos prog q p j₂]? = some tokm := by
      rw [← hmj]
      exact hmE.getElem?
    have hget : (edgeTokens prog q p)[edgePos prog q p j₂ + 2]? = some tok' := by
      have h := hj.getElem?
      rwa [show edgePos prog q p j = edgePos prog q p j₂ + 2 by omega] at h
    exact hag.ne_of_two_apart q p _ tokm tok' hget₂ hget (htm.trans htok.symm)

/-- **The slot is free when it is reused**: the publication at position `n + 2` fires
only after the peer's wait at position `n` has ended. -/
theorem await_mem_of_publish (hwf : WellFormed prog W) (hag : EdgesAgree prog) (hm : m₀.Fresh)
    (hs : Reachable (device prog α W) m₀ s) (he : OnEdge prog p q i tok)
    (hd : publishTask p i q tok ∈ s.done) (hj : OnEdge prog q p j tok')
    (hpos : edgePos prog q p j + 2 ≤ edgePos prog p q i) :
    awaitTask q j p tok' ∈ s.done := by
  obtain ⟨i₁, tok₁, -, he₁, hpos₁⟩ :=
    exists_onEdge_of_lt (show edgePos prog q p j + 1 < edgePos prog p q i by omega)
  have ha₁ : awaitTask p i₁ q tok₁ ∈ s.done := await_mem_of_lt hwf hs he₁ he (by omega) hd
  obtain ⟨j₁, hj₁, hposj₁⟩ := hag.exists_partner he₁
  have hd₁ := publish_mem_of_await hwf hag hm hs he₁ ha₁ hj₁ hposj₁
  exact await_mem_of_lt hwf hs hj hj₁ (by omega) hd₁

/-- The counters of the two ends differ by at most one. -/
theorem edgeSeq_le_succ (hwf : WellFormed prog W) (hag : EdgesAgree prog) (hm : m₀.Fresh)
    (hs : Reachable (device prog α W) m₀ s) :
    s.mem.edgeSeq p q ≤ s.mem.edgeSeq q p + 1 := by
  by_contra hlt
  have hp : EdgeCounter prog p q s := edge_counter hwf hm hs
  have hq : EdgeCounter prog q p s := edge_counter hwf hm hs
  have hlen := hp.le_length
  -- the barrier of `p` after the first one that `q` has not bumped
  obtain ⟨i, he, hpos⟩ := exists_onEdge (List.getElem?_eq_getElem
    (show s.mem.edgeSeq q p + 1 < (edgeTokens prog p q).length by omega))
  have hbump : bumpTask p i q ∈ s.done := (hp.bumped i _ he).mpr (by omega)
  obtain ⟨i₁, tok₁, hi₁, he₁, hpos₁⟩ :=
    exists_onEdge_of_lt (show s.mem.edgeSeq q p < edgePos prog p q i by omega)
  have ha₁ : awaitTask p i₁ q tok₁ ∈ s.done :=
    await_mem_of_lt hwf hs he₁ he (by omega) hbump
  obtain ⟨j, hj, hposj⟩ := hag.exists_partner he₁
  have hd := publish_mem_of_await hwf hag hm hs he₁ ha₁ hj hposj
  have hb : bumpTask q j p ∈ s.done := hs.before_mem hd hj.isTask_bump before_publish_of_bump
  have := (hq.bumped j _ hj).mp hb
  omega

/-- **A token that is waited for is in its cell** once the peer has published it. -/
theorem await_guard (hwf : WellFormed prog W) (hag : EdgesAgree prog) (hm : m₀.Fresh)
    (hs : Reachable (device prog α W) m₀ s) (he : OnEdge prog p q i tok)
    (hb : bumpTask p i q ∈ s.done) (ha : awaitTask p i q tok ∉ s.done)
    (hj : OnEdge prog q p j tok') (hpos : edgePos prog q p j = edgePos prog p q i)
    (hd : publishTask q j p tok' ∈ s.done) :
    (device prog α W).guard s.mem (awaitTask p i q tok) := by
  have htok : tok' = tok := hag.token_eq he hj hpos
  rw [device_guard]
  show s.mem.signal p (s.mem.slot p q * W + q) = tok
  rw [(slot_of_inFlight hwf hm hs he hb ha).1]
  rcases signal_cell hwf hm (he.dst_lt hwf) hs (edgePos prog p q i % 2) with
    ⟨-, hnone⟩ | ⟨m, tokm, hmE, hmpar, hmd, hmval, hlast⟩
  · exact absurd hd (hnone j tok' hj (by omega))
  · -- nothing later was published in this slot, because this wait has not ended
    have hle := hlast j tok' hj (by omega) hd
    have hnlt : ¬ edgePos prog p q i + 2 ≤ edgePos prog q p m := fun h =>
      ha (await_mem_of_publish hwf hag hm hs hmE hmd he h)
    have hmj : m = j := hmE.pos_inj hj (by omega)
    subst hmj
    rw [hmval, hmE.token_unique hj, htok]

end GroupFreeCollectives
