import GroupFreeCollectives.World.Buffer
import GroupFreeCollectives.World.Placed

/-!
# Jobs that are exchanges

A list of exchanges numbers the operations of the ranks that perform it (`Performs`): the part
of a rank in an operation is the exchange at the operation's position, and as many exchanges of
the rank stand before it as the rank has parts before this one (`Performs.exists_exchange`).

`Jobs.unplaced` gives every call tensors of its own, with what the exchanges before it leave
there.  A part that is done has then stored what its exchange delivers (`Jobs.delivered`), and
its exchange changes nothing that the part does not store to (`Jobs.apply_of_not_storesTo`).
-/

namespace GroupFreeCollectives

open TaskGraph Positions

/-- The job is rank `p`'s part in the exchange. -/
structure Job.Fits (p : ℕ) (j : Job) (x : Exchange) : Prop where
  request : x.toRequest = j.request
  input : ∀ t ∈ j.inputTensor, x.input p = t.dataPtr
  output : ∀ t ∈ j.outputTensor, x.output p = t.dataPtr

theorem map_toRequest_issueAll {alignment : ℕ} {c : ℤ × List ℕ → ℕ} {rs : List Request} :
    (issueAll alignment c rs).map Operation.toRequest = rs := by
  induction rs generalizing c with
  | nil => rfl
  | cons r rs ih => rw [issueAll, List.map_cons, ih]

namespace Jobs

variable {cfg : Config} {nonce : ℤ} {W : ℕ}

/-- Every rank does the exchanges of the list that it is a member of, in the order of the
list. -/
def Performs (J : Jobs cfg nonce W) (xs : List Exchange) : Prop :=
  ∀ p, List.Forall₂ (Job.Fits p) (J.jobs p) (xs.filter (p ∈ ·.ranks))

/-- The operations of a list of exchanges. -/
def operations (cfg : Config) (xs : List Exchange) : List Operation :=
  issueAll cfg.alignment (fun _ => 0) (xs.map Exchange.toRequest)

/-- Where the exchange of an operation stands. -/
def position (cfg : Config) (xs : List Exchange) (o : Operation) : ℕ :=
  (operations cfg xs).idxOf o

variable {J : Jobs cfg nonce W} {xs : List Exchange} {p n : ℕ} {c : Contribution} {j : Job}

theorem Performs.follows (h : J.Performs xs) : J.Follows (xs.map Exchange.toRequest) := by
  intro p
  have hmap : ∀ {js : List Job} {ys : List Exchange}, List.Forall₂ (Job.Fits p) js ys →
      js.map Job.request = ys.map Exchange.toRequest := by
    intro js ys h
    induction h with
    | nil => rfl
    | cons hfit _ ih => rw [List.map_cons, List.map_cons, hfit.request, ih]
  rw [hmap (h p), List.filter_map]
  rfl

/-- **The part of a rank is an exchange**: the one at the position of its operation, with as
many exchanges of the rank before it as the rank has parts before this one. -/
theorem Performs.exists_exchange (h : J.Performs xs) (hc : (J.parts p)[n]? = some c)
    (hj : (J.jobs p)[n]? = some j) (hp : p ∈ c.op.ranks) :
    ∃ x, xs[position cfg xs c.op]? = some x ∧ j.Fits p x ∧
      turns xs p (position cfg xs c.op) = n := by
  have hmap := h.follows.map_op p
  have hget : ((J.parts p).map Contribution.op)[n]? = some c.op := by
    rw [List.getElem?_map, hc, Option.map_some]
  have hmem : c.op ∈ operations cfg xs := by
    have hmem := List.mem_of_getElem? hget
    rw [hmap] at hmem
    exact List.mem_of_mem_filter hmem
  have hidx : (operations cfg xs)[position cfg xs c.op]? = some c.op := List.getElem?_idxOf hmem
  have hrequests : (operations cfg xs).map Operation.toRequest = xs.map Exchange.toRequest :=
    map_toRequest_issueAll
  obtain ⟨x, hx, hxc⟩ : ∃ x, xs[position cfg xs c.op]? = some x ∧
      x.toRequest = c.op.toRequest := by
    refine Option.map_eq_some_iff.mp ?_
    rw [← List.getElem?_map, ← hrequests, List.getElem?_map, hidx, Option.map_some]
  have hpx : p ∈ x.ranks := by
    rw [show x.ranks = c.op.ranks from congrArg Request.ranks hxc]
    exact hp
  -- the operations before this one, and the exchanges before this one
  have hcount : ∀ k, ((operations cfg xs).take k).countP (p ∈ ·.ranks) = turns xs p k := by
    intro k
    have hops : ((operations cfg xs).take k).countP (p ∈ ·.ranks) =
        (((operations cfg xs).map Operation.toRequest).take k).countP (p ∈ ·.ranks) := by
      rw [← List.map_take, List.countP_map]
      rfl
    rw [hops, hrequests, ← List.map_take, List.countP_map]
    rfl
  have hturn : turns xs p (position cfg xs c.op) = n := by
    have hfilter := getElem?_filter_countP (P := fun o : Operation => decide (p ∈ o.ranks)) hidx
      (by simpa using hp)
    rw [hcount] at hfilter
    have hnodup : ((operations cfg xs).filter (p ∈ ·.ranks)).Nodup :=
      nodup_issueAll.filter _
    rw [hmap] at hget
    refine (List.getElem?_inj (List.getElem?_eq_some_iff.mp hfilter).1 hnodup).mp ?_
    exact hfilter.trans hget.symm
  refine ⟨x, hx, ?_, hturn⟩
  have hxget := getElem?_filter_countP (P := fun y : Exchange => decide (p ∈ y.ranks)) hx
    (by simpa using hpx)
  have hxget : (xs.filter (p ∈ ·.ranks))[n]? = some x := by
    rw [← hturn]
    exact hxget
  obtain ⟨hlt, hj'⟩ := List.getElem?_eq_some_iff.mp hj
  obtain ⟨hlt', hx'⟩ := List.getElem?_eq_some_iff.mp hxget
  have hfits := (h p).get hlt hlt'
  rwa [List.get_eq_getElem, List.get_eq_getElem, hj', hx'] at hfits

end Jobs

/-! ## What a part delivers -/

section Deliver

variable {cfg : Config} {nonce : ℤ} {W : ℕ} {J : Jobs cfg nonce W} {xs : List Exchange}
  {α : Type} {h₀ : Heaps α} {p n : ℕ}

/-- The memory of a rank before its call `c`, if exchanges happen one after another. -/
def Jobs.before (J : Jobs cfg nonce W) (xs : List Exchange) (h₀ : Heaps α) (p c : ℕ) : ℕ → α :=
  runAll (xs.take (((J.parts p).find? (·.call = c)).elim 0 fun x => position cfg xs x.op)) h₀ p

/-- Memory in which every call finds in its tensors what it finds there if exchanges happen one
after another. -/
def Jobs.unplaced (J : Jobs cfg nonce W) (xs : List Exchange) (m₀ : PlacedMemory α) :
    Memory α :=
  { m₀.device with
    byte := fun
      | .comm r a => m₀.device.byte (.comm r a)
      | .input r c a => J.before xs m₀.heap r c (J.placement.input r c + a)
      | .output r c a => J.before xs m₀.heap r c (J.placement.output r c + a) }

theorem Jobs.before_eq {c : Contribution} (hc : (J.parts p)[n]? = some c) :
    J.before xs h₀ p c.call = runAll (xs.take (position cfg xs c.op)) h₀ p := by
  have hnodup : ((J.parts p).map Contribution.call).Nodup := by
    rw [parts, map_call_contributions]
    exact J.calls_nodup p
  rw [before, find?_eq_of_nodup_map hnodup hc, Option.elim_some]

variable {c : Contribution} {x : Exchange}

/-- A part of a rank is a job that is an exchange. -/
theorem Jobs.Performs.exists_fits (h : J.Performs xs) (hc : (J.parts p)[n]? = some c) :
    ∃ x j e, xs[position cfg xs c.op]? = some x ∧ j.Fits p x ∧
      turns xs p (position cfg xs c.op) = n ∧ (J.jobs p)[n]? = some j ∧ j.Valid (J.rt p) ∧
      (J.rt p).rank = p ∧ c = ⟨j.call, j.operation e, j.items (J.rt p) e⟩ := by
  obtain ⟨j, e, hj, hceq⟩ := exists_job hc
  have hmem := List.mem_of_getElem? hj
  have hrank := (J.isRank p (lt_of_mem_jobs hmem)).rank_eq
  have hvalid := J.valid p j hmem
  have hp : p ∈ c.op.ranks := by
    have hmember := hvalid.member.mem
    rw [hrank] at hmember
    rw [hceq]
    exact hmember
  obtain ⟨x, hx, hfit, hturn⟩ := h.exists_exchange hc hj hp
  exact ⟨x, j, e, hx, hfit, hturn, hj, hvalid, hrank, hceq⟩

theorem Jobs.Performs.toRequest_eq (h : J.Performs xs) (hc : (J.parts p)[n]? = some c)
    (hx : xs[position cfg xs c.op]? = some x) : x.toRequest = c.op.toRequest := by
  obtain ⟨x', j, e, hx', hfit, -, -, -, -, rfl⟩ := h.exists_fits hc
  obtain rfl := Option.some_inj.mp (hx.symm.trans hx')
  exact hfit.request

/-- The exchange has the input where the call of a member has it. -/
theorem Jobs.Performs.input_eq (h : J.Performs xs) (hc : (J.parts p)[n]? = some c)
    (hx : xs[position cfg xs c.op]? = some x)
    (hwork : (∃ kind n path, c.op.work = .collective kind n path) ∨
      ∃ protocol dst n, c.op.work = .p2p protocol p dst n) :
    x.input p = J.placement.input p c.call := by
  obtain ⟨x', j, e, hx', hfit, -, hj, hvalid, hrank, rfl⟩ := h.exists_fits hc
  obtain rfl := Option.some_inj.mp (hx.symm.trans hx')
  rw [← hrank] at hwork
  obtain ⟨t, ht⟩ := hvalid.inputTensor_of_work hwork
  rw [hfit.input t ht, placement_input hj ht]

theorem Jobs.Performs.output_eq (h : J.Performs xs) (hc : (J.parts p)[n]? = some c)
    (hx : xs[position cfg xs c.op]? = some x)
    (hwork : (∃ kind n path, c.op.work = .collective kind n path) ∨
      ∃ protocol src n, c.op.work = .p2p protocol src p n) :
    x.output p = J.placement.output p c.call := by
  obtain ⟨x', j, e, hx', hfit, -, hj, hvalid, hrank, rfl⟩ := h.exists_fits hc
  obtain rfl := Option.some_inj.mp (hx.symm.trans hx')
  rw [← hrank] at hwork
  obtain ⟨t, ht⟩ := hvalid.outputTensor_of_work hwork
  rw [hfit.output t ht, placement_output hj ht]

/-- What stores to an output is a collective, or the receiver's side of a transfer. -/
theorem Jobs.work_of_output {m y : ℕ} {op : Op DataAct} {src : Cell}
    (hc : (J.parts p)[n]? = some c) (hop : HasOp c.items m op)
    (hact : op.act = .copy src (.output p c.call y)) :
    (∃ kind N path, c.op.work = .collective kind N path) ∨
      ∃ protocol src N, c.op.work = .p2p protocol src p N := by
  obtain ⟨j, e, hj, rfl⟩ := exists_job hc
  have hmem := List.mem_of_getElem? hj
  have hrank := (J.isRank p (lt_of_mem_jobs hmem)).rank_eq
  have hvalid := J.valid p j hmem
  obtain ⟨t, ht⟩ := hvalid.exists_outputTensor hop hact
  cases j with
  | barrier => cases ht
  | collective current a path => exact Or.inl ⟨a.kind, a.sliceBytes, path.pathKind, rfl⟩
  | p2p call current a N gid ks =>
    cases hvalid with
    | p2p _ _ hreceiver _ =>
      have hrole : a.role = .receiver := by
        by_contra hrole
        have hnone : (none : Option Tensor) = some t := (if_neg hrole).symm.trans ht
        cases hnone
      refine Or.inr ⟨a.protocol, a.srcRank.toNat, N, ?_⟩
      show Work.p2p a.protocol a.srcRank.toNat a.dstRank.toNat N = _
      rw [← hreceiver hrole, hrank]

variable {m₀ : PlacedMemory α} {s : State Task (Memory α)} {m y : ℕ} {op : Op DataAct} {src : Cell}
  (hxs : J.Performs xs) (htok : J.TokensDistinct) (hsteps : (J.world htok).StepsFresh)
  (hm : m₀.device.Zeroed)

include hm in
theorem Jobs.unplaced_zeroed : (J.unplaced xs m₀).Zeroed :=
  ⟨⟨hm.signal, hm.edgeSeq⟩, hm.stepPad⟩

include hxs hsteps hm in
/-- **What a part delivers is what its exchange delivers.** -/
theorem Jobs.delivered (hs : Reachable (device J.program α W) (J.unplaced xs m₀) s)
    (hc : (J.parts p)[n]? = some c) (hcopied : (J.world htok).Copied s p n c)
    (hop : HasOp c.items m op) (hact : op.act = .copy src (.output p c.call y)) :
    s.mem.byte (.output p c.call y) =
      runAll (xs.take (position cfg xs c.op + 1)) m₀.heap p (J.placement.output p c.call + y) := by
  obtain ⟨x, -, -, hx, -⟩ := hxs.exists_fits hc
  have hxc := hxs.toRequest_eq hc hx
  have hranks : x.ranks = c.op.ranks := congrArg Request.ranks hxc
  have hp : p ∈ x.ranks := by
    rw [hranks]
    exact (World.toPart (w := J.world htok) hc).mem
  have hzero : (J.unplaced xs m₀).Zeroed := unplaced_zeroed hm
  -- what a partner of the operation has in its input
  have hinput : ∀ {q k b : ℕ} {y : Contribution}, (J.parts q)[k]? = some y → y.op = c.op →
      ((∃ kind N path, c.op.work = .collective kind N path) ∨
        ∃ protocol dst N, c.op.work = .p2p protocol q dst N) →
      (J.unplaced xs m₀).byte (.input q y.call b) =
        runAll (xs.take (position cfg xs c.op)) m₀.heap q (x.input q + b) := by
    intro q k b y hy hyc hwork
    rw [← hyc] at hx hwork
    rw [hxs.input_eq hy hx hwork, ← hyc]
    show J.before xs m₀.heap q y.call _ = _
    rw [before_eq hy]
  have hwork := work_of_output hc hop hact
  rw [runAll_take_succ hx, ← hxs.output_eq hc hx hwork]
  rcases hwork with ⟨kind, N, path, hwork⟩ | ⟨protocol, r, N, hwork⟩
  · have hdeliv := (World.part (w := J.world htok) hc).delivers kind N path hwork
    obtain ⟨i, q, b, hq, hb, rfl, -⟩ := hdeliv.outputs m op hop src y hact
    obtain ⟨k, z, hz, hzc, hval⟩ := hsteps.output_eq hzero hs hc hwork hcopied hq hb
    rw [Exchange.apply_output (Exchange.source?_collective
      (show x.work = _ from (congrArg Request.work hxc).trans hwork) hp (by rwa [hranks]) hb), hval,
      hinput hz hzc (Or.inl ⟨kind, N, path, hwork⟩), hranks]
  · have htrans := (World.part (w := J.world htok) hc).transfers protocol r N hwork
    obtain ⟨hb, -⟩ := htrans.outputs m op hop src y hact
    obtain ⟨k, z, hz, hzc, hval⟩ :=
      World.transfer_eq (w := J.world htok) hzero.toFresh hs hc hwork hcopied
      |>.1 y hb
    rw [Exchange.apply_output (Exchange.source?_p2p
      (show x.work = _ from (congrArg Request.work hxc).trans hwork) hp hb), hval,
      hinput hz hzc (Or.inr ⟨protocol, p, N, hwork⟩)]

/-- Address `a` is one that the part of number `n` stores to. -/
def Jobs.StoresTo (J : Jobs cfg nonce W) (p n a : ℕ) : Prop :=
  ∃ c m op src y, (J.parts p)[n]? = some c ∧ HasOp c.items m op ∧
    op.act = .copy src (.output p c.call y) ∧ a = J.placement.output p c.call + y

include hxs htok in
/-- An exchange changes what the part of its member stores to, and nothing else. -/
theorem Jobs.apply_of_not_storesTo {a : ℕ} {h : Heaps α} (hc : (J.parts p)[n]? = some c)
    (hx : xs[position cfg xs c.op]? = some x) (ha : ¬ J.StoresTo p n a) :
    x.apply h p a = h p a := by
  have hxc := hxs.toRequest_eq hc hx
  refine Exchange.apply_of_not_output fun b hb => ?_
  by_contra hne
  obtain ⟨s, hs⟩ := Option.ne_none_iff_exists'.mp hne
  have hpart := World.part (w := J.world htok) hc
  obtain ⟨-, ⟨kind, N, path, i, q, b', hwork, hq, hb', rfl⟩ | ⟨protocol, r, N, hwork, hlt⟩⟩ :=
    Exchange.source?_cases hs
  · have hwork' : c.op.work = .collective kind N path :=
      (congrArg Request.work hxc).symm.trans hwork
    have hq' : c.op.ranks[i]? = some q := by
      rwa [← show x.ranks = c.op.ranks from congrArg Request.ranks hxc]
    obtain ⟨m, op, src, hop, hact⟩ := (hpart.delivers kind N path hwork').covers i q b' hq' hb'
    refine ha ⟨c, m, op, src, _, hc, hop, hact, ?_⟩
    rw [← hxs.output_eq hc hx (Or.inl ⟨kind, N, path, hwork'⟩), hb]
  · have hwork' : c.op.work = .p2p protocol r p N :=
      (congrArg Request.work hxc).symm.trans hwork
    obtain ⟨m, op, src, hop, hact⟩ := (hpart.transfers protocol r N hwork').covers b hlt
    refine ha ⟨c, m, op, src, _, hc, hop, hact, ?_⟩
    rw [← hxs.output_eq hc hx (Or.inr ⟨protocol, r, N, hwork'⟩), hb]

end Deliver

end GroupFreeCollectives
