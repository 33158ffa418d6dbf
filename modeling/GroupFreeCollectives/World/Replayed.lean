import GroupFreeCollectives.Replay
import GroupFreeCollectives.World.Polled
import GroupFreeCollectives.World.Relaunch
import GroupFreeCollectives.World.Sequential

/-!
# Collectives of a captured batch

What is captured of a call are its launches, with the tokens and the step base that the host has
computed.  A replay executes them again, while the device has counted on (`Jobs.replay`).

Behind two calls of one kind nothing of a launch is left that its next execution could take for
its own: the two slots of every edge hold the tokens of the calls in between, since a call that
moves data has at least two barriers, and the cells of the step pad hold their step values, since
all calls have the same chunks.  So a batch of two calls is enough (`Spaced`; bare barriers need
three), and the replays of a graph have the runs that the same calls have when they are made anew,
with the same bytes in every buffer and tensor (`replays_run_as_calls`).
-/

namespace GroupFreeCollectives

open TaskGraph Positions

/-! ## Tokens that are used again -/

/-- What is executed again is at least two calls and three barriers behind. -/
structure Spaced (call : ℕ → ℕ) (N c : ℕ) : Prop where
  lt : ∀ n < N, call n < N
  calls : ∀ n n', n < n' → n' < N → call n = call n' → n + 1 < n'
  barriers : ∀ n n', n < n' → n' < N → call n = call n' → 3 ≤ (n' - n) * c

namespace Jobs

variable {cfg : Config} {nonce : ℤ} {W : ℕ} {J : Jobs cfg nonce W}

namespace Repeats

variable {r : Request} {N p q n : ℕ} {x : Contribution} {call : ℕ → ℕ} {j : Job}
  (hJ : J.Repeats r N)

/-- The barriers of a job, with any epoch. -/
theorem filterMap_items (hJ : J.Repeats r N) (hj : j ∈ J.jobs p) (e : ℕ) :
    (j.items (J.rt p) e).filterMap (Item.tokenFor q) =
      if q ∈ r.ranks then Operation.tokens nonce cfg.alignment ⟨r, e⟩ else [] := by
  obtain ⟨n, hn⟩ := List.getElem?_of_mem hj
  obtain ⟨e', hx⟩ := Jobs.exists_part hn
  obtain ⟨-, -, hop⟩ := hJ.mem_of_part hx
  have hrequest : j.request = r := congrArg Operation.toRequest hop
  have hrank := J.isRank p (lt_of_mem_jobs hj)
  have hpart : Part cfg nonce p j.call ⟨r, e⟩ (j.items (J.rt p) e) := by
    have hpart := (J.valid p j hj).isPart e
    rw [hrank.config_eq, hrank.sessionNonce_eq, hrank.rank_eq] at hpart
    rw [← hrequest]
    rcases hpart.cases with ⟨-, h⟩ | ⟨F, h⟩
    · exact h.toPart
    · exact h.toPart
  exact hpart.filterMap_tokenFor q

include hJ

theorem edgeTokens_replay : edgeTokens (J.replay call) p q =
    if p ∈ r.ranks ∧ q ∈ r.ranks then (List.range N).flatMap fun n =>
      Operation.tokens nonce cfg.alignment ⟨r, J.epoch p (call n)⟩ else [] := by
  have hlen : (J.jobs p).length = if p ∈ r.ranks then N else 0 := by
    have hmap := congrArg List.length (hJ p)
    rw [List.length_map] at hmap
    rw [hmap]
    split <;> simp
  have hblocks : ((J.jobs p).mapIdx fun n j => j.items (J.rt p) (J.epoch p (call n))).map
      (List.filterMap (Item.tokenFor q)) = (List.range (J.jobs p).length).map fun n =>
        if q ∈ r.ranks then Operation.tokens nonce cfg.alignment ⟨r, J.epoch p (call n)⟩
        else [] := by
    ext1 n
    rw [List.getElem?_map, List.getElem?_mapIdx, List.getElem?_map]
    cases hj : (J.jobs p)[n]? with
    | none =>
      rw [List.getElem?_eq_none_iff] at hj
      rw [List.getElem?_eq_none (by simpa using hj)]
      rfl
    | some j =>
      rw [List.getElem?_range (List.getElem?_eq_some_iff.mp hj).1, Option.map_some, Option.map_some,
        Option.map_some, hJ.filterMap_items (List.mem_of_getElem? hj)]
  rw [edgeTokens, replay, List.filterMap_flatten, hblocks, hlen, ← List.flatMap_def]
  by_cases hp : p ∈ r.ranks
  · by_cases hq : q ∈ r.ranks
    · simp only [if_pos hp, if_pos hq, if_pos (And.intro hp hq)]
    · simp [hp, hq]
  · simp [hp]

/-- A token tells its call, and its place among those of the call. -/
theorem eq_of_token_eq {n' a a' tok : ℕ} (htok : J.TokensDistinct) (hp : p ∈ r.ranks)
    (hn : n < N) (hn' : n' < N)
    (ha : (Operation.tokens nonce cfg.alignment ⟨r, J.epoch p n⟩)[a]? = some tok)
    (ha' : (Operation.tokens nonce cfg.alignment ⟨r, J.epoch p n'⟩)[a']? = some tok) :
    n = n' ∧ a = a' := by
  obtain ⟨x, hx⟩ := hJ.exists_part hp hn
  obtain ⟨y, hy⟩ := hJ.exists_part hp hn'
  obtain ⟨-, -, hxop⟩ := hJ.mem_of_part hx
  obtain ⟨-, -, hyop⟩ := hJ.mem_of_part hy
  obtain rfl : n = n' := by
    refine eq_of_nodup_flatMap (b := tok) (htok p) hx ?_ hy ?_
    · rw [hxop]
      exact List.mem_of_getElem? ha
    · rw [hyop]
      exact List.mem_of_getElem? ha'
  have hnd := (List.nodup_flatMap.mp (htok p)).1 _ (List.mem_of_getElem? hx)
  rw [hxop] at hnd
  exact ⟨rfl, (List.getElem?_inj (List.getElem?_eq_some_iff.mp ha).1 hnd).mp (ha.trans ha'.symm)⟩

/-- Tokens two apart differ, if what is executed again is far enough behind. -/
theorem token_ne_of_two_apart {a tok tok' : ℕ} (htok : J.TokensDistinct) (hp : p ∈ r.ranks)
    (hcall : Spaced call N (r.work.shape cfg.alignment).offsets.length)
    (h : ((List.range N).flatMap fun n =>
      Operation.tokens nonce cfg.alignment ⟨r, J.epoch p (call n)⟩)[a]? = some tok)
    (h' : ((List.range N).flatMap fun n =>
      Operation.tokens nonce cfg.alignment ⟨r, J.epoch p (call n)⟩)[a + 2]? = some tok') :
    tok ≠ tok' := by
  rintro rfl
  have hrange : ∀ {k l : ℕ}, (List.range N)[k]? = some l → k < N ∧ k = l := by
    intro k l h
    obtain ⟨hlt, heq⟩ := List.getElem?_eq_some_iff.mp h
    rw [List.getElem_range] at heq
    exact ⟨by simpa using hlt, heq⟩
  obtain ⟨n, n₁, b, hn, hb, rfl⟩ := exists_of_getElem?_flatMap h
  obtain ⟨n', n₂, b', hn', hb', heq⟩ := exists_of_getElem?_flatMap h'
  obtain ⟨hlt, rfl⟩ := hrange hn
  obtain ⟨hlt', rfl⟩ := hrange hn'
  obtain ⟨hsame, rfl⟩ := hJ.eq_of_token_eq htok hp (hcall.lt n hlt) (hcall.lt n' hlt') hb hb'
  -- all calls have the same number of barriers
  have hstart : ∀ k ≤ N, partStart (fun n => Operation.tokens nonce cfg.alignment
      ⟨r, J.epoch p (call n)⟩) (List.range N) k =
        k * (r.work.shape cfg.alignment).offsets.length := fun k hk =>
    partStart_eq_mul fun i hi => ⟨i, List.getElem?_range (by omega), List.length_map _⟩
  rw [hstart n hlt.le, hstart n' hlt'.le] at heq
  have hnn : n < n' := by
    by_contra hle
    have hmul := Nat.mul_le_mul_right (r.work.shape cfg.alignment).offsets.length
      (Nat.le_of_not_lt hle)
    omega
  have hthree := hcall.barriers n n' hnn hlt' hsame
  rw [Nat.sub_mul] at hthree
  omega

/-- **The tokens of what is executed serve**, if what is executed again is far enough behind. -/
theorem edgesAgree_replay (htok : J.TokensDistinct)
    (hcall : Spaced call N (r.work.shape cfg.alignment).offsets.length) :
    EdgesAgree (J.replay call) where
  symm p q := by
    rw [hJ.edgeTokens_replay, hJ.edgeTokens_replay]
    by_cases hp : p ∈ r.ranks
    · by_cases hq : q ∈ r.ranks
      · rw [if_pos ⟨hp, hq⟩, if_pos ⟨hq, hp⟩]
        refine List.flatMap_congr fun n hn => ?_
        rw [hJ.epoch_eq hp hq (hcall.lt n (List.mem_range.mp hn))]
      · rw [if_neg fun h => hq h.2, if_neg fun h => hq h.1]
    · rw [if_neg fun h => hp h.1, if_neg fun h => hp h.2]
  ne_zero p q i tok he := by
    have hmem : tok ∈ edgeTokens (J.replay call) p q := List.mem_of_getElem? he.getElem?
    rw [hJ.edgeTokens_replay] at hmem
    split at hmem
    case isTrue =>
      obtain ⟨n, -, hn⟩ := List.mem_flatMap.mp hmem
      exact Operation.ne_zero_of_mem_tokens hn
    case isFalse => cases hmem
  ne_of_two_apart p q a tok tok' h h' := by
    rw [hJ.edgeTokens_replay] at h h'
    split at h
    case isTrue hpq =>
      rw [if_pos hpq] at h'
      exact hJ.token_ne_of_two_apart htok hpq.1 hcall h h'
    case isFalse => cases h

end Repeats

end Jobs

/-! ## Step values that are used again -/

/-- The work of an operation with another epoch. -/
def FusedWork.ofRequest {o o' : Operation} (F : FusedWork o) (h : o'.toRequest = o.toRequest) :
    FusedWork o' :=
  ⟨F.kind, F.n, F.numChannels, F.chunkBytes, (congrArg Request.work h).trans F.work_eq⟩

namespace Jobs

variable {cfg : Config} {nonce : ℤ} {W : ℕ} {J : Jobs cfg nonce W}

/-- A step value is waited for by the kernel of a part on the fused path. -/
theorem exists_of_stepAwait (htok : J.TokensDistinct) {t : Task} {cells : List ℕ} {v : ℕ}
    (ht : IsTask J.program t) (hact : t.op.act = .data (.stepAwait cells v)) :
    ∃ n x m op, ∃ F : FusedWork x.op, ∃ ch k, (J.parts t.rank)[n]? = some x ∧
      FusedPart cfg nonce W F t.rank x.call x.items ∧ HasOp x.items m op ∧
      t = (J.world htok).task t.rank n m op ∧ (F.geometry cfg nonce W).IsChunk ch k ∧
      cells = F.cells cfg nonce W t.rank ch k ∧ v = stepValue (x.op.token nonce 1) k := by
  obtain ⟨n, x, m, op, hx, hop, heq, hd⟩ := World.exists_of_isTask (w := J.world htok) ht hact
  rcases (World.part (w := J.world htok) hx).cases with ⟨-, h⟩ | ⟨F, h⟩
  · obtain ⟨src, dst, hcopy⟩ := h.act_eq_copy m op hop
    rw [hd] at hcopy
    cases hcopy
  · obtain ⟨ch, k, hch, hF⟩ := h.exists_fusedOp hop
    obtain ⟨hcells, hv⟩ := FusedPart.of_stepAwait hF hd
    exact ⟨n, x, m, op, F, ch, k, hx, h, hop, heq, hch, hcells, hv⟩

namespace Repeats

variable {r : Request} {N p q n n' m m' ch k : ℕ} {x y : Contribution} {call : ℕ → ℕ}
  {op op' : Op DataAct} (hJ : J.Repeats r N)
  {htok : J.TokensDistinct} (hsteps : (J.world htok).StepsFresh)
include hJ

/-- The step base of call number `n`. -/
theorem token_eq (hx : (J.parts p)[n]? = some x) :
    x.op.token nonce 1 = computeToken nonce r.groupId (J.epoch p n + 1) := by
  rw [(hJ.mem_of_part hx).2.2]
  rfl

/-- The step values of what is executed. -/
theorem step_reissue (hx : (J.parts p)[n]? = some x) (hop : HasOp x.items m op) :
    (J.reissue r call).step p ((J.world htok).start p n + m) (stepValue (x.op.token nonce 1) k) =
      stepValue (computeToken nonce r.groupId (J.epoch p (call n) + 1)) k := by
  obtain ⟨it, ops, hm, -, -⟩ := hop
  have hlocate : locate Contribution.items (J.parts p) ((J.world htok).start p n + m) = (n, m) :=
    locate_partStart_add hx (List.getElem?_eq_some_iff.mp hm).1
  show rebase _ _ _ = _
  rw [hlocate, hJ.token_eq hx]
  exact rebase_stepValue computeToken_lt k

/-- The part of a member in a call. -/
theorem exists_fusedPart (htok : J.TokensDistinct) (hx : (J.parts p)[n]? = some x)
    (F : FusedWork x.op) (hq : q ∈ r.ranks) (hn' : n' < N) :
    ∃ y, (J.parts q)[n']? = some y ∧ ∃ h : y.op.toRequest = x.op.toRequest,
      FusedPart cfg nonce W (F.ofRequest h) q y.call y.items := by
  obtain ⟨y, hy⟩ := hJ.exists_part hq hn'
  have hrequest : y.op.toRequest = x.op.toRequest := by
    rw [(hJ.mem_of_part hx).2.2, (hJ.mem_of_part hy).2.2]
  refine ⟨y, hy, hrequest, ?_⟩
  rcases (World.part (w := J.world htok) hy).cases with ⟨hempty, -⟩ | ⟨F', h⟩
  · exact (hempty.false (F.ofRequest hrequest)).elim
  · rwa [Subsingleton.elim (F.ofRequest hrequest) F']

include hsteps

/-- Calls with one step base are one call. -/
theorem eq_of_base_eq (hx : (J.parts p)[n]? = some x) (F : FusedWork x.op) (hp : q ∈ r.ranks)
    (hn : n' < N) (hn' : m < N)
    (h : computeToken nonce r.groupId (J.epoch q n' + 1) =
      computeToken nonce r.groupId (J.epoch q m + 1)) : n' = m := by
  obtain ⟨y, hy, hreq, -⟩ := hJ.exists_fusedPart htok hx F hp hn
  obtain ⟨z, hz, hreq', -⟩ := hJ.exists_fusedPart htok hx F hp hn'
  refine hsteps.eq_of_stepBase_eq hy hz (F.ofRequest hreq) (F.ofRequest hreq') ?_
  rw [hJ.token_eq hy, hJ.token_eq hz, h]

omit hsteps in
/-- **A publication is superseded** before a wait of a call that is not the next one. -/
theorem superseded {m₀ : Memory Unit} {s : State Task (Memory Unit)} {l l' : List Task}
    (hm : m₀.Fresh) (hs : Reachable (device J.program Unit W) m₀ s)
    (hx : (J.parts p)[n]? = some x) {F : FusedWork x.op}
    (h : FusedPart cfg nonce W F p x.call x.items) (hop : HasOp x.items m op)
    (hch : (F.geometry cfg nonce W).IsChunk ch k)
    (hready : Ready (device J.program Unit W) s ((J.world htok).task p n m op))
    (hy : (J.parts q)[n']? = some y) {F' : FusedWork y.op}
    (h' : FusedPart cfg nonce W F' q y.call y.items) (hop' : HasOp y.items m' op') (hne : p ≠ q)
    (hsplit : s.done = l ++ (J.world htok).task q n' m' op' :: l') (hlt : n' + 1 < n) :
    ∃ e ∈ l, PublishesStep p ((F.geometry cfg nonce W).cellOff ch k q) e := by
  obtain ⟨hq, -, -⟩ := hJ.mem_of_part hy
  obtain ⟨hp, hn, hxop⟩ := hJ.mem_of_part hx
  have hsound := (J.world htok).synchronized.tokenSound (α := Unit) hm
  -- the publication of the call between the two
  obtain ⟨z, hz, hreq, h₁⟩ := hJ.exists_fusedPart htok hx F hq (show n' + 1 < N by omega)
  have hch₁ : ((F.ofRequest hreq).geometry cfg nonce W).IsChunk ch k := ⟨hch.channel, hch.chunk⟩
  have hpz : p ∈ z.op.ranks := by
    rw [(hJ.mem_of_part hz).2.2]
    exact hp
  obtain ⟨m₁, op₁, v₁, hop₁, hact₁⟩ : ∃ m₁ op₁ v₁, HasOp z.items m₁ op₁ ∧
      op₁.act = .stepPublish p ((F.geometry cfg nonce W).cellOff ch k q) v₁ := by
    obtain ⟨m₁, hop₁⟩ := h₁.exists_hasOp hch₁ (.publish hpz hne)
    exact ⟨m₁, _, _, hop₁, rfl⟩
  refine ⟨(J.world htok).task q (n' + 1) m₁ op₁, ?_, v₁, congrArg Act.data hact₁⟩
  have hmain₁ := World.mainTask_task (w := J.world htok) hz hop₁ (h₁.between_tokens hop₁).2.2
  -- it has fired, since the rank that waits has ended the barrier behind it
  have hearlier : (J.world htok).Earlier Unit ((J.world htok).task q (n' + 1) m₁ op₁)
      ((J.world htok).task p n m op) := by
    obtain ⟨it, ops, hm₁, hcmd, hmem⟩ := id hop₁
    obtain ⟨i, z', e, hz', heq, he, hexit⟩ := World.exists_exit_of_token (α := Unit)
      (w := J.world htok) (o := ⟨_, _, .data _⟩) hz hm₁
      (by rw [hcmd]; exact List.mem_map_of_mem hmem) (h₁.between_tokens hop₁).2.1 hpz
    obtain ⟨z'', hz''⟩ := hJ.exists_part hp (show n' + 1 < N by omega)
    obtain rfl : i = n' + 1 := by
      refine World.eq_of_op_eq (w := J.world htok) hz' hz'' ?_
      rw [heq, (hJ.mem_of_part hz).2.2, (hJ.mem_of_part hz'').2.2, hJ.epoch_eq hp hq (by omega)]
    exact hexit.trans (he.earlier
      (World.mainTask_task (w := J.world htok) hx hop (h.between_tokens hop).2.2) hlt)
  have hno : ∀ e, ¬ TokenEdge J.program e ((J.world htok).task p n m op) := by
    rintro e hedge
    generalize heq : (J.world htok).task p n m op = t at hedge
    cases hedge
    cases congrArg (fun t => t.op.act) heq
  exact hs.mem_of_hb hsound hsplit
    ((World.mainTask_task (w := J.world htok) hy hop' (h'.between_tokens hop').2.2).earlier hmain₁
      (Nat.lt_succ_self n')) (hready.hb_mem hsound hs hno hearlier)

omit hsteps in
/-- A later call publishes after the wait. -/
theorem earlier_of_lt (hx : (J.parts p)[n]? = some x) {F : FusedWork x.op}
    (h : FusedPart cfg nonce W F p x.call x.items) (hop : HasOp x.items m op)
    (hy : (J.parts q)[n']? = some y) {F' : FusedWork y.op}
    (h' : FusedPart cfg nonce W F' q y.call y.items) (hop' : HasOp y.items m' op') (hlt : n < n') :
    (J.world htok).Earlier Unit ((J.world htok).task p n m op)
      ((J.world htok).task q n' m' op') := by
  obtain ⟨hp, -, -⟩ := hJ.mem_of_part hx
  obtain ⟨hq, hn', hyop⟩ := hJ.mem_of_part hy
  have hpy : p ∈ y.op.ranks := by
    rw [hyop]
    exact hp
  obtain ⟨i, z, e, hz, hzop, he, hentry⟩ := World.exists_entry_of_token (α := Unit)
    (w := J.world htok) (o := ⟨op'.thread, op'.phase, .data op'.act⟩) hy
    (h'.between_tokens hop').1 hpy
  obtain ⟨z', hz'⟩ := hJ.exists_part hp hn'
  obtain rfl : i = n' := by
    refine World.eq_of_op_eq (w := J.world htok) hz hz' ?_
    rw [hzop, hyop, (hJ.mem_of_part hz').2.2, hJ.epoch_eq hp hq hn']
  exact ((World.mainTask_task (w := J.world htok) hx hop
    (h.between_tokens hop).2.2).earlier he hlt).trans hentry

/-- **What was published last** is what a wait is for exactly if its launch is that of the wait. -/
theorem stepValue_eq_iff (hcall : Spaced call N (r.work.shape cfg.alignment).offsets.length)
    {m₀ : Memory Unit} {s : State Task (Memory Unit)} {l l' : List Task}
    (hm : m₀.Fresh) (hs : Reachable (device J.program Unit W) m₀ s)
    (hx : (J.parts p)[n]? = some x) {F : FusedWork x.op}
    (h : FusedPart cfg nonce W F p x.call x.items) (hop : HasOp x.items m op)
    (hch : (F.geometry cfg nonce W).IsChunk ch k)
    (hready : Ready (device J.program Unit W) s ((J.world htok).task p n m op))
    (hy : (J.parts q)[n']? = some y) {F' : FusedWork y.op}
    (h' : FusedPart cfg nonce W F' q y.call y.items) (hop' : HasOp y.items m' op') (hne : p ≠ q)
    (hsplit : s.done = l ++ (J.world htok).task q n' m' op' :: l')
    (hlast : ∀ e ∈ l, ¬ PublishesStep p ((F.geometry cfg nonce W).cellOff ch k q) e) :
    stepValue (y.op.token nonce 1) k = stepValue (x.op.token nonce 1) k ↔
      stepValue (computeToken nonce r.groupId (J.epoch q (call n') + 1)) k =
        stepValue (computeToken nonce r.groupId (J.epoch p (call n) + 1)) k := by
  obtain ⟨hp, hn, -⟩ := hJ.mem_of_part hx
  obtain ⟨hq, hn', -⟩ := hJ.mem_of_part hy
  constructor
  · intro hval
    have htoken : y.op.token nonce 1 = x.op.token nonce 1 :=
      stepValue_inj computeToken_lt computeToken_lt hval
    obtain rfl : n' = n := by
      refine hJ.eq_of_base_eq hsteps hx F hq hn' hn ?_
      rw [← hJ.token_eq hy, htoken, hJ.token_eq hx, hJ.epoch_eq hp hq hn]
    rw [hJ.epoch_eq hp hq (hcall.lt n' hn)]
  · intro hval
    have htoken := stepValue_inj computeToken_lt computeToken_lt hval
    have hsame : call n' = call n := by
      refine hJ.eq_of_base_eq hsteps hx F hq (hcall.lt n' hn') (hcall.lt n hn) ?_
      rw [htoken, hJ.epoch_eq hp hq (hcall.lt n hn)]
    rcases Nat.lt_trichotomy n' n with hlt | rfl | hlt
    · -- what the launch published when it was executed before is no longer there
      obtain ⟨e, he, hpublishes⟩ := hJ.superseded hm hs hx h hop hch hready hy h' hop' hne hsplit
        (hcall.calls n' n hlt hn hsame)
      exact absurd hpublishes (hlast e he)
    · rw [hJ.token_eq hy, hJ.token_eq hx, hJ.epoch_eq hp hq hn]
    · have hdone : (J.world htok).task q n' m' op' ∈ s.done := by
        rw [hsplit]
        exact List.mem_append_right l List.mem_cons_self
      exact absurd (hs.hb_mem ((J.world htok).synchronized.tokenSound hm)
        (hJ.earlier_of_lt hx h hop hy h' hop' hlt) hdone) hready.fresh

/-- **The step values of what is executed serve**, if what is executed again is far enough
behind. -/
theorem stepsAlike
    (hcall : Spaced call N (r.work.shape cfg.alignment).offsets.length) :
    (J.reissue r call).StepsAlike J.program W where
  ne_zero t ht cells v hact := by
    refine ⟨hsteps.synchronized.ne_zero t ht cells v hact, ?_⟩
    obtain ⟨n, x, m, op, F, ch, k, hx, -, hop, heq, hch, -, rfl⟩ :=
      exists_of_stepAwait htok ht hact
    obtain ⟨hp, hn, -⟩ := hJ.mem_of_part hx
    obtain ⟨y, hy, hreq, -⟩ := hJ.exists_fusedPart htok hx F hp (hcall.lt n hn)
    have hzero := hsteps.ne_zero _ y (List.mem_of_getElem? hy) (F.ofRequest hreq) ch k
      ⟨hch.channel, hch.chunk⟩
    rw [show t.idx = (J.world htok).start t.rank n + m from congrArg Task.idx heq]
    rwa [hJ.step_reissue hx hop, ← hJ.token_eq hy]
  last m₀ s t hm hs hready cells v hact c hc l u l' hsplit hlast w hpub := by
    obtain ⟨n, x, m, op, F, ch, k, hx, h, hop, heq, hch, rfl, rfl⟩ :=
      exists_of_stepAwait htok hready.task hact
    obtain ⟨q, hq, hne, rfl⟩ := (FusedPart.mem_cells h.nodup h.mem).mp hc
    have hdone : u ∈ s.done := by
      rw [hsplit]
      exact List.mem_append_right l List.mem_cons_self
    obtain ⟨n', y, m', op', F', ch', k', hy, h', hop', htask, hd', hch', hF'⟩ :=
      World.exists_of_stepPublish (w := J.world htok) (hs.task_of_mem hdone) hpub
    obtain ⟨-, -, -, hcell, rfl⟩ := FusedPart.of_stepPublish hF' hd'
    -- the cell tells the rank and the chunk
    obtain ⟨rfl, rfl, rfl⟩ := FusedKernelArgs.stepCell_inj (h.valid.chunk_lt_max hch)
      (h'.valid.chunk_lt_max hch') ((J.world htok).lt _ x (List.mem_of_getElem? hx) q hq)
      ((J.world htok).lt _ y (List.mem_of_getElem? hy) _ h'.mem) hcell
    rw [show t.idx = (J.world htok).start t.rank n + m from congrArg Task.idx heq,
      show u.idx = (J.world htok).start u.rank n' + m' from congrArg Task.idx htask,
      hJ.step_reissue hx hop, hJ.step_reissue hy hop']
    rw [heq] at hready
    exact hJ.stepValue_eq_iff hsteps hcall hm.toFresh hs hx h hop hch hready hy h' hop'
      (Ne.symm hne) (hsplit.trans (by rw [← htask])) hlast

/-- **What is executed again runs as the calls do**, with the same bytes everywhere. -/
theorem alike {α : Type} {m₀ : PlacedMemory α}
    (hcall : Spaced call N (r.work.shape cfg.alignment).offsets.length)
    (hm : m₀.device.Zeroed) :
    Alike (placedDevice J.placement J.program α W) (placedDevice J.placement (J.replay call) α W)
      (J.reissue r call).task m₀ m₀ SameBytes := by
  have hprogram : (J.reissue r call).program J.program = J.replay call :=
    hJ.program_reissue htok
  have hsync : Synchronized J.program W := (J.world htok).synchronized
  have halike := @Reissue.alike (J.reissue r call) J.program J.placement α W m₀ hsync.wellFormed
    hsync.edgesAgree (hprogram ▸ hJ.edgesAgree_replay htok hcall) (hJ.stepsAlike hsteps hcall) hm
  rwa [hprogram] at halike

end Repeats

end Jobs

/-! ## The benchmark -/

/-- The executions of a captured call are a batch apart. -/
theorem CudaGraph.spaced {g : CudaGraph} {c : ℕ} (hbatch : 2 ≤ g.batchIters)
    (hreplays : 1 ≤ g.replays) (hthree : 3 ≤ g.batchIters * c) :
    Spaced g.call g.executions c where
  lt n hn := by
    refine Nat.lt_of_lt_of_le (call_lt (by omega) hn) ?_
    have hmul := Nat.mul_le_mul_left g.batchIters hreplays
    unfold calls executions
    omega
  calls n n' hlt hn' heq := by
    obtain ⟨d, rfl⟩ := Nat.exists_eq_add_of_lt hlt
    have hle := (replayed_of_call_eq (d := d + 1) (by omega) (Nat.succ_pos d) heq.symm).1
    omega
  barriers n n' hlt hn' heq := by
    obtain ⟨d, rfl⟩ := Nat.exists_eq_add_of_lt hlt
    have hle := (replayed_of_call_eq (d := d + 1) (by omega) (Nat.succ_pos d) heq.symm).1
    have hmul := Nat.mul_le_mul_right c hle
    have hsub : n + d + 1 - n = d + 1 := by omega
    rw [hsub]
    omega

namespace Jobs

variable {cfg : Config} {nonce : ℤ} {W : ℕ} {J : Jobs cfg nonce W} {r : Request} {N : ℕ}

/-- A call that moves data has two barriers at least. -/
theorem Repeats.two_le_length_offsets (hJ : J.Repeats r N) (hN : 0 < N) (hranks : r.ranks ≠ [])
    (hwork : r.work ≠ .barrier) : 2 ≤ (r.work.shape cfg.alignment).offsets.length := by
  obtain ⟨p, hp⟩ := List.exists_mem_of_ne_nil _ hranks
  obtain ⟨x, hx⟩ := hJ.exists_part hp hN
  obtain ⟨j, e, hj, rfl⟩ := exists_job hx
  obtain rfl : j.request = r := congrArg Operation.toRequest (hJ.mem_of_part hx).2.2
  have hvalid := J.valid p j (List.mem_of_getElem? hj)
  cases j with
  | barrier => exact absurd rfl hwork
  | p2p => exact Nat.le_refl 2
  | collective current a path =>
    cases path with
    | pipelined chunks =>
      cases hvalid with
      | collective _ _ _ _ hready _ =>
        obtain ⟨hcont, -⟩ := layoutChunks_contiguous cfg.alignment_pow (Nat.le_of_lt hready.1)
          hready.2.2
        have hpos : 0 < (layoutChunks a.sliceBytes chunks cfg.alignment).length := by
          refine List.length_pos_iff.mpr fun hnil => ?_
          rw [hnil] at hcont
          exact Nat.ne_of_lt hready.2.2 hcont
        show 2 ≤ (List.range ((layoutChunks a.sliceBytes chunks cfg.alignment).length + 1)).length
        rw [List.length_range]
        omega
    | _ => exact Nat.le_refl 2

end Jobs

namespace Sessions

variable {cfg : Config} {nonce : ℤ} {W : ℕ} {S : Sessions cfg nonce W} {xs : List Exchange}
  {α : Type} {m₀ : PlacedMemory α} {r : Request} {g : CudaGraph}

/-- **Replays of a captured batch run as if its calls were made anew**, whatever data path the
calls take and however the ranks interleave: the same runs, with the same bytes. -/
theorem replays_run_as_calls (hr : S.toJobs.Repeats r g.executions) (hranks : r.ranks ≠ [])
    (hreplays : 1 ≤ g.replays) (hbatch : 2 ≤ g.batchIters)
    (hbarrier : r.work = .barrier → 3 ≤ g.batchIters) (hxs : S.toJobs.Performs xs)
    (htok : S.toJobs.TokensDistinct) (hsteps : (S.toJobs.world htok).StepsFresh)
    (hapart : ∀ p, ∀ j ∈ S.toJobs.jobs p, j.Apart) (hm : m₀.device.Zeroed) :
    (∀ s, Reachable (placedDevice S.toJobs.placement S.program α W) m₀ s →
      ∃ x, Reachable (placedDevice S.toJobs.placement (S.toJobs.replay g.call) α W) m₀ x ∧
        x.done = s.done.map (S.toJobs.reissue r g.call).task ∧ SameBytes s.mem x.mem) ∧
    ∀ x, Reachable (placedDevice S.toJobs.placement (S.toJobs.replay g.call) α W) m₀ x →
      (∃ s, Reachable (placedDevice S.toJobs.placement S.program α W) m₀ s ∧
        x.done = s.done.map (S.toJobs.reissue r g.call).task ∧ SameBytes s.mem x.mem ∧
        ∀ p k, S.toJobs.At p (turns xs p k) s.done →
          x.mem.heap p = runAll (xs.take k) m₀.heap p) ∧
      (Finished (placedDevice S.toJobs.placement (S.toJobs.replay g.call) α W) x →
        x.mem.heap = runAll xs m₀.heap) ∧
      ∃ x', Reachable (placedDevice S.toJobs.placement (S.toJobs.replay g.call) α W) m₀ x' ∧
        Finished (placedDevice S.toJobs.placement (S.toJobs.replay g.call) α W) x' ∧
          ∀ t ∈ x.done, t ∈ x'.done := by
  have hN : 0 < g.executions := by
    have hmul := Nat.mul_le_mul hbatch hreplays
    unfold CudaGraph.executions
    omega
  have hthree : 3 ≤ g.batchIters * (r.work.shape cfg.alignment).offsets.length := by
    by_cases hwork : r.work = .barrier
    · rw [hwork]
      simpa [Work.shape, Runtime.Shape.offsets] using hbarrier hwork
    · have htwo := Nat.mul_le_mul hbatch (hr.two_le_length_offsets hN hranks hwork)
      omega
  have halike := @Jobs.Repeats.alike cfg nonce W S.toJobs r g.executions g.call hr htok hsteps α m₀
    (CudaGraph.spaced hbatch hreplays hthree) hm
  rw [S.program_eq]
  refine ⟨fun s hs => halike.exists_image hs, fun x hx => ?_⟩
  obtain ⟨s, hs, hdone, hsame⟩ := halike.exists_preimage hx
  refine ⟨⟨s, hs, hdone, hsame, fun p k hat => ?_⟩, fun hfinished => ?_, ?_⟩
  · rw [hsame.heap]
    exact heap_eq hxs htok hsteps hm hapart hs hat
  · rw [hsame.heap]
    exact heap_eq_of_finished hxs htok hsteps hm hapart hs
      ((halike.finished_iff hs hdone).mp hfinished)
  · obtain ⟨s', hs', hfinished, hsub⟩ := placed_exists_finished hxs htok hsteps hapart hm
      (S.program_eq ▸ hs)
    rw [S.program_eq] at hs' hfinished
    obtain ⟨x', hx', hdone', -⟩ := halike.exists_image hs'
    refine ⟨x', hx', (halike.finished_iff hs' hdone').mpr hfinished, fun t ht => ?_⟩
    rw [hdone] at ht
    rw [hdone']
    obtain ⟨u, hu, rfl⟩ := List.mem_map.mp ht
    exact List.mem_map_of_mem (hsub u hu)

end Sessions

/-! ## Two ranks -/

section Pair

/-- A rank of two registers the world and gathers four bytes four times. -/
def gatherCalls (rank : Fin 2) : List Runtime.Call :=
  .register [0, 1] (some 7) [] :: (List.range 4).map fun n =>
    .collective n .main (Runtime.pairGroup rank)
      (.data (.allGather (Runtime.pairTensor 4096 4) (Runtime.pairTensor 8192 8) none))

theorem gatherChecked : PairChecked (gatherCalls 0) (gatherCalls 1) := by
  constructor <;> decide +kernel

def gatherSessions : Sessions Config.default 1 2 := gatherChecked.sessions

theorem gatherSessions_tokensDistinct : gatherSessions.toJobs.TokensDistinct := by
  have hall : ∀ p < 2, ((gatherSessions.toJobs.parts p).flatMap fun x =>
      x.op.tokens 1 Config.default.alignment).Nodup := by decide +kernel
  intro p
  by_cases hp : p < 2
  · exact hall p hp
  · rw [Jobs.parts, gatherSessions.toJobs.jobs_eq_nil p (Nat.le_of_not_lt hp)]
    exact List.nodup_nil

/-- What the two ranks do again and again. -/
def gatherRequest : Request := ⟨7, [0, 1], .collective .allGather 4 .oneShot⟩

theorem gatherSessions_repeats : gatherSessions.toJobs.Repeats gatherRequest 4 := by
  have hall : ∀ p < 2, (gatherSessions.toJobs.jobs p).map Job.request =
      List.replicate 4 gatherRequest := by decide +kernel
  intro p
  by_cases hp : p < 2
  · have hmem : p ∈ gatherRequest.ranks := by
      interval_cases p <;> decide
    rw [hall p hp, if_pos hmem]
  · have hnot : p ∉ gatherRequest.ranks := by
      intro hmem
      have hlt : ∀ q ∈ gatherRequest.ranks, q < 2 := by decide
      exact hp (hlt p hmem)
    rw [gatherSessions.toJobs.jobs_eq_nil p (Nat.le_of_not_lt hp), if_neg hnot]
    rfl

/-- The theorem for two gathers in a graph that is replayed twice.  In the end rank 1 has the
bytes of rank 0. -/
theorem replays_run_as_calls_witness : ∃ x : State Task (PlacedMemory (ℕ × ℕ)),
    Reachable (placedDevice gatherSessions.toJobs.placement
      (gatherSessions.toJobs.replay (CudaGraph.call ⟨0, 2, 2, 0⟩)) (ℕ × ℕ) 2) placeNames x ∧
    Finished (placedDevice gatherSessions.toJobs.placement
      (gatherSessions.toJobs.replay (CudaGraph.call ⟨0, 2, 2, 0⟩)) (ℕ × ℕ) 2) x ∧
    x.mem.heap 1 8192 = (0, 4096) := by
  have hruns := Sessions.replays_run_as_calls (g := ⟨0, 2, 2, 0⟩) gatherSessions_repeats
    (by decide) (by decide) (by decide) (by decide) gatherChecked.performs
    gatherSessions_tokensDistinct
    (gatherChecked.stepsFresh gatherSessions_tokensDistinct (by decide +kernel))
    (gatherChecked.apart (by decide +kernel)) placeNames_zeroed
  obtain ⟨-, -, x, hx, hfinished, -⟩ := hruns.2 _ .init
  refine ⟨x, hx, hfinished, ?_⟩
  rw [(hruns.2 x hx).2.1 hfinished]
  decide +kernel

end Pair

end GroupFreeCollectives
