import GroupFreeCollectives.Runtime.Trace

/-!
# Members launch the same barriers

Two members of a group that make the same calls on it launch the same barriers, however
their other calls differ: a run's log of a group (`Session.launched`) depends on the
shapes of the calls on that group only (`launched_eq`), and the shape of a call that
passes its checks on nothing that is local to the rank (`Matched.callShape_eq`).
-/

namespace GroupFreeCollectives

open Tiling

namespace Runtime

variable {rt rt' : Runtime}

/-! ## The log of a group -/

/-- Every call in `p` returns. -/
def Session.Returns (p : Call → Bool) (x : Session rt) : List Call → Prop
  | [] => True
  | c :: cs => (p c → ∃ r, (x.run c).1 = .ok r) ∧ (x.run c).2.Returns p cs

/-- The epochs of the barriers that calls of these shapes launch. -/
def shapeEpochs (e : ℕ) : List Shape → List ℕ
  | [] => []
  | sh :: shs => sh.offsets.map (e + ·) ++ shapeEpochs (e + sh.numEpochs) shs

theorem le_of_mem_shapeEpochs {e k : ℕ} {shs : List Shape} (h : k ∈ shapeEpochs e shs) : e ≤ k := by
  induction shs generalizing e with
  | nil => cases h
  | cons sh shs ih =>
    rcases List.mem_append.mp h with h | h
    · obtain ⟨i, -, rfl⟩ := List.mem_map.mp h
      exact Nat.le_add_right e i
    · exact le_trans (Nat.le_add_right e _) (ih h)

/-- The epochs of the barriers increase. -/
theorem pairwise_shapeEpochs (e : ℕ) (shs : List Shape) : (shapeEpochs e shs).Pairwise (· < ·) := by
  induction shs generalizing e with
  | nil => exact List.Pairwise.nil
  | cons sh shs ih =>
    refine List.pairwise_append.mpr ⟨?_, ih _, ?_⟩
    · exact List.pairwise_map.mpr (sh.pairwise_offsets.imp fun h => Nat.add_lt_add_left h e)
    · intro a ha b hb
      obtain ⟨i, hi, rfl⟩ := List.mem_map.mp ha
      have hi' := Shape.lt_numEpochs_of_mem hi
      have hb' := le_of_mem_shapeEpochs hb
      omega

/-- **The log of a group** follows from the shapes of the calls on it. -/
theorem launched_eq {gid : ℤ} {x : Session rt} {cs : List Call}
    (h : x.Returns (Call.on rt.rank gid) cs) :
    ∃ shs, (cs.filter (Call.on rt.rank gid)).map rt.callShape = shs.map some ∧
      x.launched (Call.on rt.rank gid) cs =
        (shapeEpochs (x.state.epochs.peek gid) shs).map (rt.token gid) := by
  induction cs generalizing x with
  | nil => exact ⟨[], rfl, rfl⟩
  | cons c cs ih =>
    obtain ⟨hc, hcs⟩ := h
    obtain ⟨shs, hshs, hlog⟩ := ih hcs
    by_cases hon : Call.on rt.rank gid c = true
    · obtain ⟨r, hr⟩ := hc hon
      obtain ⟨sh, hsh, htakes⟩ := takes_of_returns (of_decide_eq_true hon) hr
      refine ⟨sh :: shs, ?_, ?_⟩
      · rw [List.filter_cons_of_pos hon, List.map_cons, List.map_cons, hsh, hshs]
      · unfold Session.launched shapeEpochs
        rw [if_pos hon, htakes.tokens, hlog, htakes.epochs, EpochManager.peek_advance_self,
          List.map_append, List.map_map]
        rfl
    · refine ⟨shs, ?_, ?_⟩
      · rw [List.filter_cons_of_neg hon, hshs]
      · unfold Session.launched
        rw [if_neg hon, List.nil_append, hlog,
          peek_run_of_ne fun h => hon (decide_eq_true h)]

/-! ## Shapes do not depend on the rank -/

/-- Two ranks of one session that run with the same configuration, table and paths. -/
structure SameSetup (rt rt' : Runtime) : Prop where
  config : rt.config = rt'.config
  autotune : rt.autotune = rt'.autotune
  tmaEnabled : rt.tmaEnabled = rt'.tmaEnabled
  sessionNonce : rt.sessionNonce = rt'.sessionNonce

variable (rt) in
/-- The shape of a decision, without its checks. -/
def planShape (policy : Option Policy) (chunks sliceBytes : ℕ) : Shape :=
  match policy with
  | some policy =>
    match rt.resolvedPath policy sliceBytes with
    | .fused => .fused
    | .pipelined =>
      rt.pathShape sliceBytes (.pipelined (rt.policyChunks policy sliceBytes))
    | _ => .pair
  | none =>
    if rt.config.enableFusedPath then .fused
    else if chunks ≤ 1 then .pair
    else rt.pathShape sliceBytes (.pipelined chunks)

/-- A decision has this shape. -/
theorem pathShape_of_plan {policy : Option Policy} {chunks sliceBytes dstPtr : ℕ} {path : DataPath}
    (h : rt.plan policy chunks sliceBytes dstPtr = .ok path) :
    rt.pathShape sliceBytes path = rt.planShape policy chunks sliceBytes := by
  cases policy with
  | some policy =>
    obtain ⟨_, -, hpath⟩ := bind_ok_iff.mp (show rt.planPolicy policy sliceBytes dstPtr = _ from h)
    unfold planShape
    dsimp only
    cases hr : rt.resolvedPath policy sliceBytes <;> rw [hr] at hpath <;>
      rw [← Except.ok.inj hpath] <;> rfl
  | none =>
    unfold planShape
    dsimp only
    obtain ⟨hfused, -, rfl⟩ | ⟨hfused, hchunks, e, rfl, -, -⟩ | ⟨hfused, hchunks, rfl⟩ :=
      plan_none_cases h
    · rw [if_pos hfused]
      rfl
    · rw [if_neg (Bool.eq_false_iff.mp hfused), if_pos hchunks]
      rfl
    · rw [if_neg (Bool.eq_false_iff.mp hfused), if_neg (not_le.mpr hchunks)]

theorem SameSetup.effectivePipelineChunks_eq (h : SameSetup rt rt') (n : ℕ) (override : Option ℤ) :
    rt.effectivePipelineChunks n override = rt'.effectivePipelineChunks n override := by
  unfold effectivePipelineChunks copyEngineEnabled
  rw [h.config, h.tmaEnabled]

theorem SameSetup.planShape_eq (h : SameSetup rt rt') (policy : Option Policy) (chunks n : ℕ) :
    rt.planShape policy chunks n = rt'.planShape policy chunks n := by
  have hchunks : ∀ policy, rt.policyChunks policy n = rt'.policyChunks policy n := fun policy =>
    h.effectivePipelineChunks_eq n _
  unfold planShape resolvedPath pathShape
  simp only [hchunks, h.config]

theorem SameSetup.policyFor_eq (h : SameSetup rt rt') {kind : Collective}
    {group group' : GroupDescriptor} (hsize : group.size = group'.size) (n : ℕ) :
    rt.policyFor kind group n = rt'.policyFor kind group' n := by
  unfold policyFor
  rw [h.autotune, hsize]

/-- The calls that two members make for one another: `barrier`; a collective with equal
slice sizes and chunk overrides, on the same ranks; the two sides of a p2p transfer. -/
inductive Matched (rt rt' : Runtime) : Call → Call → Prop
  | barrier {call call' : ℕ} {current current' : StreamId} {group group' : GroupDescriptor} :
      Matched rt rt' (.collective call current group .barrier)
        (.collective call' current' group' .barrier)
  | data {call call' : ℕ} {current current' : StreamId} {group group' : GroupDescriptor}
      {c c' : DataCall} {n : ℕ} (kind : c.kind = c'.kind) (entry : c.entry rt group = .ok n)
      (entry' : c'.entry rt' group' = .ok n) (chunks : c.pipelineChunks = c'.pipelineChunks) :
      Matched rt rt' (.collective call current group (.data c))
        (.collective call' current' group' (.data c'))
  | p2p {call call' : ℕ} {current current' : StreamId} {gathered gathered' : List (ℤ × List ℤ)}
      {c c' : P2pCall} (srcRank : (c.args rt.rank).srcRank = (c'.args rt'.rank).srcRank)
      (dstRank : (c.args rt.rank).dstRank = (c'.args rt'.rank).dstRank)
      (protocol : (c.args rt.rank).protocol = (c'.args rt'.rank).protocol)
      (role : (c.args rt.rank).role ≠ (c'.args rt'.rank).role) :
      Matched rt rt' (.p2p call current c gathered) (.p2p call' current' c' gathered')

/-- **Matched calls that pass their checks have one shape.** -/
theorem Matched.callShape_eq (hsame : SameSetup rt rt') {c c' : Call} (h : Matched rt rt' c c')
    (hsize : ∀ g g', c.handle = some g → c'.handle = some g' → g.size = g'.size) {sh sh' : Shape}
    (hsh : rt.callShape c = some sh) (hsh' : rt'.callShape c' = some sh') : sh = sh' := by
  cases h with
  | barrier => exact Option.some_inj.mp (hsh.symm.trans hsh')
  | p2p => exact Option.some_inj.mp (hsh.symm.trans hsh')
  | @data call call' current current' group group' c c' n kind entry entry' chunks =>
    simp only [callShape, entry] at hsh
    simp only [callShape, entry'] at hsh'
    split at hsh
    case h_1 => cases hsh
    case h_2 path hplan =>
      split at hsh'
      case h_1 => cases hsh'
      case h_2 path' hplan' =>
        rw [← Option.some_inj.mp hsh, ← Option.some_inj.mp hsh', pathShape_of_plan hplan,
          pathShape_of_plan hplan', hsame.planShape_eq, hsame.effectivePipelineChunks_eq, kind,
          chunks, hsame.policyFor_eq (hsize group group' rfl rfl)]

/-! ## What a call accounts for -/

/-- The epochs of the group that the call takes, and the barriers it launches: 1 and 1
for `barrier`, 2 and 2 for the one-shot paths and p2p, 3 and 2 for the fused path, and
one more than its chunks for the pipelined path. -/
def Accounts (gid : ℤ) (x : Session rt) (c : Call) : Prop :=
  let counts := ((x.run c).2.state.epochs.peek gid - x.state.epochs.peek gid,
    (barrierTokens (x.newItems c)).length)
  match c with
  | .collective _ _ _ .barrier => counts = (1, 1)
  | .collective _ _ group (.data c) =>
    ∃ n path, c.entry rt group = .ok n ∧
      rt.plan (rt.policyFor c.kind group n) (rt.effectivePipelineChunks n c.pipelineChunks) n
        c.output.dataPtr = .ok path ∧
      counts =
        match path with
        | .oneShot _ => (2, 2)
        | .fused _ _ => (3, 2)
        | .pipelined chunks =>
          let n := (layoutChunks n chunks rt.config.alignment).length
          (n + 1, n + 1)
  | .p2p .. => counts = (2, 2)
  | _ => True

theorem Takes.counts {gid : ℤ} {x : Session rt} {c : Call} {sh : Shape} (h : Takes x c gid sh) :
    ((x.run c).2.state.epochs.peek gid - x.state.epochs.peek gid,
      (barrierTokens (x.newItems c)).length) = (sh.numEpochs, sh.offsets.length) := by
  rw [h.epochs, h.tokens, EpochManager.peek_advance_self, List.length_map, Nat.add_sub_cancel_left]

/-- **Every call on a group that returns accounts for its epochs and barriers.** -/
theorem accounts_of_returns {gid : ℤ} {x : Session rt} {c : Call} {r : Option GroupDescriptor}
    (hgid : c.groupId rt.rank = some gid) (h : (x.run c).1 = .ok r) : Accounts gid x c := by
  cases c with
  | register ranks groupId gathered => trivial
  | unregister group => trivial
  | shutdown => trivial
  | p2p call current c gathered =>
    obtain ⟨sh, hsh, htakes⟩ := takes_of_returns hgid h
    obtain rfl := Option.some_inj.mp hsh
    exact htakes.counts
  | collective call current group c =>
    obtain ⟨sh, hsh, htakes⟩ := takes_of_returns hgid h
    cases c with
    | barrier =>
      obtain rfl := Option.some_inj.mp hsh
      exact htakes.counts
    | data c =>
      obtain ⟨n, row, path, hentry, -, hplan, -⟩ := exists_of_returns_data h
      simp only [callShape, hentry, hplan] at hsh
      obtain rfl := Option.some_inj.mp hsh
      refine ⟨n, path, hentry, hplan, htakes.counts.trans ?_⟩
      cases path with
      | oneShot e => rfl
      | fused numChannels chunkBytes => rfl
      | pipelined chunks =>
        simp [pathShape, Shape.numEpochs, Shape.offsets]

theorem Session.Returns.exists_ok {p : Call → Bool} {x : Session rt} {pre post : List Call}
    {c : Call} (h : x.Returns p (pre ++ c :: post)) (hc : p c) :
    ∃ r, ((x.runs pre).run c).1 = .ok r := by
  induction pre generalizing x with
  | nil => exact h.1 hc
  | cons d pre ih => exact ih h.2

theorem accounts_of_split {gid : ℤ} {cs : List Call}
    (hret : (Session.initial : Session rt).Returns (Call.on rt.rank gid) cs) (pre : List Call)
    (c : Call) (post : List Call) (hcs : cs = pre ++ c :: post) (hon : Call.on rt.rank gid c) :
    Accounts gid ((Session.initial : Session rt).runs pre) c := by
  rw [hcs] at hret
  obtain ⟨r, hr⟩ := hret.exists_ok hon
  exact accounts_of_returns (of_decide_eq_true hon) hr

/-! ## Two members -/

/-- Lists of matched calls have the same shapes. -/
theorem shapes_eq_of_matched (hsame : SameSetup rt rt') {l l' : List Call}
    (hsize : ∀ c ∈ l, ∀ c' ∈ l', ∀ g g', c.handle = some g → c'.handle = some g' →
      g.size = g'.size)
    (hmatch : List.Forall₂ (Matched rt rt') l l') {shs shs' : List Shape}
    (hshs : l.map rt.callShape = shs.map some) (hshs' : l'.map rt'.callShape = shs'.map some) :
    shs = shs' := by
  induction hmatch generalizing shs shs' with
  | nil =>
    rw [List.map_eq_nil_iff.mp hshs.symm, List.map_eq_nil_iff.mp hshs'.symm]
  | @cons c c' l l' hc _ ih =>
    cases shs with
    | nil => cases hshs
    | cons sh shs =>
      cases shs' with
      | nil => cases hshs'
      | cons sh' shs' =>
        obtain ⟨hsh, hshs⟩ := List.cons_eq_cons.mp hshs
        obtain ⟨hsh', hshs'⟩ := List.cons_eq_cons.mp hshs'
        have hhead := hc.callShape_eq hsame
          (hsize c List.mem_cons_self c' List.mem_cons_self) hsh hsh'
        have htail := ih (fun d hd d' hd' => hsize d (List.mem_cons_of_mem c hd) d'
          (List.mem_cons_of_mem c' hd')) hshs hshs'
        rw [hhead, htail]

/-- A handle a call on the group is given has the group's size. -/
theorem size_of_on {gid : ℤ} {ranks : List ℕ} {cs : List Call} {rank : ℕ}
    (hid : ∀ c ∈ cs, ∀ g, c.handle = some g → g.groupId = gid → g.ranks = ranks) {c : Call}
    (hc : c ∈ cs.filter (Call.on rank gid)) {g : GroupDescriptor} (hg : c.handle = some g) :
    g.size = ranks.length := by
  obtain ⟨hmem, hon⟩ := List.mem_filter.mp hc
  have hgid : c.groupId rank = some gid := of_decide_eq_true hon
  have hg' : g.groupId = gid := by
    cases c with
    | collective call current group c =>
      rw [← Option.some_inj.mp hg]
      exact Option.some_inj.mp hgid
    | unregister group => cases hgid
    | register ranks groupId gathered => cases hgid
    | p2p call current c gathered => cases hg
    | shutdown => cases hgid
  rw [g.size_eq, hid c hmem g hg hg']

/-- **All members launch the same barriers for the same calls.**  For two ranks of a
session with one setup, and a group id that both use for one rank list: if the calls on
the group all return and match one another, then whatever the two call in between, they
launch barriers for the group with the same tokens in the same order; the epochs behind
them increase, and every call on the group accounts for its epochs and barriers. -/
theorem members_launch_same_barriers (hsame : SameSetup rt rt') {gid : ℤ} {ranks : List ℕ}
    {cs cs' : List Call}
    (hid : ∀ c ∈ cs, ∀ g, c.handle = some g → g.groupId = gid → g.ranks = ranks)
    (hid' : ∀ c ∈ cs', ∀ g, c.handle = some g → g.groupId = gid → g.ranks = ranks)
    (hret : (Session.initial : Session rt).Returns (Call.on rt.rank gid) cs)
    (hret' : (Session.initial : Session rt').Returns (Call.on rt'.rank gid) cs')
    (hmatch : List.Forall₂ (Matched rt rt') (cs.filter (Call.on rt.rank gid))
      (cs'.filter (Call.on rt'.rank gid))) :
    (Session.initial : Session rt).launched (Call.on rt.rank gid) cs =
        (Session.initial : Session rt').launched (Call.on rt'.rank gid) cs' ∧
      (∃ es : List ℕ, es.Pairwise (· < ·) ∧
        (Session.initial : Session rt).launched (Call.on rt.rank gid) cs = es.map (rt.token gid)) ∧
      (∀ pre c post, cs = pre ++ c :: post → Call.on rt.rank gid c →
        Accounts gid ((Session.initial : Session rt).runs pre) c) ∧
      ∀ pre c post, cs' = pre ++ c :: post → Call.on rt'.rank gid c →
        Accounts gid ((Session.initial : Session rt').runs pre) c := by
  obtain ⟨shs, hshs, hlog⟩ := launched_eq hret
  obtain ⟨shs', hshs', hlog'⟩ := launched_eq hret'
  have hshapes : shs = shs' := by
    refine shapes_eq_of_matched hsame ?_ hmatch hshs hshs'
    intro c hc c' hc' g g' hg hg'
    rw [size_of_on hid hc hg, size_of_on hid' hc' hg']
  have htoken : ∀ e, rt.token gid e = rt'.token gid e := by
    intro e
    unfold token
    rw [hsame.sessionNonce]
  refine ⟨?_, ⟨_, pairwise_shapeEpochs _ _, hlog⟩, accounts_of_split hret, accounts_of_split hret'⟩
  rw [hlog, hlog', hshapes]
  exact List.map_congr_left fun e _ => htoken e

/-- A rank of two registers the world, issues a barrier and gathers four bytes into an
output of its own. -/
def pairSession (rank : Fin 2) : List Call :=
  [.register [0, 1] (some 7) [], .collective 0 (.user 0) (pairGroup rank) .barrier,
    .collective 1 (.user 0) (pairGroup rank)
      (.data (.allGather (pairTensor 4096 4) (pairTensor (8192 + rank) 8) none))]

/-- The theorem for these two ranks. -/
theorem members_launch_same_barriers_witness :
    (Session.initial : Session (pairRuntime Config.default none 0)).launched (Call.on 0 7)
        (pairSession 0) =
      (Session.initial : Session (pairRuntime Config.default none 1)).launched (Call.on 1 7)
        (pairSession 1) := by
  have hsame : SameSetup (pairRuntime Config.default none 0) (pairRuntime Config.default none 1) :=
    ⟨rfl, rfl, rfl, rfl⟩
  have hid : ∀ rank, ∀ c ∈ pairSession rank, ∀ g, c.handle = some g → g.groupId = 7 →
      g.ranks = [0, 1] := by
    intro rank c hc g hg hgid
    simp only [pairSession, List.mem_cons, List.not_mem_nil, or_false] at hc
    rcases hc with rfl | rfl | rfl <;> cases hg <;> rfl
  have hret : (Session.initial : Session (pairRuntime Config.default none 0)).Returns
      (Call.on 0 7) (pairSession 0) :=
    ⟨fun _ => ⟨_, rfl⟩, fun _ => ⟨_, rfl⟩, fun _ => ⟨_, rfl⟩, trivial⟩
  have hret' : (Session.initial : Session (pairRuntime Config.default none 1)).Returns
      (Call.on 1 7) (pairSession 1) :=
    ⟨fun _ => ⟨_, rfl⟩, fun _ => ⟨_, rfl⟩, fun _ => ⟨_, rfl⟩, trivial⟩
  have hmatch : List.Forall₂
      (Matched (pairRuntime Config.default none 0) (pairRuntime Config.default none 1))
      ((pairSession 0).filter (Call.on 0 7)) ((pairSession 1).filter (Call.on 1 7)) :=
    .cons .barrier (.cons (.data (n := 4) rfl rfl rfl rfl) .nil)
  exact (members_launch_same_barriers hsame (hid 0) (hid 1) hret hret' hmatch).1

end Runtime

end GroupFreeCollectives
