import GroupFreeCollectives.Runtime.Session

/-!
# The barriers a session launches

What a call enqueues (`Session.newItems`), and the tokens of the barriers among it, in
stream order.  A call that returns has a `Shape`, which says how many epochs of its
group it takes and which of them it launches barriers for; a call on another group takes
none (`peek_run_of_ne`).
-/

namespace GroupFreeCollectives

open Tiling

namespace Runtime

variable {rt : Runtime}

/-! ## Tokens -/

/-- The tokens of the barriers among items, in the order of the main stream. -/
def barrierTokens (its : List Item) : List ℕ :=
  its.filterMap fun
    | ⟨_, .main, .barrier _ tok⟩ => some tok
    | _ => none

@[simp] theorem barrierTokens_nil : barrierTokens [] = [] := rfl

@[simp] theorem barrierTokens_append (its its' : List Item) :
    barrierTokens (its ++ its') = barrierTokens its ++ barrierTokens its' :=
  List.filterMap_append

@[simp] theorem barrierTokens_barrier (call : ℕ) (row : List ℕ) (tok : ℕ) (its : List Item) :
    barrierTokens (⟨call, .main, .barrier row tok⟩ :: its) = tok :: barrierTokens its := rfl

theorem barrierTokens_eq_nil {its : List Item}
    (h : ∀ it ∈ its, ∀ row tok, it.cmd ≠ .barrier row tok) :
    barrierTokens its = [] := by
  refine List.filterMap_eq_nil_iff.mpr fun it hit => ?_
  have hit := h it hit
  rcases it with ⟨call, stream, cmd⟩
  cases stream <;> cases cmd <;> first | rfl | exact absurd rfl (hit _ _)

/-- What a call enqueues. -/
def Session.newItems (x : Session rt) (c : Call) : List Item :=
  (x.run c).2.state.items.drop x.state.items.length

/-- The session after some calls. -/
def Session.runs (x : Session rt) (cs : List Call) : Session rt :=
  cs.foldl (fun x c => (x.run c).2) x

/-- The tokens of the barriers that the calls in `p` launch. -/
def Session.launched (p : Call → Bool) (x : Session rt) : List Call → List ℕ
  | [] => []
  | c :: cs => (if p c then barrierTokens (x.newItems c) else []) ++ (x.run c).2.launched p cs

/-- The group whose epochs a call takes. -/
def Call.groupId (rank : ℕ) : Call → Option ℤ
  | .collective _ _ group _ => some group.groupId
  | .p2p _ _ c _ => some (defaultGroupId [(c.args rank).srcRank, (c.args rank).dstRank])
  | _ => none

/-- The call takes epochs of the group. -/
def Call.on (rank : ℕ) (gid : ℤ) (c : Call) : Bool := c.groupId rank = some gid

/-! ## Shapes -/

/-- How a call uses the epochs of its group. -/
inductive Shape where
  | single
  | pair
  | fused
  | chunked (n : ℕ)
  deriving DecidableEq, Repr

namespace Shape

/-- How many epochs the call takes. -/
def numEpochs : Shape → ℕ
  | single => 1
  | pair => 2
  | fused => 3
  | chunked n => n + 1

/-- For which of them it launches a barrier. -/
def offsets : Shape → List ℕ
  | single => [0]
  | pair => [0, 1]
  | fused => [0, 2]
  | chunked n => List.range (n + 1)

theorem lt_numEpochs_of_mem {sh : Shape} {k : ℕ} (h : k ∈ sh.offsets) : k < sh.numEpochs := by
  cases sh with
  | single => simp [offsets, numEpochs] at h ⊢; omega
  | pair => simp [offsets, numEpochs] at h ⊢; omega
  | fused => simp [offsets, numEpochs] at h ⊢; omega
  | chunked n => exact List.mem_range.mp h

theorem pairwise_offsets (sh : Shape) : sh.offsets.Pairwise (· < ·) := by
  cases sh with
  | single => simp [offsets]
  | pair => simp [offsets]
  | fused => simp [offsets]
  | chunked n => exact List.pairwise_lt_range

end Shape

variable (rt) in
/-- The shape of a data path. -/
def pathShape (sliceBytes : ℕ) : DataPath → Shape
  | .oneShot _ => .pair
  | .fused _ _ => .fused
  | .pipelined chunks => .chunked (layoutChunks sliceBytes chunks rt.config.alignment).length

variable (rt) in
/-- The shape of a call that passes its checks. -/
def callShape : Call → Option Shape
  | .collective _ _ _ .barrier => some .single
  | .collective _ _ group (.data c) =>
    match c.entry rt group with
    | .error _ => none
    | .ok n =>
      match rt.plan (rt.policyFor c.kind group n) (rt.effectivePipelineChunks n c.pipelineChunks) n
        c.output.dataPtr with
      | .error _ => none
      | .ok path => some (rt.pathShape n path)
  | .p2p .. => some .pair
  | _ => none

theorem numEpochs_pathShape {n : ℕ} {path : DataPath} :
    (rt.pathShape n path).numEpochs = rt.numEpochs n path := by
  cases path <;> rfl

section Path

variable {a : CollectiveArgs} {e : ℕ}

theorem barrierTokens_kernelItems (stream : StreamId) (ks : List (List (Op DataAct))) :
    barrierTokens (kernelItems a stream ks) = [] := by
  refine barrierTokens_eq_nil fun it hit row tok => ?_
  obtain ⟨ops, -, rfl⟩ := List.mem_map.mp hit
  simp

theorem barrierTokens_ingestItems (call : ℕ) (current : StreamId) :
    barrierTokens (ingestItems call current) = [] := by
  cases current <;> rfl

/-- Every chunk launches the barrier of its epoch. -/
theorem barrierTokens_chunks (layout : List ((ℕ × ℕ) × ℕ)) :
    barrierTokens (layout.flatMap fun ((offset, size), k) =>
        rt.chunkItems a k offset size (e + k) (rt.chunkPull a offset size)) =
      layout.map fun x => rt.token a.group.groupId (e + x.2) := by
  induction layout with
  | nil => rfl
  | cons x layout ih =>
    rw [List.flatMap_cons, barrierTokens_append, ih, List.map_cons]
    show barrierTokens (rt.chunkItems a x.2 x.1.1 x.1.2 (e + x.2) _) ++ _ = _
    unfold chunkItems
    rw [barrierTokens_append, barrierTokens_kernelItems]
    rfl

/-- **The barriers of a data path.** -/
theorem barrierTokens_pathItems (path : DataPath) :
    barrierTokens (rt.pathItems a e path) =
      (rt.pathShape a.sliceBytes path).offsets.map fun k => rt.token a.group.groupId (e + k) := by
  cases path with
  | oneShot eng =>
    unfold pathItems oneShotPrefix
    rw [barrierTokens_append, barrierTokens_append, barrierTokens_kernelItems]
    rfl
  | fused numChannels chunkBytes => rfl
  | pipelined chunks =>
    show barrierTokens (rt.pipelinedItems a (layoutChunks a.sliceBytes chunks rt.config.alignment)
      e) = (List.range ((layoutChunks a.sliceBytes chunks rt.config.alignment).length + 1)).map _
    generalize layoutChunks a.sliceBytes chunks rt.config.alignment = layout
    have hchunks : layout.zipIdx.map (fun x => rt.token a.group.groupId (e + x.2)) =
        (List.range layout.length).map fun k => rt.token a.group.groupId (e + k) := by
      rw [List.range_eq_range', ← List.zipIdx_map_snd 0 layout, List.map_map]
      rfl
    unfold pipelinedItems
    rw [barrierTokens_append, barrierTokens_append, barrierTokens_chunks, hchunks, List.range_succ,
      List.map_append]
    rfl

end Path

/-! ## Calls that return -/

variable {x : Session rt} {call : ℕ} {current : StreamId} {group : GroupDescriptor} {gid : ℤ}

/-- The call takes epochs of the group and launches barriers as its shape says. -/
structure Takes (x : Session rt) (c : Call) (gid : ℤ) (sh : Shape) : Prop where
  epochs : (x.run c).2.state.epochs = x.state.epochs.advance gid sh.numEpochs
  tokens : barrierTokens (x.newItems c) =
    sh.offsets.map fun k => rt.token gid (x.state.epochs.peek gid + k)

theorem newItems_eq {c : Call} {new : List Item}
    (h : (x.run c).2.state.items = x.state.items ++ new) : x.newItems c = new := by
  unfold Session.newItems
  rw [h, List.drop_left]

/-- **What a barrier that returns has done.** -/
theorem exists_of_returns_barrier {r : Option GroupDescriptor}
    (h : (x.run (.collective call current group .barrier)).1 = .ok r) :
    ∃ row, x.state.registry.ranksDev group.handle = some row ∧
      (x.run (.collective call current group .barrier)).2.state =
        (x.state.advance group.groupId 1).push [⟨call, .main, .barrier row
          (rt.token group.groupId (x.state.epochs.peek group.groupId))⟩] := by
  rw [run_collective_eq] at h ⊢
  replace h : (outcome ((rt.barrier call group).run x.state)).map (fun _ => none) = .ok r := h
  show ∃ row, _ ∧ endState ((rt.barrier call group).run x.state) = _
  rw [run_barrier] at h ⊢
  cases hentry : rt.barrierEntry group with
  | error e =>
    rw [hentry] at h
    cases h
  | ok _ =>
    cases hrow : x.state.registry.ranksDev group.handle with
    | none =>
      rw [hentry, hrow] at h
      cases h
    | some row => exact ⟨row, rfl, rfl⟩

theorem takes_barrier {r : Option GroupDescriptor}
    (h : (x.run (.collective call current group .barrier)).1 = .ok r) :
    Takes x (.collective call current group .barrier) group.groupId .single := by
  obtain ⟨row, -, hstate⟩ := exists_of_returns_barrier h
  refine ⟨by rw [hstate]; rfl, ?_⟩
  rw [newItems_eq (by rw [hstate]; rfl)]
  rfl

/-- **What a data collective that returns has done.** -/
theorem exists_of_returns_data {c : DataCall} {r : Option GroupDescriptor}
    (h : (x.run (.collective call current group (.data c))).1 = .ok r) :
    ∃ n row path, c.entry rt group = .ok n ∧ x.state.registry.ranksDev group.handle = some row ∧
      rt.plan (rt.policyFor c.kind group n) (rt.effectivePipelineChunks n c.pipelineChunks) n
        c.output.dataPtr = .ok path ∧ Launches n path ∧
      (x.run (.collective call current group (.data c))).2.state =
        (x.state.advance group.groupId (rt.numEpochs n path)).push (ingestItems call current ++
          rt.pathItems ⟨call, c.kind, c.input, c.output, group, row, n⟩
            (x.state.epochs.peek group.groupId) path) := by
  rw [run_collective_eq] at h ⊢
  replace h : (outcome ((c.submit rt call current group).run x.state)).map (fun _ => none) =
    .ok r := h
  show ∃ n row path, _ ∧ _ ∧ _ ∧ _ ∧ endState ((c.submit rt call current group).run x.state) = _
  rw [run_submit] at h ⊢
  cases hentry : c.entry rt group with
  | error e =>
    rw [hentry] at h
    cases h
  | ok n =>
    have hchecked := entryChecked_of_entry hentry
    rw [hentry] at h
    dsimp only at h
    cases hrow : x.state.registry.ranksDev group.handle with
    | none =>
      rw [hrow] at h
      cases h
    | some row =>
      rw [hrow] at h
      dsimp only at h
      cases hplan : rt.plan (rt.policyFor c.kind group n)
          (rt.effectivePipelineChunks n c.pipelineChunks) n c.output.dataPtr with
      | error e =>
        rw [hplan] at h
        cases h
      | ok path =>
        have hready := ready_of_plan hchecked.slice_le hplan
        have hlen := ranksDev_length_pos hrow
        rw [hplan] at h
        dsimp only at h
        by_cases hlaunch : Launches n path
        · refine ⟨n, row, path, rfl, rfl, hplan, hlaunch, ?_⟩
          dsimp only
          rw [hplan]
          dsimp only
          rw [run_perform hchecked.size_pos hlen hready hlaunch]
          simp [endState]
        · obtain ⟨err, k, new, hrun, -, -⟩ := run_perform_error
            (a := ⟨call, c.kind, c.input, c.output, group, row, n⟩)
            (s := x.state.push (ingestItems call current)) hchecked.size_pos hlen hready hlaunch
          rw [hrun] at h
          cases h

theorem takes_data {c : DataCall} {r : Option GroupDescriptor}
    (h : (x.run (.collective call current group (.data c))).1 = .ok r) :
    ∃ sh, rt.callShape (.collective call current group (.data c)) = some sh ∧
      Takes x (.collective call current group (.data c)) group.groupId sh := by
  obtain ⟨n, row, path, hentry, -, hplan, -, hstate⟩ := exists_of_returns_data h
  refine ⟨rt.pathShape n path, ?_, ?_, ?_⟩
  · simp only [callShape, hentry, hplan]
  · rw [hstate, numEpochs_pathShape]
    rfl
  · rw [newItems_eq (by rw [hstate]; rfl), barrierTokens_append, barrierTokens_ingestItems,
      barrierTokens_pathItems]
    rfl

/-- **What a p2p call that returns has done.** -/
theorem exists_of_returns_p2p {c : P2pCall} {gathered : List (ℤ × List ℤ)}
    {r : Option GroupDescriptor} (h : (x.run (.p2p call current c gathered)).1 = .ok r) :
    ∃ n g s row ks, rt.p2pEntry (c.args rt.rank) = .ok n ∧
      (rt.registerGroup [(c.args rt.rank).srcRank, (c.args rt.rank).dstRank] none gathered).run
        x.state = .ok g s ∧ s.registry.ranksDev g.handle = some row ∧
      rt.launchP2p call (c.args rt.rank) n = .ok ks ∧
      (x.run (.p2p call current c gathered)).2.state = (s.advance g.groupId 2).push
        (rt.p2pPrefix call current (c.args rt.rank) n row
            (rt.token g.groupId (s.epochs.peek g.groupId)) ++
          rt.p2pSuffix call (c.args rt.rank) n row
            (rt.token g.groupId (s.epochs.peek g.groupId + 1)) ks) := by
  rw [run_p2p_eq, P2pCall.submit_eq] at h ⊢
  generalize c.args rt.rank = a at h ⊢
  dsimp only at h ⊢
  rw [EStateM.run_bind, run_require] at h ⊢
  by_cases hpeer : decide (c.peer ≠ rt.rank) = true
  case neg =>
    rw [if_neg hpeer] at h
    cases h
  rw [if_pos hpeer] at h ⊢
  dsimp only at h ⊢
  rw [run_p2pProtocol] at h ⊢
  cases hentry : rt.p2pEntry a with
  | error e =>
    rw [hentry] at h
    cases h
  | ok n =>
    rw [hentry] at h
    dsimp only at h ⊢
    cases hreg : (rt.registerGroup [a.srcRank, a.dstRank] none gathered).run x.state with
    | error e s =>
      rw [hreg] at h
      cases h
    | ok g s =>
      rw [hreg] at h
      dsimp only at h ⊢
      by_cases hli : 0 ≤ g.localIndex
      case neg =>
        rw [if_neg hli] at h
        cases h
      rw [if_pos hli, run_p2pLocked (size_pos_of_member hli)] at h ⊢
      cases hrow : s.registry.ranksDev g.handle with
      | none =>
        rw [hrow] at h
        cases h
      | some row =>
        rw [hrow] at h
        dsimp only at h ⊢
        cases hks : rt.launchP2p call a n with
        | error e =>
          rw [hks] at h
          cases h
        | ok ks => exact ⟨n, g, s, row, ks, rfl, rfl, hrow, hks, rfl⟩

theorem barrierTokens_p2pPrefix {a : P2pArgs} {n : ℕ} {row : List ℕ} {tok : ℕ} :
    barrierTokens (rt.p2pPrefix call current a n row tok) = [tok] := by
  unfold p2pPrefix
  rw [barrierTokens_append, barrierTokens_append, barrierTokens_ingestItems]
  split <;> rfl

theorem barrierTokens_p2pSuffix {a : P2pArgs} {n : ℕ} {row : List ℕ} {tok : ℕ}
    {ks : List (List (Op DataAct))} : barrierTokens (rt.p2pSuffix call a n row tok ks) = [tok] := by
  have hks : barrierTokens (ks.map fun ops => ⟨call, .main, .kernel ops⟩) = [] := by
    refine barrierTokens_eq_nil fun it hit row tok => ?_
    obtain ⟨ops, -, rfl⟩ := List.mem_map.mp hit
    simp
  unfold p2pSuffix
  rw [barrierTokens_append, barrierTokens_append, hks]
  split <;> rfl

theorem takes_p2p {c : P2pCall} {gathered : List (ℤ × List ℤ)} {r : Option GroupDescriptor}
    (h : (x.run (.p2p call current c gathered)).1 = .ok r) :
    Takes x (.p2p call current c gathered)
      (defaultGroupId [(c.args rt.rank).srcRank, (c.args rt.rank).dstRank]) .pair := by
  obtain ⟨n, g, s, row, ks, -, hreg, -, -, hstate⟩ := exists_of_returns_p2p h
  obtain ⟨-, -, hgid, -⟩ := registerGroup_ok hreg
  replace hgid : g.groupId = defaultGroupId [(c.args rt.rank).srcRank, (c.args rt.rank).dstRank] :=
    hgid
  -- the registration keeps the counters and the streams
  obtain ⟨hepochs, hitems⟩ := registerGroup_ok_frame hreg
  rw [← hgid]
  constructor
  · rw [hstate]
    show s.epochs.advance g.groupId 2 = _
    rw [hepochs]
    rfl
  · rw [newItems_eq (by rw [hstate, ← hitems]; rfl), hepochs, barrierTokens_append,
      barrierTokens_p2pPrefix, barrierTokens_p2pSuffix]
    rfl

/-- **What a call on a group does when it returns**: it takes the epochs and launches the
barriers of its shape. -/
theorem takes_of_returns {c : Call} {r : Option GroupDescriptor}
    (hgid : c.groupId rt.rank = some gid) (h : (x.run c).1 = .ok r) :
    ∃ sh, rt.callShape c = some sh ∧ Takes x c gid sh := by
  cases c with
  | register ranks groupId gathered => cases hgid
  | unregister group => cases hgid
  | shutdown => cases hgid
  | collective call current group c =>
    obtain rfl := Option.some_inj.mp hgid
    cases c with
    | barrier => exact ⟨.single, rfl, takes_barrier h⟩
    | data c => exact takes_data h
  | p2p call current c gathered =>
    obtain rfl := Option.some_inj.mp hgid
    exact ⟨.pair, rfl, takes_p2p h⟩

/-! ## Calls on other groups -/

theorem peek_p2pProtocol_of_ne {s : RuntimeState rt.rank rt.worldSize} {a : P2pArgs}
    {gathered : List (ℤ × List ℤ)} (hgid : gid ≠ defaultGroupId [a.srcRank, a.dstRank]) :
    (endState ((rt.p2pProtocol call current a gathered).run s)).epochs.peek gid =
      s.epochs.peek gid := by
  rw [run_p2pProtocol]
  cases rt.p2pEntry a with
  | error e => rfl
  | ok n =>
    have hframe : (endState ((rt.registerGroup [a.srcRank, a.dstRank] none gathered).run
        s)).epochs = s.epochs := registerGroup_frame.1
    dsimp only
    cases hreg : (rt.registerGroup [a.srcRank, a.dstRank] none gathered).run s with
    | error e s' =>
      rw [hreg] at hframe
      exact congrArg (EpochManager.peek · gid) hframe
    | ok g s' =>
      rw [hreg] at hframe
      dsimp only
      split
      case isTrue hli =>
        have hne : gid ≠ g.groupId := by
          rw [(registerGroup_ok hreg).2.2.1]
          exact hgid
        rw [(advances_p2pLocked (size_pos_of_member hli)).peek_eq hne]
        exact congrArg (EpochManager.peek · gid) hframe
      case isFalse => exact congrArg (EpochManager.peek · gid) hframe

/-- **A call leaves the counters of other groups alone**, whether it returns or raises. -/
theorem peek_run_of_ne {c : Call} (hgid : c.groupId rt.rank ≠ some gid) :
    (x.run c).2.state.epochs.peek gid = x.state.epochs.peek gid := by
  cases c with
  | register ranks groupId gathered =>
    rw [run_register_eq]
    show (endState ((rt.registerGroup ranks groupId gathered).run x.state)).epochs.peek gid = _
    rw [registerGroup_frame.1]
  | unregister group => rw [Session.run_eq rfl]; rfl
  | collective call current group c =>
    rw [run_collective_eq]
    refine (advances_collective c).peek_eq fun h => hgid ?_
    rw [h]
    rfl
  | p2p call current c gathered =>
    rw [run_p2p_eq, P2pCall.submit_eq]
    dsimp only
    rw [EStateM.run_bind, run_require]
    by_cases hpeer : decide (c.peer ≠ rt.rank) = true
    · rw [if_pos hpeer]
      exact peek_p2pProtocol_of_ne fun h => hgid (congrArg some h.symm)
    · rw [if_neg hpeer]
      rfl
  | shutdown =>
    unfold Session.run
    split <;> rfl

end Runtime

end GroupFreeCollectives
