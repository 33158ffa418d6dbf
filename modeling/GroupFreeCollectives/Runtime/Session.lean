import GroupFreeCollectives.Runtime.Init
import GroupFreeCollectives.Runtime.P2pRun

/-!
# Sessions

A session is one rank's sequence of calls on its runtime, from construction on:
registrations, releases, collectives, p2p calls and `shutdown`.  `Session.run` makes one
call; what a call can do to the state is `Advances` (items and epochs of one group) or a
change of the registry, and every call `Extends` the state: no handle is forgotten and no
counter is lowered.
-/

namespace GroupFreeCollectives

namespace Runtime

/-! ## Calls of a session -/

/-- A p2p call, with the caller's peer and tensor. -/
inductive P2pCall where
  | put (dstRank : ℤ) (src : Tensor) (nbytes : Option ℤ)
  | putRecv (srcRank : ℤ) (dst : Tensor) (nbytes : Option ℤ)
  | get (srcRank : ℤ) (dst : Tensor) (nbytes : Option ℤ)
  | getServe (dstRank : ℤ) (src : Tensor) (nbytes : Option ℤ)

namespace P2pCall

/-- The peer of the call. -/
def peer : P2pCall → ℤ
  | put dstRank _ _ => dstRank
  | putRecv srcRank _ _ => srcRank
  | get srcRank _ _ => srcRank
  | getServe dstRank _ _ => dstRank

/-- What the call passes to `_p2p_protocol` on a rank. -/
def args (rank : ℕ) : P2pCall → P2pArgs
  | put dstRank src nbytes => ⟨rank, dstRank, src, .sender, .put, nbytes⟩
  | putRecv srcRank dst nbytes => ⟨srcRank, rank, dst, .receiver, .put, nbytes⟩
  | get srcRank dst nbytes => ⟨srcRank, rank, dst, .receiver, .get, nbytes⟩
  | getServe dstRank src nbytes => ⟨rank, dstRank, src, .sender, .get, nbytes⟩

/-- The message of the check on the peer. -/
def peerMsg : P2pCall → String
  | put .. => "p2p_put: dst_rank must differ from self.rank"
  | putRecv .. => "p2p_put_recv: src_rank must differ from self.rank"
  | get .. => "p2p_get: src_rank must differ from self.rank"
  | getServe .. => "p2p_get_serve: dst_rank must differ from self.rank"

/-- Make the call. -/
def submit (rt : Runtime) (call : ℕ) (current : StreamId) (gathered : List (ℤ × List ℤ)) :
    P2pCall → rt.M Unit
  | put dstRank src nbytes => rt.p2pPut call current dstRank src nbytes gathered
  | putRecv srcRank dst nbytes => rt.p2pPutRecv call current srcRank dst nbytes gathered
  | get srcRank dst nbytes => rt.p2pGet call current srcRank dst nbytes gathered
  | getServe dstRank src nbytes => rt.p2pGetServe call current dstRank src nbytes gathered

theorem submit_eq {rt : Runtime} {call : ℕ} {current : StreamId} {gathered : List (ℤ × List ℤ)}
    (c : P2pCall) : c.submit rt call current gathered =
      (do
        require (c.peer ≠ rt.rank) c.peerMsg
        rt.p2pProtocol call current (c.args rt.rank) gathered) := by
  cases c <;> rfl

end P2pCall

/-- A call of a session. -/
inductive Call where
  | register (ranks : List ℤ) (groupId : Option ℤ) (gathered : List (ℤ × List ℤ))
  | unregister (group : GroupDescriptor)
  | collective (call : ℕ) (current : StreamId) (group : GroupDescriptor) (c : CollectiveCall)
  | p2p (call : ℕ) (current : StreamId) (c : P2pCall) (gathered : List (ℤ × List ℤ))
  | shutdown

/-- The handle a call is given. -/
def Call.handle : Call → Option GroupDescriptor
  | .unregister group => some group
  | .collective _ _ group _ => some group
  | _ => none

/-- The call is `shutdown`. -/
def Call.isShutdown : Call → Bool
  | .shutdown => true
  | _ => false

/-- The call neither releases a group nor shuts down. -/
def Call.Keeps : Call → Prop
  | .unregister _ | .shutdown => False
  | _ => True

/-- The state of a runtime, with the flag `_shutdown`. -/
structure Session (rt : Runtime) where
  state : RuntimeState rt.rank rt.worldSize
  isShutdown : Bool

variable {rt : Runtime}

/-- A runtime that has just been constructed. -/
def Session.initial : Session rt := ⟨.initial, false⟩

variable (rt) in
/-- What a call does to the state, and the handle it returns.  A second `shutdown` is
left to `Session.run`. -/
def Call.program : Call → rt.M (Option GroupDescriptor)
  | .register ranks groupId gathered => some <$> rt.registerGroup ranks groupId gathered
  | .unregister group => (fun _ => none) <$> rt.unregisterGroup group
  | .collective call current group c => (fun _ => none) <$> c.submit rt call current group
  | .p2p call current c gathered => (fun _ => none) <$> c.submit rt call current gathered
  | .shutdown => (fun _ => none) <$> rt.shutdown

/-- The state a program ends in. -/
def endState {σ α : Type} : EStateM.Result PyError σ α → σ
  | .ok _ s => s
  | .error _ s => s

/-- What a program returns or raises. -/
def outcome {σ α : Type} : EStateM.Result PyError σ α → Except PyError α
  | .ok a _ => .ok a
  | .error e _ => .error e

section Result

variable {σ α β : Type} {x : EStateM PyError σ α} {f : α → β} {s : σ}

@[simp] theorem endState_map : endState ((f <$> x).run s) = endState (x.run s) := by
  show endState (EStateM.map f x s) = endState (x s)
  unfold EStateM.map
  cases x s <;> rfl

@[simp] theorem outcome_map : outcome ((f <$> x).run s) = (outcome (x.run s)).map f := by
  show outcome (EStateM.map f x s) = (outcome (x s)).map f
  unfold EStateM.map
  cases x s <;> rfl

end Result

/-- The outcome of a call, and the session after it. -/
def Session.run (x : Session rt) (c : Call) :
    Except PyError (Option GroupDescriptor) × Session rt :=
  if c.isShutdown ∧ x.isShutdown then (.ok none, x)
  else
    let r := (c.program rt).run x.state
    (outcome r, ⟨endState r, x.isShutdown || c.isShutdown⟩)

/-- The handle that the caller gets. -/
def returned : Except PyError (Option GroupDescriptor) → List GroupDescriptor
  | .ok (some g) => [g]
  | _ => []

/-- The sessions a rank can reach, with the handles its callers have been given: a call
is made with one of these. -/
inductive Reachable (rt : Runtime) : Session rt → List GroupDescriptor → Prop
  | initial : Reachable rt .initial []
  | call {x : Session rt} {handles : List GroupDescriptor} {c : Call} (h : Reachable rt x handles)
      (hc : ∀ g, c.handle = some g → g ∈ handles) :
      Reachable rt (x.run c).2 (handles ++ returned (x.run c).1)

/-! ## What a call can do -/

/-- Items were enqueued and epochs of the group taken. -/
def Advances (gid : ℤ) (s s' : RuntimeState rt.rank rt.worldSize) : Prop :=
  ∃ n new, s' = (s.advance gid n).push new

variable (rt) in
/-- The rank list of the group has passed the size check of `register_group`. -/
def SizeChecked (g : GroupDescriptor) : Prop :=
  0 < g.ranks.length ∧ g.ranks.length ≤ rt.config.maxGroupSize

/-- No handle is forgotten, new ones have an accepted size, and no counter is lowered. -/
structure Extends (s s' : RuntimeState rt.rank rt.worldSize) : Prop where
  descs : ∀ g ∈ s.registry.descs, g ∈ s'.registry.descs
  new : ∀ g ∈ s'.registry.descs, g ∈ s.registry.descs ∨ rt.SizeChecked g
  epochs : ∀ gid, s.epochs.peek gid ≤ s'.epochs.peek gid

variable {s s' s'' : RuntimeState rt.rank rt.worldSize} {gid : ℤ}

theorem Extends.refl (s : RuntimeState rt.rank rt.worldSize) : Extends s s :=
  ⟨fun _ h => h, fun _ h => Or.inl h, fun _ => le_refl _⟩

theorem Extends.trans (h : Extends s s') (h' : Extends s' s'') : Extends s s'' where
  descs g hg := h'.descs g (h.descs g hg)
  new g hg := by
    rcases h'.new g hg with hg | hsize
    · exact h.new g hg
    · exact Or.inr hsize
  epochs gid := le_trans (h.epochs gid) (h'.epochs gid)

theorem advances_refl (gid : ℤ) (s : RuntimeState rt.rank rt.worldSize) : Advances gid s s :=
  ⟨0, [], by simp⟩

theorem Advances.extends (h : Advances gid s s') : Extends s s' := by
  obtain ⟨n, new, rfl⟩ := h
  exact ⟨fun g hg => hg, fun g hg => Or.inl hg,
    fun gid' => EpochManager.peek_le_peek_advance s.epochs gid gid' n⟩

/-- The counters of other groups are left alone. -/
theorem Advances.peek_eq (h : Advances gid s s') {gid' : ℤ} (hne : gid' ≠ gid) :
    s'.epochs.peek gid' = s.epochs.peek gid' := by
  obtain ⟨n, new, rfl⟩ := h
  exact EpochManager.peek_advance_of_ne s.epochs hne n

theorem Advances.registry_eq (h : Advances gid s s') : s'.registry = s.registry := by
  obtain ⟨n, new, rfl⟩ := h
  rfl

variable {call : ℕ} {current : StreamId} {group : GroupDescriptor}

/-- A collective takes epochs of its group only. -/
theorem advances_submit (c : DataCall) :
    Advances group.groupId s (endState ((c.submit rt call current group).run s)) := by
  have hwait : Advances group.groupId s (s.push (ingestItems call current)) :=
    ⟨0, ingestItems call current, by simp⟩
  rw [run_submit]
  cases hentry : c.entry rt group with
  | error e => exact advances_refl _ s
  | ok n =>
    have hchecked := entryChecked_of_entry hentry
    dsimp only
    cases hrow : s.registry.ranksDev group.handle with
    | none => exact hwait
    | some row =>
      dsimp only
      cases hplan : rt.plan (rt.policyFor c.kind group n)
          (rt.effectivePipelineChunks n c.pipelineChunks) n c.output.dataPtr with
      | error e => exact hwait
      | ok path =>
        have hready := ready_of_plan hchecked.slice_le hplan
        have hlen := ranksDev_length_pos hrow
        dsimp only
        by_cases hlaunch : Launches n path
        · rw [run_perform hchecked.size_pos hlen hready hlaunch]
          refine ⟨rt.numEpochs n path, ingestItems call current ++
            rt.pathItems ⟨call, c.kind, c.input, c.output, group, row, n⟩
              (s.epochs.peek group.groupId) path, ?_⟩
          simp [endState]
        · obtain ⟨err, k, new, hrun, -, -⟩ := run_perform_error
            (a := ⟨call, c.kind, c.input, c.output, group, row, n⟩)
            (s := s.push (ingestItems call current)) hchecked.size_pos hlen hready hlaunch
          rw [hrun]
          refine ⟨k, ingestItems call current ++ new, ?_⟩
          simp [endState]

theorem advances_barrier :
    Advances group.groupId s (endState ((rt.barrier call group).run s)) := by
  rw [run_barrier]
  cases rt.barrierEntry group with
  | error e => exact advances_refl _ s
  | ok _ =>
    dsimp only
    cases s.registry.ranksDev group.handle with
    | none => exact advances_refl _ s
    | some row => exact ⟨1, _, rfl⟩

/-- **A collective takes epochs of its group only.** -/
theorem advances_collective (c : CollectiveCall) :
    Advances group.groupId s (endState ((c.submit rt call current group).run s)) := by
  cases c with
  | barrier => exact advances_barrier
  | data c => exact advances_submit c

/-! ## Registration -/

variable {ranks : List ℤ} {groupId : Option ℤ} {gathered : List (ℤ × List ℤ)}

/-- `register_group` keeps the counters and the streams. -/
theorem registerGroup_frame :
    (endState ((rt.registerGroup ranks groupId gathered).run s)).epochs = s.epochs ∧
      (endState ((rt.registerGroup ranks groupId gathered).run s)).items = s.items := by
  rw [run_registerGroup]
  cases rt.registerEntry ranks with
  | error e => exact ⟨rfl, rfl⟩
  | ok l =>
    dsimp only
    cases s.registry.register (groupId.getD (defaultGroupId ranks)) l with
    | error e => exact ⟨rfl, rfl⟩
    | ok result =>
      dsimp only
      cases rt.registerExit (groupId.getD (defaultGroupId ranks)) ranks gathered result.1 <;>
        exact ⟨rfl, rfl⟩

theorem registerGroup_ok_frame {g : GroupDescriptor}
    (h : (rt.registerGroup ranks groupId gathered).run s = .ok g s') :
    s'.epochs = s.epochs ∧ s'.items = s.items := by
  have hframe := @registerGroup_frame rt s ranks groupId gathered
  rw [h] at hframe
  exact hframe

/-- A registry that `register` returns extends the one before. -/
theorem extends_register {l : RankList rt.worldSize} {result : GroupDescriptor × Bool}
    {reg' : Registry rt.rank rt.worldSize} (hentry : rt.registerEntry ranks = .ok l)
    (hreg : s.registry.register gid l = .ok (result, reg')) :
    Extends s { s with registry := reg' } := by
  obtain ⟨hsize, hl, -⟩ := registerEntry_ok hentry
  refine ⟨(Registry.register_ok hreg).2.2.2.2.1, ?_, fun gid => le_refl _⟩
  cases hold : s.registry.registered gid with
  | some existing =>
    by_cases hranks : existing.ranks = l.ranks
    · rw [Registry.register_of_same hold hranks] at hreg
      cases hreg
      exact fun g hg => Or.inl hg
    · obtain ⟨msg, herr⟩ := Registry.register_of_ne hold hranks
      rw [herr] at hreg
      cases hreg
  | none =>
    rw [Registry.register_of_none hold] at hreg
    cases hreg
    intro g hg
    rcases List.mem_append.mp hg with hg | hg
    · exact Or.inl hg
    · rw [List.mem_singleton.mp hg]
      refine Or.inr ?_
      show 0 < l.ranks.length ∧ l.ranks.length ≤ rt.config.maxGroupSize
      rwa [hl, List.length_map]

theorem extends_registerGroup :
    Extends s (endState ((rt.registerGroup ranks groupId gathered).run s)) := by
  rw [run_registerGroup]
  cases hentry : rt.registerEntry ranks with
  | error e => exact Extends.refl s
  | ok l =>
    dsimp only
    cases hreg : s.registry.register (groupId.getD (defaultGroupId ranks)) l with
    | error e => exact Extends.refl s
    | ok result =>
      have hext := extends_register hentry hreg
      dsimp only
      cases rt.registerExit (groupId.getD (defaultGroupId ranks)) ranks gathered result.1 <;>
        exact hext

/-- **A handle that `register_group` returns** is live, has the id and the ranks it was
asked for, and is known from then on. -/
theorem registerGroup_ok {g : GroupDescriptor}
    (h : (rt.registerGroup ranks groupId gathered).run s = .ok g s') :
    s'.registry.Holds g ∧ g ∈ s'.registry.descs ∧
      g.groupId = groupId.getD (defaultGroupId ranks) ∧ g.ranks = ranks.map Int.toNat := by
  rw [run_registerGroup] at h
  cases hentry : rt.registerEntry ranks with
  | error e =>
    rw [hentry] at h
    cases h
  | ok l =>
    rw [hentry] at h
    dsimp only at h
    cases hreg : s.registry.register (groupId.getD (defaultGroupId ranks)) l with
    | error e =>
      rw [hreg] at h
      cases h
    | ok result =>
      rw [hreg] at h
      dsimp only at h
      cases hexit : rt.registerExit (groupId.getD (defaultGroupId ranks)) ranks gathered
          result.1 with
      | error e =>
        rw [hexit] at h
        cases h
      | ok g' =>
        rw [hexit] at h
        cases h
        obtain rfl := registerExit_ok hexit
        obtain ⟨hlive, hgid, hranks, hmem, -⟩ := Registry.register_ok hreg
        refine ⟨?_, hmem, hgid, hranks.trans (registerEntry_ok hentry).2.1⟩
        unfold Registry.Holds
        rw [hgid]
        exact hlive

/-- The ranks of a group that is registered are below the size of the world. -/
theorem lt_worldSize_of_registerGroup {g : GroupDescriptor}
    (h : (rt.registerGroup ranks groupId gathered).run s = .ok g s') :
    ∀ r ∈ ranks, 0 ≤ r ∧ r < rt.worldSize := by
  rw [run_registerGroup] at h
  cases hentry : rt.registerEntry ranks with
  | error e =>
    rw [hentry] at h
    cases h
  | ok l =>
    obtain ⟨-, hl, hnonneg⟩ := registerEntry_ok hentry
    intro r hr
    have hlt : r.toNat < rt.worldSize := l.lt _ (hl ▸ List.mem_map_of_mem hr)
    have := hnonneg r hr
    omega

theorem extends_unregisterGroup :
    Extends s (endState ((rt.unregisterGroup group).run s)) := by
  have hdescs : (endState ((rt.unregisterGroup group).run s)).registry.descs =
      s.registry.descs := Registry.unregister_descs group
  refine ⟨fun g hg => ?_, fun g hg => Or.inl ?_, fun gid => le_refl _⟩
  · rwa [hdescs]
  · rwa [← hdescs]

/-! ## p2p calls -/

variable {a : P2pArgs}

theorem run_p2pProtocol : (rt.p2pProtocol call current a gathered).run s =
    match rt.p2pEntry a with
    | .error e => .error e s
    | .ok n =>
      match (rt.registerGroup [a.srcRank, a.dstRank] none gathered).run s with
      | .error e s' => .error e s'
      | .ok g s' =>
        if 0 ≤ g.localIndex then (rt.p2pLocked call current a n g).run s'
        else .error (.valueError "this rank is not in the p2p group") s' := by
  unfold p2pProtocol
  rw [run_ofExcept_bind]
  cases rt.p2pEntry a with
  | error e => rfl
  | ok n =>
    dsimp only
    rw [EStateM.run_bind]
    cases (rt.registerGroup [a.srcRank, a.dstRank] none gathered).run s with
    | error e s' => rfl
    | ok g s' =>
      dsimp only
      rw [EStateM.run_bind, run_require]
      by_cases hli : 0 ≤ g.localIndex
      · rw [if_pos hli, if_pos (decide_eq_true hli)]
      · rw [if_neg hli, if_neg (by simpa using hli)]

/-- The locked part of a p2p call takes epochs of its pair only. -/
theorem advances_p2pLocked {n : ℕ} (hG : 0 < group.size) :
    Advances group.groupId s (endState ((rt.p2pLocked call current a n group).run s)) := by
  rw [run_p2pLocked hG]
  cases s.registry.ranksDev group.handle with
  | none => exact ⟨2, _, rfl⟩
  | some row =>
    dsimp only
    cases rt.launchP2p call a n <;> exact ⟨2, _, rfl⟩

theorem extends_p2pProtocol :
    Extends s (endState ((rt.p2pProtocol call current a gathered).run s)) := by
  rw [run_p2pProtocol]
  cases rt.p2pEntry a with
  | error e => exact Extends.refl s
  | ok n =>
    have hreg : Extends s
        (endState ((rt.registerGroup [a.srcRank, a.dstRank] none gathered).run s)) :=
      extends_registerGroup
    dsimp only
    cases hrun : (rt.registerGroup [a.srcRank, a.dstRank] none gathered).run s with
    | error e s' =>
      rw [hrun] at hreg
      exact hreg
    | ok g s' =>
      rw [hrun] at hreg
      dsimp only
      split
      case isTrue hli => exact hreg.trans (advances_p2pLocked (size_pos_of_member hli)).extends
      case isFalse => exact hreg

/-! ## Every call extends the state -/

theorem extends_program (c : Call) : Extends s (endState ((c.program rt).run s)) := by
  cases c with
  | register ranks groupId gathered =>
    show Extends s (endState ((some <$> rt.registerGroup ranks groupId gathered).run s))
    rw [endState_map]
    exact extends_registerGroup
  | unregister group =>
    show Extends s (endState (((fun _ => none) <$> rt.unregisterGroup group).run s))
    rw [endState_map]
    exact extends_unregisterGroup
  | collective call current group c =>
    show Extends s (endState (((fun _ => none) <$> c.submit rt call current group).run s))
    rw [endState_map]
    exact (advances_collective c).extends
  | p2p call current c gathered =>
    show Extends s (endState (((fun _ => none) <$> c.submit rt call current gathered).run s))
    rw [endState_map, P2pCall.submit_eq, EStateM.run_bind, run_require]
    split
    case h_1 heq =>
      split at heq <;> cases heq
      exact extends_p2pProtocol
    case h_2 heq =>
      split at heq <;> cases heq
      exact Extends.refl s
  | shutdown => exact ⟨fun g hg => hg, fun g hg => Or.inl hg, fun gid => le_refl _⟩

/-- **Every call extends the state.** -/
theorem Session.extends_run (x : Session rt) (c : Call) : Extends x.state (x.run c).2.state := by
  have h := extends_program (s := x.state) c
  unfold Session.run
  split
  case isTrue => exact Extends.refl _
  case isFalse => exact h

/-- A call other than `shutdown`. -/
theorem Session.run_eq {x : Session rt} {c : Call} (hc : c.isShutdown = false) :
    x.run c = (outcome ((c.program rt).run x.state),
      ⟨endState ((c.program rt).run x.state), x.isShutdown⟩) := by
  unfold Session.run
  rw [if_neg (by simp [hc]), hc, Bool.or_false]

section Run

variable {x : Session rt}

theorem run_collective_eq (c : CollectiveCall) :
    x.run (.collective call current group c) =
      ((outcome ((c.submit rt call current group).run x.state)).map fun _ => none,
        ⟨endState ((c.submit rt call current group).run x.state), x.isShutdown⟩) := by
  rw [Session.run_eq rfl]
  show (outcome (((fun _ => none) <$> c.submit rt call current group).run x.state),
    (⟨endState (((fun _ => none) <$> c.submit rt call current group).run x.state),
      x.isShutdown⟩ : Session rt)) = _
  rw [outcome_map, endState_map]

theorem run_p2p_eq (c : P2pCall) (gathered : List (ℤ × List ℤ)) :
    x.run (.p2p call current c gathered) =
      ((outcome ((c.submit rt call current gathered).run x.state)).map fun _ => none,
        ⟨endState ((c.submit rt call current gathered).run x.state), x.isShutdown⟩) := by
  rw [Session.run_eq rfl]
  show (outcome (((fun _ => none) <$> c.submit rt call current gathered).run x.state),
    (⟨endState (((fun _ => none) <$> c.submit rt call current gathered).run x.state),
      x.isShutdown⟩ : Session rt)) = _
  rw [outcome_map, endState_map]

theorem run_register_eq (ranks : List ℤ) (groupId : Option ℤ) (gathered : List (ℤ × List ℤ)) :
    x.run (.register ranks groupId gathered) =
      ((outcome ((rt.registerGroup ranks groupId gathered).run x.state)).map some,
        ⟨endState ((rt.registerGroup ranks groupId gathered).run x.state), x.isShutdown⟩) := by
  rw [Session.run_eq rfl]
  show (outcome ((some <$> rt.registerGroup ranks groupId gathered).run x.state),
    (⟨endState ((some <$> rt.registerGroup ranks groupId gathered).run x.state),
      x.isShutdown⟩ : Session rt)) = _
  rw [outcome_map, endState_map]

/-- A handle that a call returns is known afterwards. -/
theorem returned_mem {c : Call} {g : GroupDescriptor} (hg : g ∈ returned (x.run c).1) :
    g ∈ (x.run c).2.state.registry.descs := by
  cases c with
  | register ranks groupId gathered =>
    rw [run_register_eq] at hg ⊢
    cases hrun : (rt.registerGroup ranks groupId gathered).run x.state with
    | error e s' =>
      rw [hrun] at hg
      cases hg
    | ok g' s' =>
      rw [hrun] at hg
      rw [List.mem_singleton.mp hg]
      exact (registerGroup_ok hrun).2.1
  | unregister group =>
    rw [Session.run_eq rfl] at hg
    cases hg
  | shutdown =>
    unfold Session.run at hg
    split at hg <;> cases hg
  | collective call current group c =>
    rw [run_collective_eq] at hg
    cases hrun : outcome ((c.submit rt call current group).run x.state) <;>
      rw [hrun] at hg <;> cases hg
  | p2p call current c gathered =>
    rw [run_p2p_eq] at hg
    cases hrun : outcome ((c.submit rt call current gathered).run x.state) <;>
      rw [hrun] at hg <;> cases hg

end Run

end Runtime

end GroupFreeCollectives
