import GroupFreeCollectives.Runtime.Entry
import GroupFreeCollectives.Runtime.P2p

/-!
# What the registry calls and the p2p calls do

The equations of `register_group`, `unregister_group` and the locked part of
`_p2p_protocol`.  With bases aligned to 16 bytes no p2p launch fails, so a p2p call
whose handle is live when it takes the lock returns.
-/

namespace GroupFreeCollectives

open Tiling

namespace Registry

variable {rank worldSize : ℕ} {reg : Registry rank worldSize} {gid : ℤ} {l : RankList worldSize}

/-- An id with its ranks gives the live handle. -/
theorem register_of_same {g : GroupDescriptor} (hreg : reg.registered gid = some g)
    (hranks : g.ranks = l.ranks) : reg.register gid l = .ok ((g, false), reg) := by
  unfold register
  split
  case h_1 existing hex =>
    obtain rfl := Option.some_inj.mp (hex.symm.trans hreg)
    exact if_pos hranks
  case h_2 hnone => cases hnone.symm.trans hreg

/-- An id with other ranks is refused. -/
theorem register_of_ne {g : GroupDescriptor} (hreg : reg.registered gid = some g)
    (hranks : g.ranks ≠ l.ranks) : ∃ msg, reg.register gid l = .error (.valueError msg) := by
  unfold register
  split
  case h_1 existing hex =>
    obtain rfl := Option.some_inj.mp (hex.symm.trans hreg)
    exact ⟨_, if_neg hranks⟩
  case h_2 hnone => cases hnone.symm.trans hreg

/-- A new id gets a new handle. -/
theorem register_of_none (hreg : reg.registered gid = none) :
    reg.register gid l = .ok ((reg.newDesc gid l, true), reg.add gid l hreg) := by
  unfold register
  split
  case h_1 hex => cases hex.symm.trans hreg
  case h_2 => rfl

/-- **What `register_group` does under the lock**: the handle it returns is live
afterwards, and every handle returned before is still known. -/
theorem register_ok {g : GroupDescriptor} {new : Bool} {reg' : Registry rank worldSize}
    (h : reg.register gid l = .ok ((g, new), reg')) :
    reg'.registered gid = some g ∧ g.groupId = gid ∧ g.ranks = l.ranks ∧ g ∈ reg'.descs ∧
      (∀ d ∈ reg.descs, d ∈ reg'.descs) ∧
      (new = false ∧ reg' = reg ∨ new = true ∧ reg.registered gid = none ∧ g ∉ reg.descs) := by
  cases hreg : reg.registered gid with
  | some existing =>
    by_cases hranks : existing.ranks = l.ranks
    · rw [register_of_same hreg hranks] at h
      cases h
      obtain ⟨hmem, hgid⟩ := reg.mem_of_registered gid g hreg
      exact ⟨hreg, hgid, hranks, hmem, fun d hd => hd, Or.inl ⟨rfl, rfl⟩⟩
    · obtain ⟨msg, herr⟩ := register_of_ne hreg hranks
      rw [herr] at h
      cases h
  | none =>
    rw [register_of_none hreg] at h
    cases h
    refine ⟨Function.update_self .., rfl, rfl, ?_, ?_, Or.inr ⟨rfl, rfl, reg.newDesc_not_mem gid l⟩⟩
    · exact List.mem_append_right _ (List.mem_singleton_self _)
    · intro d hd
      exact List.mem_append_left _ hd

/-- Registering ends the life of no handle, and revives none. -/
theorem holds_register_iff {result : GroupDescriptor × Bool} {reg' : Registry rank worldSize}
    (h : reg.register gid l = .ok (result, reg')) {g : GroupDescriptor} (hg : g ∈ reg.descs) :
    reg'.Holds g ↔ reg.Holds g := by
  cases hreg : reg.registered gid with
  | some existing =>
    by_cases hranks : existing.ranks = l.ranks
    · rw [register_of_same hreg hranks] at h
      cases h
      exact Iff.rfl
    · obtain ⟨msg, herr⟩ := register_of_ne hreg hranks
      rw [herr] at h
      cases h
  | none =>
    rw [register_of_none hreg] at h
    cases h
    exact reg.holds_add_iff hg

/-- Releasing a handle the registry does not hold changes nothing. -/
theorem unregister_of_not_holds {g : GroupDescriptor} (h : ¬ reg.Holds g) :
    reg.unregister g = reg := dif_neg h

@[simp] theorem unregister_descs (g : GroupDescriptor) : (reg.unregister g).descs = reg.descs := by
  unfold unregister
  split <;> rfl

/-- A released handle is not held, and no other handle is affected. -/
theorem holds_unregister_iff {g d : GroupDescriptor} :
    (reg.unregister g).Holds d ↔ reg.Holds d ∧ d ≠ g := by
  unfold unregister Holds
  split
  case isTrue hg =>
    show Function.update reg.registered g.groupId none d.groupId = some d ↔ _
    by_cases hgid : d.groupId = g.groupId
    · rw [hgid, Function.update_self, hg]
      exact iff_of_false (by simp) fun h => h.2 (Option.some_inj.mp h.1).symm
    · rw [Function.update_of_ne hgid]
      exact ⟨fun h => ⟨h, fun hdg => hgid (hdg ▸ rfl)⟩, fun h => h.1⟩
  case isFalse hg =>
    exact ⟨fun h => ⟨h, fun hdg => hg (hdg ▸ h)⟩, fun h => h.1⟩

end Registry

namespace Runtime

variable {rt : Runtime} {s : RuntimeState rt.rank rt.worldSize}

/-! ## `register_group` -/

theorem run_registerLocked {gid : ℤ} {l : RankList rt.worldSize} :
    (rt.registerLocked gid l).run s =
      match s.registry.register gid l with
      | .ok (result, registry) => .ok result { s with registry := registry }
      | .error e => .error e s := by
  unfold registerLocked
  rw [run_bind_of_ok (EStateM.run_get s), run_ofExcept_bind]
  cases s.registry.register gid l with
  | error e => rfl
  | ok result => rfl

/-- **What `register_group` does.** -/
theorem run_registerGroup {ranks : List ℤ} {groupId : Option ℤ} {gathered : List (ℤ × List ℤ)} :
    (rt.registerGroup ranks groupId gathered).run s =
      match rt.registerEntry ranks with
      | .error e => .error e s
      | .ok l =>
        match s.registry.register (groupId.getD (defaultGroupId ranks)) l with
        | .error e => .error e s
        | .ok (result, registry) =>
          match rt.registerExit (groupId.getD (defaultGroupId ranks)) ranks gathered result with
          | .error e => .error e { s with registry := registry }
          | .ok g => .ok g { s with registry := registry } := by
  unfold registerGroup
  rw [run_ofExcept_bind]
  cases rt.registerEntry ranks with
  | error e => rfl
  | ok l =>
    dsimp only
    rw [EStateM.run_bind, run_registerLocked]
    cases s.registry.register (groupId.getD (defaultGroupId ranks)) l with
    | error e => rfl
    | ok result =>
      dsimp only
      rw [run_ofExcept]
      cases rt.registerExit (groupId.getD (defaultGroupId ranks)) ranks gathered result.1 <;> rfl

/-- The debug check raises or returns the handle. -/
theorem registerExit_ok {gid : ℤ} {ranks : List ℤ} {gathered : List (ℤ × List ℤ)}
    {result : GroupDescriptor × Bool} {g : GroupDescriptor}
    (h : rt.registerExit gid ranks gathered result = .ok g) : g = result.1 := by
  unfold registerExit at h
  split at h
  · obtain ⟨_, -, h⟩ := bind_ok_iff.mp h
    exact (Except.ok.inj h).symm
  · exact (Except.ok.inj h).symm

/-- Nothing is checked of a handle that was registered before. -/
theorem registerExit_old {gid : ℤ} {ranks : List ℤ} {gathered : List (ℤ × List ℤ)}
    {g : GroupDescriptor} : rt.registerExit gid ranks gathered (g, false) = .ok g := by
  unfold registerExit
  rw [if_neg (by simp)]
  rfl

/-- What the entry checks of `register_group` establish. -/
theorem registerEntry_ok {ranks : List ℤ} {l : RankList rt.worldSize}
    (h : rt.registerEntry ranks = .ok l) :
    (0 < ranks.length ∧ ranks.length ≤ rt.config.maxGroupSize) ∧
      l.ranks = ranks.map Int.toNat ∧ ∀ r ∈ ranks, 0 ≤ r := by
  unfold registerEntry at h
  obtain ⟨hsize, h⟩ := require_bind_ok_iff.mp h
  obtain ⟨⟨hnodup⟩, -, h⟩ := bind_ok_iff.mp h
  obtain ⟨⟨hrange⟩, -, h⟩ := bind_ok_iff.mp h
  rw [← Except.ok.inj h]
  exact ⟨of_decide_eq_true hsize, rfl, fun r hr => (hrange r hr).1⟩

/-! ## The p2p calls -/

variable (rt) in
/-- The bases of the communication buffers are aligned to 16 bytes, as the symmetric
allocator hands them out. -/
def AlignedBases : Prop := ∀ r, 16 ∣ rt.bufferPtrs r

variable (rt) in
/-- What the copy of a p2p call is for. -/
def p2pCopies (call : ℕ) (a : P2pArgs) (n : ℕ) : Set DataAct :=
  match a.protocol, a.role with
  | .put, .sender => copies (fun b => .comm rt.rank b) (fun b => .comm a.dstRank.toNat b) n
  | .get, .receiver =>
    copies (fun b => .comm a.srcRank.toNat b) (fun b => .output rt.rank call b) n
  | _, _ => ∅

/-- **A vector launch that passes its checks copies every byte**, at any width and with any
number of programs. -/
theorem acts_launchPullCopy {src dst : ℕ → Cell} {n vec : ℕ} {numSms : ℤ} {ops : List (Op DataAct)}
    (h : launchPullCopy src dst n vec numSms = .ok ops) : acts ops = copies src dst n := by
  obtain ⟨hn, -, hsms, rfl⟩ := launchPullCopy_ok h
  refine acts_pullCopyKernel_tail (dtypeForVec_pos _) (lt_max_of_lt_right Nat.one_pos) ?_ ?_
  · refine lt_min (by omega) ?_
    split
    case isTrue hfull =>
      exact (lt_cdiv_iff (lt_max_of_lt_right Nat.one_pos)).mpr (by omega)
    case isFalse => exact Nat.one_pos
  · intro hdvd
    exact decide_eq_true fun h => hdvd (Nat.dvd_of_mod_eq_zero h)

/-- The vector launch of a p2p copy. -/
theorem exists_launchPullCopy {src dst : ℕ → Cell} {n : ℕ} (hn : 0 < n) (p q : ℤ) :
    ∃ ops, launchPullCopy src dst n (vecFor [p, q] n) rt.copySms = .ok ops := by
  have hvec : vecFor [p, q] n = 1 ∨ vecFor [p, q] n = 4 ∨ vecFor [p, q] n = 8 ∨
      vecFor [p, q] n = 16 := by
    rcases isVecWidth_vecFor [p, q] n with h | h | h | h <;> simp [h]
  have hsms : (0 : ℤ) < rt.copySms := Int.natCast_pos.mpr rt.copySms_pos
  unfold launchPullCopy
  dsimp only
  exact ⟨_, pyAssert_bind_ok_iff.mpr ⟨decide_eq_true hn, pyAssert_bind_ok_iff.mpr
    ⟨decide_eq_true hvec, pyAssert_bind_ok_iff.mpr ⟨decide_eq_true hsms, rfl⟩⟩⟩⟩

section Copy

variable {src dst : ℕ → Cell} {n p q : ℕ} {ptr ptr' : ℤ} {engine : Bool} {c : Prop} [Decidable c]

variable (rt) in
/-- The copy of a p2p call by the copy engine, by TMA or by the vector kernel. -/
def launchCopy (src dst : ℕ → Cell) (n p q : ℕ) (ptr ptr' : ℤ) (engine : Bool) (c : Prop)
    [Decidable c] : Except PyError (List (List (Op DataAct))) :=
  if engine then pure (launchP2pCopyEngine src dst n)
  else if c then do pure [← launchP2pCopyTma src dst p q n rt.numSms defaultTileBytes]
  else do pure [← launchPullCopy src dst n (vecFor [ptr, ptr'] n) rt.copySms]

variable {ks : List (List (Op DataAct))}

/-- Which engine a copy that is launched uses. -/
theorem launchCopy_cases (h : rt.launchCopy src dst n p q ptr ptr' engine c = .ok ks) :
    (engine = true ∧ ks = launchP2pCopyEngine src dst n) ∨
    (¬ engine = true ∧ c ∧ ∃ ops,
      launchP2pCopyTma src dst p q n rt.numSms defaultTileBytes = .ok ops ∧ ks = [ops]) ∨
    (¬ engine = true ∧ ¬ c ∧ ∃ ops,
      launchPullCopy src dst n (vecFor [ptr, ptr'] n) rt.copySms = .ok ops ∧ ks = [ops]) := by
  unfold launchCopy at h
  split at h
  case isTrue hengine => exact Or.inl ⟨hengine, (Except.ok.inj h).symm⟩
  case isFalse hengine =>
    split at h
    case isTrue hc =>
      obtain ⟨ops, hops, h⟩ := bind_ok_iff.mp h
      exact Or.inr (Or.inl ⟨hengine, hc, ops, hops, (Except.ok.inj h).symm⟩)
    case isFalse hc =>
      obtain ⟨ops, hops, h⟩ := bind_ok_iff.mp h
      exact Or.inr (Or.inr ⟨hengine, hc, ops, hops, (Except.ok.inj h).symm⟩)

/-- **A copy that is launched copies every byte**, whatever the addresses. -/
theorem acts_launchCopy (h : rt.launchCopy src dst n p q ptr ptr' engine c = .ok ks) :
    acts ks.flatten = copies src dst n := by
  rcases launchCopy_cases h with ⟨-, rfl⟩ | ⟨-, -, ops, hops, rfl⟩ | ⟨-, -, ops, hops, rfl⟩
  · exact acts_cudaMemcpyAsync _ _ _
  · rw [List.flatten_singleton, (launchP2pCopyTma_ok hops).2]
    exact acts_p2pTmaKernel rt.numSms_pos (by decide)
  · rw [List.flatten_singleton, acts_launchPullCopy hops]

end Copy

/-- **What a p2p launch that passes its checks copies**, whatever the addresses. -/
theorem acts_launchP2p {call : ℕ} {a : P2pArgs} {n : ℕ} {ks : List (List (Op DataAct))}
    (h : rt.launchP2p call a n = .ok ks) : acts ks.flatten = rt.p2pCopies call a n := by
  rcases a with ⟨srcRank, dstRank, tensor, role, protocol, nbytes⟩
  cases protocol with
  | put =>
    cases role with
    | receiver =>
      rw [← Except.ok.inj h]
      exact acts_nil
    | sender => exact acts_launchCopy h
  | get =>
    cases role with
    | sender =>
      rw [← Except.ok.inj h]
      exact acts_nil
    | receiver => exact acts_launchCopy h

variable {call n : ℕ} {current : StreamId} {a : P2pArgs} {group : GroupDescriptor}

variable (rt) in
/-- What a p2p call enqueues up to its pre-barrier. -/
def p2pPrefix (call : ℕ) (current : StreamId) (a : P2pArgs) (n : ℕ) (row : List ℕ) (tok : ℕ) :
    List Item :=
  ingestItems call current ++
    (if a.role = .sender then [⟨call, .main, .kernel (rt.p2pStage call n)⟩] else []) ++
      [⟨call, .main, .barrier row tok⟩]

variable (rt) in
/-- What a p2p call enqueues from its copy on, given the kernels of the copy. -/
def p2pSuffix (call : ℕ) (a : P2pArgs) (n : ℕ) (row : List ℕ) (tok : ℕ)
    (ks : List (List (Op DataAct))) : List Item :=
  (ks.map fun ops => ⟨call, .main, .kernel ops⟩) ++ [⟨call, .main, .barrier row tok⟩] ++
    if a.protocol = .put ∧ a.role = .receiver then
      [⟨call, .main, .kernel (rt.p2pCopyOut call n)⟩]
    else []

/-- An item enqueued under a condition. -/
theorem run_ite_enqueue {c : Prop} [Decidable c] {stream : StreamId} {cmd : Cmd} :
    (if c then rt.enqueue call stream cmd else pure () : rt.M Unit).run s =
      .ok () (s.push (if c then [⟨call, stream, cmd⟩] else [])) := by
  split
  · exact run_enqueue
  · rw [RuntimeState.push_nil]
    rfl

/-- An item enqueued under a condition, in front of the rest. -/
theorem run_ite_enqueue_bind {c : Prop} [Decidable c] {stream : StreamId} {cmd : Cmd}
    {k : rt.M Unit} :
    (if c then rt.enqueue call stream cmd >>= fun _ => k else k : rt.M Unit).run s =
      k.run (s.push (if c then [⟨call, stream, cmd⟩] else [])) := by
  split
  · exact run_bind_of_ok run_enqueue
  · rw [RuntimeState.push_nil]

/-- **The locked part of a p2p call**: the epochs are taken before the handle is looked
at, so a released handle costs a pair. -/
theorem run_p2pLocked (hG : 0 < group.size) : (rt.p2pLocked call current a n group).run s =
    match s.registry.ranksDev group.handle with
    | none => .error (.valueError
        "group has no device rank list (non-member or already unregistered)")
        ((s.advance group.groupId 2).push (ingestItems call current))
    | some row =>
      match rt.launchP2p call a n with
      | .error e => .error e ((s.advance group.groupId 2).push
          (rt.p2pPrefix call current a n row (rt.token group.groupId (s.epochs.peek group.groupId))))
      | .ok ks => .ok () ((s.advance group.groupId 2).push
          (rt.p2pPrefix call current a n row (rt.token group.groupId (s.epochs.peek group.groupId)) ++
            rt.p2pSuffix call a n row
              (rt.token group.groupId (s.epochs.peek group.groupId + 1)) ks)) := by
  unfold p2pLocked
  rw [run_bind_of_ok run_ingestUserTensors, run_bind_of_ok run_nextPairForCollective,
    EStateM.run_bind, run_groupRanksRow]
  dsimp only [RuntimeState.push_epochs, RuntimeState.push_registry, RuntimeState.advance_registry,
    RuntimeState.push_advance]
  cases s.registry.ranksDev group.handle with
  | none => rfl
  | some row =>
    dsimp only
    rw [run_ite_enqueue_bind, run_bind_of_ok (run_barrierOn hG), run_ofExcept_bind]
    cases rt.launchP2p call a n with
    | error e =>
      simp only [RuntimeState.push_push]
      rfl
    | ok ks =>
      dsimp only
      rw [run_bind_of_ok run_enqueueKernels, run_bind_of_ok (run_barrierOn hG), run_ite_enqueue]
      simp only [RuntimeState.push_push, p2pPrefix, p2pSuffix, List.append_assoc]

end Runtime

end GroupFreeCollectives
