import GroupFreeCollectives.Runtime.Session

/-!
# The life of a group handle

What holds of the registry in every session a rank can reach.  The shape of the registry
is carried by `Registry` itself.  Along a session it has to be proved that the handles
the callers hold are known to the registry, and that a registered group passes the size
check of `register_group` once more (`Tracked`).
-/

namespace GroupFreeCollectives

namespace Runtime

variable {rt : Runtime} {s s' : RuntimeState rt.rank rt.worldSize}

/-! ## Reachable sessions -/

/-- The callers' handles are known, and every known one has an accepted size. -/
structure Tracked (x : Session rt) (handles : List GroupDescriptor) : Prop where
  mem : ∀ g ∈ handles, g ∈ x.state.registry.descs
  size : ∀ g ∈ x.state.registry.descs, rt.SizeChecked g

theorem tracked_initial : Tracked (Session.initial : Session rt) [] :=
  ⟨by simp, fun g hg => by cases hg⟩

theorem Tracked.run {x : Session rt} {handles : List GroupDescriptor} (h : Tracked x handles)
    (c : Call) : Tracked (x.run c).2 (handles ++ returned (x.run c).1) := by
  have hext := x.extends_run c
  constructor
  · intro g hg
    rcases List.mem_append.mp hg with hg | hg
    · exact hext.descs g (h.mem g hg)
    · exact returned_mem hg
  · intro g hg
    rcases hext.new g hg with hg | hsize
    · exact h.size g hg
    · exact hsize

/-- **Every reachable session is tracked.** -/
theorem Reachable.tracked {x : Session rt} {handles : List GroupDescriptor}
    (h : Reachable rt x handles) : Tracked x handles := by
  induction h with
  | initial => exact tracked_initial
  | call h hc ih => exact ih.run _

/-! ## Registering an id that is taken -/

theorem require_bind_of_true {α : Type} {cond : Bool} {msg : String}
    {f : Unit → Except PyError α} (h : cond = true) : (require cond msg >>= f) = f () := by
  rw [h]
  rfl

theorem requireProof_bind {α : Type} {p : Prop} [Decidable p] {msg : String}
    {f : PLift p → Except PyError α} (h : p) : (requireProof p msg >>= f) = f ⟨h⟩ := by
  unfold requireProof
  rw [dif_pos h]
  rfl

/-- The ranks of a registered group pass the entry checks again. -/
theorem registerEntry_of_checked {g : GroupDescriptor} (hg : g.Describes rt.rank rt.worldSize)
    (hsize : rt.SizeChecked g) :
    ∃ l, rt.registerEntry (g.ranks.map Int.ofNat) = .ok l ∧ l.ranks = g.ranks := by
  have hnodup : (g.ranks.map Int.ofNat).Nodup := hg.nodup.map fun a b h => Int.ofNat.inj h
  have hrange : ∀ r ∈ g.ranks.map Int.ofNat, 0 ≤ r ∧ r < (rt.worldSize : ℤ) := by
    intro r hr
    obtain ⟨q, hq, rfl⟩ := List.mem_map.mp hr
    exact ⟨Int.natCast_nonneg q, Int.ofNat_lt.mpr (hg.lt q hq)⟩
  have hlen : 0 < (g.ranks.map Int.ofNat).length ∧
      (g.ranks.map Int.ofNat).length ≤ rt.config.maxGroupSize := by
    rwa [List.length_map]
  unfold registerEntry
  dsimp only
  rw [require_bind_of_true (decide_eq_true hlen), requireProof_bind hnodup,
    requireProof_bind hrange]
  refine ⟨_, rfl, ?_⟩
  show (g.ranks.map Int.ofNat).map Int.toNat = g.ranks
  rw [List.map_map]
  exact List.map_id _

/-- A check raises `ValueError` or lets the rest run. -/
theorem error_of_require_bind {α : Type} {cond : Bool} {msg : String}
    {f : Unit → Except PyError α} {e : PyError} (h : (require cond msg >>= f) = .error e) :
    e = .valueError msg ∨ f () = .error e := by
  cases cond with
  | true => exact Or.inr h
  | false => exact Or.inl (Except.error.inj h).symm

theorem error_of_requireProof_bind {α : Type} {p : Prop} [Decidable p] {msg : String}
    {f : PLift p → Except PyError α} {e : PyError} (h : (requireProof p msg >>= f) = .error e) :
    e = .valueError msg ∨ ∃ hp, f ⟨hp⟩ = .error e := by
  by_cases hp : p
  · rw [requireProof_bind hp] at h
    exact Or.inr ⟨hp, h⟩
  · unfold requireProof at h
    rw [dif_neg hp] at h
    exact Or.inl (Except.error.inj h).symm

/-- The entry checks of `register_group` raise `ValueError`. -/
theorem registerEntry_error {ranks : List ℤ} {e : PyError}
    (h : rt.registerEntry ranks = .error e) : ∃ msg, e = .valueError msg := by
  unfold registerEntry at h
  rcases error_of_require_bind h with he | h
  · exact ⟨_, he⟩
  rcases error_of_requireProof_bind h with he | ⟨hnodup, h⟩
  · exact ⟨_, he⟩
  rcases error_of_requireProof_bind h with he | ⟨hrange, h⟩
  · exact ⟨_, he⟩
  · cases h

variable {x : Session rt} {handles : List GroupDescriptor} {g : GroupDescriptor}
  {groupId : Option ℤ} {gathered : List (ℤ × List ℤ)}

/-- **A taken id with its ranks gives the live handle**, and nothing changes. -/
theorem register_same (h : Tracked x handles)
    (hreg : x.state.registry.registered (groupId.getD (defaultGroupId (g.ranks.map Int.ofNat))) =
      some g) :
    x.run (.register (g.ranks.map Int.ofNat) groupId gathered) = (.ok (some g), x) := by
  have hmem := (x.state.registry.mem_of_registered _ g hreg).1
  obtain ⟨l, hentry, hl⟩ := registerEntry_of_checked (x.state.registry.describes g hmem)
    (h.size g hmem)
  have hrun : (rt.registerGroup (g.ranks.map Int.ofNat) groupId gathered).run x.state =
      .ok g x.state := by
    rw [run_registerGroup, hentry]
    dsimp only
    rw [Registry.register_of_same hreg hl.symm]
    dsimp only
    rw [registerExit_old]
  rw [run_register_eq, hrun]
  rfl

/-- **A taken id with other ranks is refused**, and nothing changes. -/
theorem register_other {ranks : List ℤ}
    (hreg : x.state.registry.registered (groupId.getD (defaultGroupId ranks)) = some g)
    (hne : ranks ≠ g.ranks.map Int.ofNat) :
    ∃ msg, x.run (.register ranks groupId gathered) = (.error (.valueError msg), x) := by
  have hrun : ∃ msg, (rt.registerGroup ranks groupId gathered).run x.state =
      .error (.valueError msg) x.state := by
    rw [run_registerGroup]
    cases hentry : rt.registerEntry ranks with
    | error e =>
      obtain ⟨msg, rfl⟩ := registerEntry_error hentry
      exact ⟨msg, rfl⟩
    | ok l =>
      obtain ⟨-, hl, hpos⟩ := registerEntry_ok hentry
      have hranks : g.ranks ≠ l.ranks := by
        intro heq
        refine hne ?_
        rw [heq, hl, List.map_map]
        refine (List.map_id ranks).symm.trans (List.map_congr_left fun r hr => ?_)
        exact (Int.toNat_of_nonneg (hpos r hr)).symm
      obtain ⟨msg, herr⟩ := Registry.register_of_ne hreg hranks
      refine ⟨msg, ?_⟩
      dsimp only
      rw [herr]
  obtain ⟨msg, hrun⟩ := hrun
  refine ⟨msg, ?_⟩
  rw [run_register_eq, hrun]
  rfl

/-! ## Stale handles -/

/-- **Releasing a handle that the registry does not hold changes nothing.** -/
theorem unregister_stale (hg : ¬ x.state.registry.Holds g) :
    x.run (.unregister g) = (.ok none, x) := by
  rw [Session.run_eq rfl]
  show ((.ok none : Except PyError (Option GroupDescriptor)),
    (⟨{ x.state with registry := x.state.registry.unregister g }, x.isShutdown⟩ : Session rt)) = _
  rw [Registry.unregister_of_not_holds hg]

/-- A released handle is not live, the others are left alone. -/
theorem holds_unregister_iff {d : GroupDescriptor} :
    (x.run (.unregister g)).2.state.registry.Holds d ↔ x.state.registry.Holds d ∧ d ≠ g := by
  rw [Session.run_eq rfl]
  exact Registry.holds_unregister_iff

/-- **A collective on a handle that is not live raises** and takes no epoch. -/
theorem collective_dead (hg : x.state.registry.ranksDev g.handle = none) (call : ℕ)
    (current : StreamId) (c : CollectiveCall) :
    ∃ e, (x.run (.collective call current g c)).1 = .error e ∧
      (x.run (.collective call current g c)).2.state.epochs = x.state.epochs ∧
      (x.run (.collective call current g c)).2.state.registry = x.state.registry := by
  have hrun : ∃ e s, (c.submit rt call current g).run x.state = .error e s ∧
      s.epochs = x.state.epochs ∧ s.registry = x.state.registry := by
    cases c with
    | barrier =>
      show ∃ e s, (rt.barrier call g).run x.state = .error e s ∧ _
      rw [run_barrier, hg]
      cases rt.barrierEntry g with
      | error e => exact ⟨e, x.state, rfl, rfl, rfl⟩
      | ok _ => exact ⟨_, x.state, rfl, rfl, rfl⟩
    | data c =>
      show ∃ e s, (c.submit rt call current g).run x.state = .error e s ∧ _
      rw [run_submit, hg]
      cases c.entry rt g with
      | error e => exact ⟨e, x.state, rfl, rfl, rfl⟩
      | ok n => exact ⟨_, x.state.push (ingestItems call current), rfl, rfl, rfl⟩
  obtain ⟨e, s, hrun, hepochs, hregistry⟩ := hrun
  refine ⟨e, ?_⟩
  rw [run_collective_eq, hrun]
  exact ⟨rfl, hepochs, hregistry⟩

/-- The device rank list of a handle. -/
theorem ranksDev_iff_of_mem (hg : g ∈ x.state.registry.descs) {row : List ℕ} :
    x.state.registry.ranksDev g.handle = some row ↔
      (x.state.registry.Holds g ∧ rt.rank ∈ g.ranks) ∧ row = g.ranks := by
  rw [x.state.registry.ranksDev_eq_some_iff hg,
    (x.state.registry.describes g hg).localIndex_nonneg_iff, and_assoc]

/-- A collective leaves the registry alone. -/
theorem registry_run_collective {call : ℕ} {current : StreamId} (c : CollectiveCall) :
    (x.run (.collective call current g c)).2.state.registry = x.state.registry := by
  rw [run_collective_eq]
  exact (advances_collective c).registry_eq

/-- `shutdown` leaves nothing registered. -/
theorem not_holds_shutdown (hx : x.isShutdown = false) (d : GroupDescriptor) :
    ¬ (x.run .shutdown).2.state.registry.Holds d ∧
      (d ∈ x.state.registry.descs →
        (x.run .shutdown).2.state.registry.ranksDev d.handle = none) := by
  have hrun : (x.run .shutdown).2.state.registry = x.state.registry.clear := by
    unfold Session.run
    rw [if_neg (by simp [hx])]
    rfl
  have hnot : ¬ (x.run .shutdown).2.state.registry.Holds d := by
    rw [hrun]
    rintro ⟨⟩
  refine ⟨hnot, fun hd => ?_⟩
  have hd' := (x.extends_run .shutdown).descs d hd
  refine Option.eq_none_iff_forall_ne_some.mpr fun row hrow => hnot ?_
  exact (((x.run .shutdown).2.state.registry.ranksDev_eq_some_iff hd').mp hrow).1

/-- `register_group` keeps the counters. -/
theorem register_epochs {ranks : List ℤ} :
    (x.run (.register ranks groupId gathered)).2.state.epochs = x.state.epochs := by
  rw [run_register_eq]
  exact registerGroup_frame.1

/-! ## What calls do to live handles -/

/-- Registering ends the life of no handle, and revives none. -/
theorem holds_registerGroup_iff {ranks : List ℤ} (hg : g ∈ s.registry.descs) :
    (endState ((rt.registerGroup ranks groupId gathered).run s)).registry.Holds g ↔
      s.registry.Holds g := by
  rw [run_registerGroup]
  cases rt.registerEntry ranks with
  | error e => exact Iff.rfl
  | ok l =>
    dsimp only
    cases hreg : s.registry.register (groupId.getD (defaultGroupId ranks)) l with
    | error e => exact Iff.rfl
    | ok result =>
      have hiff := Registry.holds_register_iff hreg hg
      dsimp only
      cases rt.registerExit (groupId.getD (defaultGroupId ranks)) ranks gathered result.1 <;>
        exact hiff

theorem holds_register_iff {ranks : List ℤ} (hg : g ∈ x.state.registry.descs) :
    (x.run (.register ranks groupId gathered)).2.state.registry.Holds g ↔
      x.state.registry.Holds g := by
  rw [run_register_eq]
  exact holds_registerGroup_iff hg

/-- A p2p call registers its pair, and does nothing else to the registry. -/
theorem holds_p2p_iff {call : ℕ} {current : StreamId} {c : P2pCall}
    (hg : g ∈ x.state.registry.descs) :
    (x.run (.p2p call current c gathered)).2.state.registry.Holds g ↔
      x.state.registry.Holds g := by
  rw [run_p2p_eq, P2pCall.submit_eq]
  dsimp only
  rw [EStateM.run_bind, run_require]
  by_cases hpeer : decide (c.peer ≠ rt.rank) = true
  case neg =>
    rw [if_neg hpeer]
    rfl
  rw [if_pos hpeer]
  dsimp only
  rw [run_p2pProtocol]
  cases rt.p2pEntry (c.args rt.rank) with
  | error e => exact Iff.rfl
  | ok n =>
    have hiff : (endState ((rt.registerGroup [(c.args rt.rank).srcRank, (c.args rt.rank).dstRank]
        none gathered).run x.state)).registry.Holds g ↔ x.state.registry.Holds g :=
      holds_registerGroup_iff hg
    dsimp only
    cases hreg : (rt.registerGroup [(c.args rt.rank).srcRank, (c.args rt.rank).dstRank] none
        gathered).run x.state with
    | error e s' =>
      rw [hreg] at hiff
      exact hiff
    | ok g' s' =>
      rw [hreg] at hiff
      dsimp only
      split
      case isTrue hli =>
        rw [(advances_p2pLocked (size_pos_of_member hli)).registry_eq]
        exact hiff
      case isFalse => exact hiff

/-- **Only a release and `shutdown` end the life of a handle**, and nothing revives one. -/
theorem holds_run_iff {c : Call} (hc : c.Keeps) (hg : g ∈ x.state.registry.descs) :
    (x.run c).2.state.registry.Holds g ↔ x.state.registry.Holds g := by
  cases c with
  | register ranks groupId gathered => exact holds_register_iff hg
  | unregister group => exact hc.elim
  | shutdown => exact hc.elim
  | collective call current group c => rw [registry_run_collective]
  | p2p call current c gathered => exact holds_p2p_iff hg

/-- **A handle that a registration returns is live**, with the id and the ranks it was asked
for. -/
theorem holds_of_register {ranks : List ℤ}
    (h : (x.run (.register ranks groupId gathered)).1 = .ok (some g)) :
    (x.run (.register ranks groupId gathered)).2.state.registry.Holds g ∧
      g ∈ (x.run (.register ranks groupId gathered)).2.state.registry.descs ∧
      g.groupId = groupId.getD (defaultGroupId ranks) ∧ ranks = g.ranks.map Int.ofNat := by
  rw [run_register_eq] at h ⊢
  cases hrun : (rt.registerGroup ranks groupId gathered).run x.state with
  | error e s' =>
    rw [hrun] at h
    cases h
  | ok g' s' =>
    rw [hrun] at h
    cases h
    obtain ⟨hlive, hmem, hgid, hranks⟩ := registerGroup_ok hrun
    refine ⟨hlive, hmem, hgid, ?_⟩
    rw [hranks, List.map_map]
    refine (List.map_id ranks).symm.trans (List.map_congr_left fun r hr => ?_)
    exact (Int.toNat_of_nonneg (lt_worldSize_of_registerGroup hrun r hr).1).symm

/-! ## The life cycle -/

/-- **The life of a handle**, in every session that any calls lead to.  An id has at
most one live descriptor, which carries the id; a handle has a device rank list, namely
its ranks, exactly while it is live and on a member; a taken id gives the live handle or
`ValueError`, without a change; releasing a handle ends its life and no other, and
changes nothing if it is stale; a collective on a handle without a rank list raises and
takes no epoch; no call lowers a counter, and a registration keeps them, so that it
continues the sequence.  A handle that a registration returns is live, with the id and the
ranks that were asked for; calls other than releases and `shutdown` leave the life of every
handle as it is; and `shutdown` leaves nothing live. -/
theorem registry_life_cycle (h : Reachable rt x handles) :
    (∀ gid g, x.state.registry.registered gid = some g → g.groupId = gid) ∧
    (∀ g ∈ handles, ∀ row, x.state.registry.ranksDev g.handle = some row ↔
      (x.state.registry.Holds g ∧ rt.rank ∈ g.ranks) ∧ row = g.ranks) ∧
    (∀ g ranks groupId gathered,
      x.state.registry.registered (Option.getD groupId (defaultGroupId ranks)) = some g →
        (ranks = g.ranks.map Int.ofNat →
          x.run (.register ranks groupId gathered) = (.ok (some g), x)) ∧
        (ranks ≠ g.ranks.map Int.ofNat →
          ∃ msg, x.run (.register ranks groupId gathered) = (.error (.valueError msg), x))) ∧
    (∀ g d, (x.run (.unregister g)).2.state.registry.Holds d ↔
      x.state.registry.Holds d ∧ d ≠ g) ∧
    (∀ g ∈ handles, ¬ x.state.registry.Holds g → x.run (.unregister g) = (.ok none, x)) ∧
    (∀ g ∈ handles, ¬ (x.state.registry.Holds g ∧ rt.rank ∈ g.ranks) →
      ∀ call current c, ∃ e, (x.run (.collective call current g c)).1 = .error e ∧
        (x.run (.collective call current g c)).2.state.epochs = x.state.epochs) ∧
    (∀ c gid, x.state.epochs.peek gid ≤ (x.run c).2.state.epochs.peek gid) ∧
    (∀ ranks groupId gathered,
      (x.run (.register ranks groupId gathered)).2.state.epochs = x.state.epochs) ∧
    (∀ ranks groupId gathered g, (x.run (.register ranks groupId gathered)).1 = .ok (some g) →
      ((x.run (.register ranks groupId gathered)).2.state.registry.Holds g ∧
        g.groupId = groupId.getD (defaultGroupId ranks) ∧ ranks = g.ranks.map Int.ofNat) ∧
      ∀ row, (x.run (.register ranks groupId gathered)).2.state.registry.ranksDev g.handle =
        some row ↔ rt.rank ∈ g.ranks ∧ row = g.ranks) ∧
    (∀ c : Call, c.Keeps → ∀ g ∈ handles,
      ((x.run c).2.state.registry.Holds g ↔ x.state.registry.Holds g)) ∧
    (x.isShutdown = false → ∀ g, ¬ (x.run .shutdown).2.state.registry.Holds g ∧
      (g ∈ handles → (x.run .shutdown).2.state.registry.ranksDev g.handle = none)) := by
  have htracked := h.tracked
  refine ⟨?_, ?_, ?_, fun g d => holds_unregister_iff, ?_, ?_, ?_, ?_, ?_, ?_, ?_⟩
  · intro gid g hreg
    exact (x.state.registry.mem_of_registered gid g hreg).2
  · intro g hg row
    exact ranksDev_iff_of_mem (htracked.mem g hg)
  · intro g ranks groupId gathered hreg
    constructor
    · rintro rfl
      exact register_same htracked hreg
    · exact register_other hreg
  · intro g hg hlive
    exact unregister_stale hlive
  · intro g hg hlive call current c
    have hnone : x.state.registry.ranksDev g.handle = none := by
      refine Option.eq_none_iff_forall_ne_some.mpr fun row hrow => hlive ?_
      exact ((ranksDev_iff_of_mem (htracked.mem g hg)).mp hrow).1
    obtain ⟨e, he, hepochs, -⟩ := collective_dead hnone call current c
    exact ⟨e, he, hepochs⟩
  · intro c gid
    exact (x.extends_run c).epochs gid
  · intro ranks groupId gathered
    exact register_epochs
  · intro ranks groupId gathered g hok
    obtain ⟨hlive, hmem, hgid, hranks⟩ := holds_of_register hok
    refine ⟨⟨hlive, hgid, hranks⟩, fun row => ?_⟩
    rw [ranksDev_iff_of_mem hmem]
    exact and_congr_left' (and_iff_right hlive)
  · intro c hc g hg
    exact holds_run_iff hc (htracked.mem g hg)
  · intro hx g
    obtain ⟨hnot, hnone⟩ := not_holds_shutdown hx g
    exact ⟨hnot, fun hg => hnone (htracked.mem g hg)⟩

/-- The theorem for a session that has registered its world: registered again, the world has
the same handle, another group leaves it live, and `shutdown` does not. -/
theorem registry_life_cycle_witness :
    ∃ x, Reachable (pairRuntime Config.default none 0) x [pairGroup 0] ∧
      x.state.registry.Holds (pairGroup 0) ∧
      x.run (.register [0, 1] (some 7) []) = (.ok (some (pairGroup 0)), x) ∧
      (x.run (.register [1, 0] (some 8) [])).2.state.registry.Holds (pairGroup 0) ∧
      (∃ g, (x.run (.register [1, 0] (some 8) [])).2.state.registry.Holds g ∧ g.groupId = 8) ∧
      ¬ (x.run .shutdown).2.state.registry.Holds (pairGroup 0) := by
  have h : Reachable (pairRuntime Config.default none 0)
      (Session.initial.run (.register [0, 1] (some 7) [])).2 [pairGroup 0] :=
    Reachable.call Reachable.initial (by rintro g ⟨⟩)
  obtain ⟨-, -, -, -, -, -, -, -, hfirst, -, -⟩ :=
    registry_life_cycle (@Reachable.initial (pairRuntime Config.default none 0))
  obtain ⟨-, -, htaken, -, -, -, -, -, hnew, hkeeps, hshutdown⟩ := registry_life_cycle h
  have hlive := (hfirst [0, 1] (some 7) [] (pairGroup 0) rfl).1.1
  obtain ⟨⟨hlive', hgid, -⟩, -⟩ := hnew [1, 0] (some 8) [] _ rfl
  exact ⟨_, h, hlive, (htaken (pairGroup 0) [0, 1] (some 7) [] rfl).1 rfl,
    (hkeeps (.register [1, 0] (some 8) []) trivial (pairGroup 0) List.mem_cons_self).mpr hlive,
    ⟨_, hlive', hgid⟩, (hshutdown rfl (pairGroup 0)).1⟩

end Runtime

end GroupFreeCollectives
