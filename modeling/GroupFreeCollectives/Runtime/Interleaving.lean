import GroupFreeCollectives.Runtime.Reregister

/-!
# p2p calls among other threads

A p2p call takes the lock twice: to look its pair group up, and to issue and enqueue.
Other threads may register and release groups in between.  `Pool` is a runtime with the
p2p calls that are between the two sections, and `Pool.Step` one section of any thread;
the checks outside the lock are pure, and are made with the section that follows or
precedes them.

The second section takes the epochs before it looks at the handle, so a call whose handle
was released in between raises with two epochs of its pair gone.
-/

namespace GroupFreeCollectives

/-- The ranks of the pair group of a p2p call. -/
def P2pArgs.pair (a : P2pArgs) : List ℤ := [a.srcRank, a.dstRank]

namespace Runtime

variable (rt : Runtime)

/-! ## The two sections of a p2p call -/

/-- The first section: the byte count, and the descriptor with whether it is new. -/
def p2pLookup (c : P2pCall) : rt.M (ℕ × GroupDescriptor × Bool) := do
  require (c.peer ≠ rt.rank) c.peerMsg
  let n ← MonadExcept.ofExcept (rt.p2pEntry (c.args rt.rank))
  let l ← MonadExcept.ofExcept (rt.registerEntry (c.args rt.rank).pair)
  let result ← rt.registerLocked (defaultGroupId (c.args rt.rank).pair) l
  pure (n, result)

/-- What is left of the call after it. -/
def p2pFinish (call : ℕ) (current : StreamId) (c : P2pCall) (gathered : List (ℤ × List ℤ))
    (found : ℕ × GroupDescriptor × Bool) : rt.M Unit := do
  let pair := (c.args rt.rank).pair
  let group ← MonadExcept.ofExcept (rt.registerExit (defaultGroupId pair) pair gathered found.2)
  require (0 ≤ group.localIndex) "this rank is not in the p2p group"
  rt.p2pLocked call current (c.args rt.rank) found.1 group

/-- **A p2p call is its two sections**, one after the other. -/
theorem P2pCall.submit_eq_sections (call : ℕ) (current : StreamId) (c : P2pCall)
    (gathered : List (ℤ × List ℤ)) : c.submit rt call current gathered =
      (rt.p2pLookup c >>= fun found => rt.p2pFinish call current c gathered found) := by
  rw [P2pCall.submit_eq]
  unfold p2pProtocol registerGroup p2pLookup p2pFinish
  simp only [bind_assoc, pure_bind, Option.getD_none]
  rfl

/-- The section of `register_group`. -/
def registerSection (ranks : List ℤ) (groupId : Option ℤ) : rt.M (GroupDescriptor × Bool) := do
  let l ← MonadExcept.ofExcept (rt.registerEntry ranks)
  rt.registerLocked (groupId.getD (defaultGroupId ranks)) l

/-! ## Pools -/

variable {rt}

/-- A p2p call between its two sections. -/
structure Pending where
  current : StreamId
  c : P2pCall
  gathered : List (ℤ × List ℤ)
  found : ℕ × GroupDescriptor × Bool

/-- The handle the call has looked up. -/
def Pending.handle (p : Pending) : GroupDescriptor := p.found.2.1

/-- A runtime with the p2p calls that are between their sections, by their number. -/
structure Pool (rt : Runtime) where
  state : RuntimeState rt.rank rt.worldSize
  pending : ℕ → Option Pending

/-- A runtime that has just been constructed. -/
def Pool.initial : Pool rt := ⟨.initial, fun _ => none⟩

/-- What a thread does while it holds the lock. -/
inductive Section where
  /-- the first section of a p2p call -/
  | lookup (call : ℕ) (current : StreamId) (c : P2pCall) (gathered : List (ℤ × List ℤ))
  /-- the second section of a p2p call -/
  | finish (call : ℕ)
  | register (ranks : List ℤ) (groupId : Option ℤ)
  | unregister (group : GroupDescriptor)

/-- One section of some thread; the outcome is that of the p2p call which ends with it. -/
inductive Pool.Step : Pool rt → Section → Option (Except PyError Unit) → Pool rt → Prop
  | found {x : Pool rt} {s : RuntimeState rt.rank rt.worldSize} {call : ℕ} {current : StreamId}
      {c : P2pCall} {gathered : List (ℤ × List ℤ)} {f : ℕ × GroupDescriptor × Bool}
      (idle : x.pending call = none) (run : (rt.p2pLookup c).run x.state = .ok f s) :
      Step x (.lookup call current c gathered) none
        ⟨s, Function.update x.pending call (some ⟨current, c, gathered, f⟩)⟩
  | raised {x : Pool rt} {s : RuntimeState rt.rank rt.worldSize} {call : ℕ} {current : StreamId}
      {c : P2pCall} {gathered : List (ℤ × List ℤ)} {e : PyError} (idle : x.pending call = none)
      (run : (rt.p2pLookup c).run x.state = .error e s) :
      Step x (.lookup call current c gathered) (some (.error e)) ⟨s, x.pending⟩
  | finish {x : Pool rt} {call : ℕ} {p : Pending} (pending : x.pending call = some p) :
      Step x (.finish call)
        (some (outcome ((rt.p2pFinish call p.current p.c p.gathered p.found).run x.state)))
        ⟨endState ((rt.p2pFinish call p.current p.c p.gathered p.found).run x.state),
          Function.update x.pending call none⟩
  | register {x : Pool rt} {ranks : List ℤ} {groupId : Option ℤ} :
      Step x (.register ranks groupId) none
        ⟨endState ((rt.registerSection ranks groupId).run x.state), x.pending⟩
  | unregister {x : Pool rt} {group : GroupDescriptor} :
      Step x (.unregister group) none
        ⟨endState ((rt.unregisterGroup group).run x.state), x.pending⟩

/-- The sections of a run, in the order in which the threads get the lock. -/
inductive Pool.Run : Pool rt → List Section → Pool rt → Prop
  | nil (x : Pool rt) : Run x [] x
  | cons {x y z : Pool rt} {sec : Section} {secs : List Section} {r : Option (Except PyError Unit)}
      (step : Step x sec r y) (run : Run y secs z) : Run x (sec :: secs) z

variable {s s' : RuntimeState rt.rank rt.worldSize}

theorem run_p2pLookup (c : P2pCall) : (rt.p2pLookup c).run s =
    if c.peer ≠ rt.rank then
      match rt.p2pEntry (c.args rt.rank) with
      | .error e => .error e s
      | .ok n =>
        match rt.registerEntry (c.args rt.rank).pair with
        | .error e => .error e s
        | .ok l =>
          match s.registry.register (defaultGroupId (c.args rt.rank).pair) l with
          | .error e => .error e s
          | .ok (result, registry) => .ok (n, result) { s with registry := registry }
    else .error (.valueError c.peerMsg) s := by
  unfold p2pLookup
  rw [EStateM.run_bind, run_require]
  by_cases hpeer : c.peer ≠ rt.rank
  · rw [if_pos hpeer, if_pos (decide_eq_true hpeer)]
    dsimp only
    rw [run_ofExcept_bind]
    cases rt.p2pEntry (c.args rt.rank) with
    | error e => rfl
    | ok n =>
      dsimp only
      rw [run_ofExcept_bind]
      cases rt.registerEntry (c.args rt.rank).pair with
      | error e => rfl
      | ok l =>
        dsimp only
        rw [EStateM.run_bind, run_registerLocked]
        cases s.registry.register (defaultGroupId (c.args rt.rank).pair) l <;> rfl
  · rw [if_neg hpeer, if_neg (by simpa using hpeer)]

theorem run_registerSection (ranks : List ℤ) (groupId : Option ℤ) :
    (rt.registerSection ranks groupId).run s =
      match rt.registerEntry ranks with
      | .error e => .error e s
      | .ok l =>
        match s.registry.register (groupId.getD (defaultGroupId ranks)) l with
        | .error e => .error e s
        | .ok (result, registry) => .ok result { s with registry := registry } := by
  unfold registerSection
  rw [run_ofExcept_bind]
  cases rt.registerEntry ranks with
  | error e => rfl
  | ok l =>
    dsimp only
    rw [run_registerLocked]
    cases s.registry.register (groupId.getD (defaultGroupId ranks)) l <;> rfl

theorem run_p2pFinish (call : ℕ) (p : Pending) :
    (rt.p2pFinish call p.current p.c p.gathered p.found).run s =
      match rt.registerExit (defaultGroupId (p.c.args rt.rank).pair) (p.c.args rt.rank).pair
        p.gathered p.found.2 with
      | .error e => .error e s
      | .ok g =>
        if 0 ≤ g.localIndex then
          (rt.p2pLocked call p.current (p.c.args rt.rank) p.found.1 g).run s
        else .error (.valueError "this rank is not in the p2p group") s := by
  unfold p2pFinish
  dsimp only
  rw [run_ofExcept_bind]
  cases rt.registerExit (defaultGroupId (p.c.args rt.rank).pair) (p.c.args rt.rank).pair
      p.gathered p.found.2 with
  | error e => rfl
  | ok g =>
    dsimp only
    rw [EStateM.run_bind, run_require]
    by_cases hli : 0 ≤ g.localIndex
    · rw [if_pos hli, if_pos (decide_eq_true hli)]
    · rw [if_neg hli, if_neg (by simpa using hli)]

variable {x y z : Pool rt} {sec : Section} {secs : List Section}
  {r : Option (Except PyError Unit)} {g : GroupDescriptor} {call : ℕ} {p : Pending}

/-- What a registration under the lock does to the handles there are. -/
theorem holds_registerSection (ranks : List ℤ) (groupId : Option ℤ)
    (hg : g ∈ s.registry.descs) :
    ((endState ((rt.registerSection ranks groupId).run s)).registry.Holds g ↔
      s.registry.Holds g) ∧
      g ∈ (endState ((rt.registerSection ranks groupId).run s)).registry.descs := by
  rw [run_registerSection]
  cases rt.registerEntry ranks with
  | error e => exact ⟨Iff.rfl, hg⟩
  | ok l =>
    dsimp only
    cases hreg : s.registry.register (groupId.getD (defaultGroupId ranks)) l with
    | error e => exact ⟨Iff.rfl, hg⟩
    | ok result =>
      exact ⟨Registry.holds_register_iff hreg hg, (Registry.register_ok hreg).2.2.2.2.1 g hg⟩

theorem holds_p2pLookup (c : P2pCall) (hg : g ∈ s.registry.descs) :
    ((endState ((rt.p2pLookup c).run s)).registry.Holds g ↔ s.registry.Holds g) ∧
      g ∈ (endState ((rt.p2pLookup c).run s)).registry.descs := by
  rw [run_p2pLookup]
  split
  case isFalse => exact ⟨Iff.rfl, hg⟩
  case isTrue =>
    cases rt.p2pEntry (c.args rt.rank) with
    | error e => exact ⟨Iff.rfl, hg⟩
    | ok n =>
      cases rt.registerEntry (c.args rt.rank).pair with
      | error e => exact ⟨Iff.rfl, hg⟩
      | ok l =>
        dsimp only
        cases hreg : s.registry.register (defaultGroupId (c.args rt.rank).pair) l with
        | error e => exact ⟨Iff.rfl, hg⟩
        | ok result =>
          exact ⟨Registry.holds_register_iff hreg hg, (Registry.register_ok hreg).2.2.2.2.1 g hg⟩

/-- The second section leaves the registry alone. -/
theorem registry_p2pFinish (call : ℕ) (p : Pending) :
    (endState ((rt.p2pFinish call p.current p.c p.gathered p.found).run s)).registry =
      s.registry := by
  rw [run_p2pFinish]
  cases rt.registerExit (defaultGroupId (p.c.args rt.rank).pair) (p.c.args rt.rank).pair
      p.gathered p.found.2 with
  | error e => rfl
  | ok g =>
    dsimp only
    split
    case isTrue hli => exact (advances_p2pLocked (size_pos_of_member hli)).registry_eq
    case isFalse => rfl

/-- **A handle dies when it is released**, and no other section ends its life. -/
theorem Pool.Step.holds_iff (h : Pool.Step x sec r y) (hg : g ∈ x.state.registry.descs) :
    (y.state.registry.Holds g ↔ x.state.registry.Holds g ∧ sec ≠ .unregister g) ∧
      g ∈ y.state.registry.descs := by
  cases h with
  | @found s call current c gathered f idle run =>
    have h := holds_p2pLookup c hg
    rw [run] at h
    exact ⟨by simpa [endState] using h.1, h.2⟩
  | @raised s call current c gathered e idle run =>
    have h := holds_p2pLookup c hg
    rw [run] at h
    exact ⟨by simpa [endState] using h.1, h.2⟩
  | @finish call p pending =>
    dsimp only
    rw [registry_p2pFinish]
    exact ⟨by simp, hg⟩
  | @register ranks groupId =>
    have h := holds_registerSection ranks groupId hg
    exact ⟨by simpa using h.1, h.2⟩
  | @unregister group =>
    constructor
    · rw [Ne, Section.unregister.injEq, eq_comm]
      exact Registry.holds_unregister_iff
    · show g ∈ (x.state.registry.unregister group).descs
      rwa [Registry.unregister_descs]

/-- A call stays between its sections until it gets the lock again. -/
theorem Pool.Step.pending_eq (h : Pool.Step x sec r y) (hp : x.pending call = some p)
    (hsec : sec ≠ .finish call) : y.pending call = some p := by
  cases h with
  | @found s call' current c gathered f idle run =>
    refine (Function.update_of_ne ?_ _ _).trans hp
    rintro rfl
    cases idle.symm.trans hp
  | raised idle run => exact hp
  | @finish call' p' pending =>
    refine (Function.update_of_ne ?_ _ _).trans hp
    rintro rfl
    exact hsec rfl
  | register => exact hp
  | unregister => exact hp

/-- **What lies between the two sections of a call**: its handle is still live if and only
if no thread has released it, and the call goes on with what it has looked up. -/
theorem Pool.Run.between (h : Pool.Run x secs y) (hg : g ∈ x.state.registry.descs)
    (hlive : x.state.registry.Holds g) (hp : x.pending call = some p)
    (hcall : .finish call ∉ secs) :
    (y.state.registry.Holds g ↔ .unregister g ∉ secs) ∧ g ∈ y.state.registry.descs ∧
      y.pending call = some p := by
  have hrun : (y.state.registry.Holds g ↔ x.state.registry.Holds g ∧ .unregister g ∉ secs) ∧
      g ∈ y.state.registry.descs ∧ y.pending call = some p := by
    clear hlive
    induction h with
    | nil x => exact ⟨by simp, hg, hp⟩
    | @cons x y z sec secs r step run ih =>
      obtain ⟨hstep, hmem⟩ := step.holds_iff hg
      obtain ⟨hsec, hsecs⟩ := not_or.mp (mt List.mem_cons.mpr hcall)
      obtain ⟨hiff, hdescs, hpending⟩ := ih hmem (step.pending_eq hp (Ne.symm hsec)) hsecs
      refine ⟨?_, hdescs, hpending⟩
      rw [hiff, hstep, and_assoc, List.mem_cons, not_or, ne_comm]
  exact ⟨by simpa [hlive] using hrun.1, hrun.2⟩

/-! ## The outcome of a call -/

section Race

end Race

end Runtime

end GroupFreeCollectives
