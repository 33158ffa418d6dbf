import GroupFreeCollectives.Runtime.Agreement
import GroupFreeCollectives.Runtime.Lifecycle
import GroupFreeCollectives.World.Jobs

/-!
# From sessions to jobs

A session in which every call returns does a list of jobs (`Session.jobs`): a collective or
p2p call is the job that its checks have decided on, and a registration is none.  What the
session enqueues is what its jobs enqueue (`run_jobs`), so the sessions of all ranks are the
`Jobs` of a world (`Sessions.toJobs`) and have the same program (`Sessions.program_eq`).

Groups are registered and not released here: a session that releases a group may register
its id again with other ranks.
-/

namespace GroupFreeCollectives

namespace Runtime

variable {rt : Runtime} {x : Session rt}

/-! ## The job of a call -/

/-- The job that a call does, if it returns. -/
def Session.job (x : Session rt) : Call → Option Job
  | .collective call _ group .barrier =>
    (x.state.registry.ranksDev group.handle).map (.barrier call group.groupId ·)
  | .collective call current group (.data c) =>
    match c.entry rt group, x.state.registry.ranksDev group.handle with
    | .ok n, some row =>
      match rt.plan (rt.policyFor c.kind group n) (rt.effectivePipelineChunks n c.pipelineChunks) n
          c.output.dataPtr with
      | .ok path => some (.collective current
          ⟨call, c.kind, c.input, c.output, group, row, n⟩ path)
      | .error _ => none
    | _, _ => none
  | .p2p call current c _ =>
    let a := c.args rt.rank
    match rt.p2pEntry a with
    | .ok n =>
      match rt.launchP2p call a n with
      | .ok ks => some (.p2p call current a n (defaultGroupId [a.srcRank, a.dstRank]) ks)
      | .error _ => none
    | .error _ => none
  | _ => none

/-- The jobs of the calls that are made from a session on. -/
def Session.jobs (x : Session rt) : List Call → List Job
  | [] => []
  | c :: cs => (x.job c).toList ++ (x.run c).2.jobs cs

/-- Every handle that a call is given was returned to the callers of the rank before. -/
def Session.Given (x : Session rt) (handles : List GroupDescriptor) : List Call → Prop
  | [] => True
  | c :: cs => (∀ g, c.handle = some g → g ∈ handles) ∧
      (x.run c).2.Given (handles ++ returned (x.run c).1) cs

/-- The group of the job is registered. -/
def Session.Has (x : Session rt) (j : Job) : Prop :=
  ∃ g, x.state.registry.registered j.request.groupId = some g ∧ g.ranks = j.request.ranks

/-- The call has done the job. -/
structure Session.Does (x : Session rt) (c : Call) (j : Job) : Prop where
  valid : j.Valid rt
  items : (x.run c).2.state.items = x.state.items ++
    j.items rt (x.state.epochs.peek j.request.groupId)
  epochs : (x.run c).2.state.epochs = x.state.epochs.advance j.request.groupId
    (j.request.work.shape rt.config.alignment).numEpochs
  has : (x.run c).2.Has j

variable {call : ℕ} {current : StreamId} {group : GroupDescriptor} {r : Option GroupDescriptor}

/-- The rank list of a live handle is that of a group of the world. -/
theorem member_of_ranksDev {s : RuntimeState rt.rank rt.worldSize} {row : List ℕ}
    (hg : group ∈ s.registry.descs) (hrow : s.registry.ranksDev group.handle = some row) :
    Member rt row ∧ row = group.ranks ∧ group.localIndex.toNat = row.idxOf rt.rank ∧
      s.registry.registered group.groupId = some group := by
  obtain ⟨hholds, hli, rfl⟩ := (s.registry.ranksDev_eq_some_iff hg).mp hrow
  have hdesc := s.registry.describes group hg
  have hmem := hdesc.localIndex_nonneg_iff.mp hli
  exact ⟨⟨hdesc.nodup, hdesc.lt, hmem⟩, rfl, hdesc.localIndex_toNat hmem, hholds⟩

theorem does_barrier (hg : group ∈ x.state.registry.descs)
    (h : (x.run (.collective call current group .barrier)).1 = .ok r) :
    ∃ j, x.job (.collective call current group .barrier) = some j ∧
      x.Does (.collective call current group .barrier) j := by
  obtain ⟨row, hrow, hstate⟩ := exists_of_returns_barrier h
  obtain ⟨hmem, hranks, -, hreg⟩ := member_of_ranksDev hg hrow
  refine ⟨.barrier call group.groupId row, by rw [Session.job, hrow]; rfl, .barrier hmem,
    by rw [hstate]; rfl, by rw [hstate]; rfl, group, ?_, hranks.symm⟩
  rw [hstate]
  exact hreg

theorem does_data {c : DataCall} (hg : group ∈ x.state.registry.descs)
    (h : (x.run (.collective call current group (.data c))).1 = .ok r) :
    ∃ j, x.job (.collective call current group (.data c)) = some j ∧
      x.Does (.collective call current group (.data c)) j := by
  obtain ⟨n, row, path, hentry, hrow, hplan, hlaunch, hstate⟩ := exists_of_returns_data h
  have hchecked := entryChecked_of_entry hentry
  obtain ⟨hmem, hranks, hindex, hreg⟩ := member_of_ranksDev hg hrow
  refine ⟨.collective current ⟨call, c.kind, c.input, c.output, group, row, n⟩ path, ?_,
    .collective hmem hranks hindex hchecked (ready_of_plan hchecked.slice_le hplan) hlaunch,
    by rw [hstate]; rfl, ?_, group, ?_, hranks.symm⟩
  · simp only [Session.job, hentry, hrow, hplan]
  · rw [hstate]
    show x.state.epochs.advance group.groupId (rt.numEpochs n path) = _
    cases path <;> rfl
  · rw [hstate]
    exact hreg

theorem does_p2p {c : P2pCall} {gathered : List (ℤ × List ℤ)}
    (h : (x.run (.p2p call current c gathered)).1 = .ok r) :
    ∃ j, x.job (.p2p call current c gathered) = some j ∧
      x.Does (.p2p call current c gathered) j := by
  obtain ⟨n, g, s, row, ks, hentry, hreg, hrow, hks, hstate⟩ := exists_of_returns_p2p h
  obtain ⟨-, hg, hgid, hgranks⟩ := registerGroup_ok hreg
  obtain ⟨hmem, hranks, -, hregistered⟩ := member_of_ranksDev hg hrow
  -- the registration keeps the counters and the streams
  obtain ⟨hepochs, hitems⟩ := registerGroup_ok_frame hreg
  replace hgid : g.groupId = defaultGroupId [(c.args rt.rank).srcRank, (c.args rt.rank).dstRank] :=
    hgid
  have hpair : row = [(c.args rt.rank).srcRank.toNat, (c.args rt.rank).dstRank.toNat] :=
    hranks.trans hgranks
  have hsender : (c.args rt.rank).role = .sender → rt.rank = (c.args rt.rank).srcRank.toNat := by
    cases c <;> simp [P2pCall.args]
  have hreceiver : (c.args rt.rank).role = .receiver →
      rt.rank = (c.args rt.rank).dstRank.toNat := by
    cases c <;> simp [P2pCall.args]
  refine ⟨.p2p call current (c.args rt.rank) n
    (defaultGroupId [(c.args rt.rank).srcRank, (c.args rt.rank).dstRank]) ks, ?_, ?_, ?_, ?_, g,
    ?_, ?_⟩
  · simp only [Session.job, hentry, hks]
  · rw [hpair] at hmem
    exact .p2p hmem hsender hreceiver (.runtime hks)
  · rw [hstate, hgid, hepochs, hpair, ← hitems]
    rfl
  · rw [hstate, hgid, ← hepochs]
    rfl
  · rw [hstate]
    show s.registry.registered (defaultGroupId _) = some g
    rw [← hgid]
    exact hregistered
  · exact hgranks

/-! ## Registrations last -/

/-- **What is registered stays registered** until it is released. -/
theorem registered_run {c : Call} (hc : c.Keeps) {gid : ℤ} {g : GroupDescriptor}
    (hg : x.state.registry.registered gid = some g) :
    (x.run c).2.state.registry.registered gid = some g := by
  obtain ⟨hmem, rfl⟩ := x.state.registry.mem_of_registered gid g hg
  exact (holds_run_iff hc hmem).mpr hg

/-! ## The jobs of a session -/

theorem Session.Has.run {c : Call} {j : Job} (h : x.Has j) (hc : c.Keeps) : (x.run c).2.Has j :=
  let ⟨g, hg, hranks⟩ := h
  ⟨g, registered_run hc hg, hranks⟩

theorem Session.Has.runs {cs : List Call} {j : Job} (h : x.Has j) (hcs : ∀ c ∈ cs, c.Keeps) :
    (x.runs cs).Has j := by
  induction cs generalizing x with
  | nil => exact h
  | cons c cs ih =>
    exact ih (h.run (hcs c List.mem_cons_self)) fun d hd => hcs d (List.mem_cons_of_mem c hd)

/-- **A call that returns** does its job, or it is a registration and enqueues nothing. -/
theorem does_of_returns {c : Call} (hkeeps : c.Keeps)
    (hgiven : ∀ g, c.handle = some g → g ∈ x.state.registry.descs) (h : (x.run c).1 = .ok r) :
    (∃ j, x.job c = some j ∧ x.Does c j) ∨
      x.job c = none ∧ (x.run c).2.state.items = x.state.items ∧
        (x.run c).2.state.epochs = x.state.epochs := by
  cases c with
  | register ranks groupId gathered =>
    rw [run_register_eq]
    exact Or.inr ⟨rfl, registerGroup_frame.2, registerGroup_frame.1⟩
  | unregister group => exact hkeeps.elim
  | shutdown => exact hkeeps.elim
  | collective call current group c =>
    cases c with
    | barrier => exact Or.inl (does_barrier (hgiven group rfl) h)
    | data c => exact Or.inl (does_data (hgiven group rfl) h)
  | p2p call current c gathered => exact Or.inl (does_p2p h)

/-- **What a session enqueues is what its jobs enqueue**, and all of them are valid. -/
theorem run_jobs {cs : List Call} {handles : List GroupDescriptor}
    (hkeeps : ∀ c ∈ cs, c.Keeps) (hgiven : x.Given handles cs)
    (hhandles : ∀ g ∈ handles, g ∈ x.state.registry.descs) (hret : x.Returns (fun _ => true) cs) :
    (x.runs cs).state.items = x.state.items ++
        (contributions rt x.state.epochs (x.jobs cs)).flatMap Contribution.items ∧
      ∀ j ∈ x.jobs cs, j.Valid rt ∧ (x.runs cs).Has j := by
  induction cs generalizing x handles with
  | nil => exact ⟨by simp [Session.runs, Session.jobs], by simp [Session.jobs]⟩
  | cons c cs ih =>
    have hkeeps' : ∀ d ∈ cs, d.Keeps := fun d hd => hkeeps d (List.mem_cons_of_mem c hd)
    have hdescs : ∀ g ∈ handles ++ returned (x.run c).1,
        g ∈ (x.run c).2.state.registry.descs := by
      intro g hg
      rcases List.mem_append.mp hg with hg | hg
      · exact (x.extends_run c).descs g (hhandles g hg)
      · exact returned_mem hg
    obtain ⟨r, hr⟩ := hret.1 rfl
    obtain ⟨hitems, hjobs⟩ := ih hkeeps' hgiven.2 hdescs hret.2
    rcases does_of_returns (hkeeps c List.mem_cons_self)
      (fun g hg => hhandles g (hgiven.1 g hg)) hr with ⟨j, hj, hdoes⟩ | ⟨hj, hsame, hepochs⟩
    · have hcons : x.jobs (c :: cs) = j :: (x.run c).2.jobs cs := by
        rw [Session.jobs, hj]
        rfl
      rw [hcons]
      constructor
      · show ((x.run c).2.runs cs).state.items = _
        rw [hitems, hdoes.items, hdoes.epochs, contributions, List.flatMap_cons, List.append_assoc]
      · intro j' hj'
        rcases List.mem_cons.mp hj' with rfl | hj'
        · exact ⟨hdoes.valid, hdoes.has.runs hkeeps'⟩
        · exact hjobs j' hj'
    · have hcons : x.jobs (c :: cs) = (x.run c).2.jobs cs := by
        rw [Session.jobs, hj]
        rfl
      rw [hcons]
      refine ⟨?_, hjobs⟩
      show ((x.run c).2.runs cs).state.items = _
      rw [hitems, hsame, hepochs]

variable (rt) in
/-- The jobs of a runtime's calls, from construction on. -/
def jobsOf (cs : List Call) : List Job := (Session.initial : Session rt).jobs cs

variable (rt) in
/-- What the calls enqueue. -/
def enqueuedBy (cs : List Call) : List Item := ((Session.initial : Session rt).runs cs).state.items

end Runtime

/-! ## The sessions of a world -/

/-- The sessions of the ranks of a world, in which every call returns. -/
structure Sessions (cfg : Config) (nonce : ℤ) (W : ℕ) where
  rt : ℕ → Runtime
  isRank : ∀ p < W, (rt p).IsRank cfg nonce W p
  calls : ℕ → List Runtime.Call
  calls_eq_nil : ∀ p, W ≤ p → calls p = []
  keeps : ∀ p, ∀ c ∈ calls p, c.Keeps
  given : ∀ p, (Runtime.Session.initial : Runtime.Session (rt p)).Given [] (calls p)
  returns : ∀ p,
    (Runtime.Session.initial : Runtime.Session (rt p)).Returns (fun _ => true) (calls p)
  /-- every call has tensors of its own -/
  calls_nodup : ∀ p, (((rt p).jobsOf (calls p)).map Job.call).Nodup
  /-- any two ranks agree on the calls that involve both, on their sizes and paths -/
  agree : ∀ p q, (((rt p).jobsOf (calls p)).map Job.request).filter (q ∈ ·.ranks) =
    (((rt q).jobsOf (calls q)).map Job.request).filter (p ∈ ·.ranks)

namespace Sessions

variable {cfg : Config} {nonce : ℤ} {W : ℕ} (S : Sessions cfg nonce W)

/-- What the ranks have enqueued in the end. -/
def program : Program := fun p => (S.rt p).enqueuedBy (S.calls p)

theorem run_jobs (p : ℕ) :
    S.program p = (contributions (S.rt p) .empty ((S.rt p).jobsOf (S.calls p))).flatMap
        Contribution.items ∧
      ∀ j ∈ (S.rt p).jobsOf (S.calls p), j.Valid (S.rt p) ∧
        ((Runtime.Session.initial : Runtime.Session (S.rt p)).runs (S.calls p)).Has j :=
  Runtime.run_jobs (S.keeps p) (S.given p) (by simp) (S.returns p)

/-- The jobs of all ranks. -/
def toJobs : Jobs cfg nonce W where
  rt := S.rt
  isRank := S.isRank
  jobs p := (S.rt p).jobsOf (S.calls p)
  jobs_eq_nil p hp := by
    rw [S.calls_eq_nil p hp]
    rfl
  valid p j hj := ((S.run_jobs p).2 j hj).1
  calls_nodup := S.calls_nodup
  ids p j hj j' hj' hid := by
    obtain ⟨-, g, hg, hranks⟩ := (S.run_jobs p).2 j hj
    obtain ⟨-, g', hg', hranks'⟩ := (S.run_jobs p).2 j' hj'
    rw [hid, hg'] at hg
    rw [← hranks, ← hranks', Option.some_inj.mp hg]
  agree := S.agree

/-- **What the sessions enqueue is what their jobs enqueue.** -/
theorem program_eq : S.program = S.toJobs.program := by
  funext p
  exact (S.run_jobs p).1

end Sessions

/-! ## Sessions that can be checked -/

namespace Runtime

instance {ε β : Type} (e : Except ε β) : Decidable (∃ b, e = .ok b) :=
  match e with
  | .ok b => isTrue ⟨b, rfl⟩
  | .error _ => isFalse fun ⟨_, h⟩ => nomatch h

instance Session.decidableReturns (p : Call → Bool) : (x : Session rt) → (cs : List Call) →
    Decidable (x.Returns p cs)
  | _, [] => isTrue trivial
  | x, c :: cs =>
    haveI := Session.decidableReturns p (x.run c).2 cs
    inferInstanceAs (Decidable ((p c → _) ∧ _))

instance Session.decidableGiven : (x : Session rt) → (handles : List GroupDescriptor) →
    (cs : List Call) → Decidable (x.Given handles cs)
  | _, _, [] => isTrue trivial
  | x, handles, c :: cs =>
    haveI := Session.decidableGiven (x.run c).2 (handles ++ returned (x.run c).1) cs
    haveI : Decidable (∀ g, c.handle = some g → g ∈ handles) :=
      match c.handle with
      | none => isTrue (by simp)
      | some g => decidable_of_iff (g ∈ handles) (by simp)
    inferInstanceAs (Decidable (_ ∧ _))

instance : DecidablePred Call.Keeps
  | .unregister _ | .shutdown => isFalse id
  | .register .. | .collective .. | .p2p .. => isTrue trivial

end Runtime

/-! ## Two ranks -/

section Pair

/-- Rank `p` of a world of two. -/
def pairRank (p : ℕ) : Runtime := Runtime.pairRuntime .default none (Fin.ofNat 2 p)

/-- The calls of two ranks. -/
def callsOf (a b : List Runtime.Call) : ℕ → List Runtime.Call
  | 0 => a
  | 1 => b
  | _ + 2 => []

/-- What the ranks request. -/
def pairRequests (a b : List Runtime.Call) (p : ℕ) : List Request :=
  ((pairRank p).jobsOf (callsOf a b p)).map Job.request

/-- What makes the calls of two ranks sessions of a world. -/
structure PairChecked (a b : List Runtime.Call) : Prop where
  keeps : ∀ p < 2, ∀ c ∈ callsOf a b p, c.Keeps
  given : ∀ p < 2, (Runtime.Session.initial : Runtime.Session (pairRank p)).Given []
    (callsOf a b p)
  returns : ∀ p < 2, (Runtime.Session.initial : Runtime.Session (pairRank p)).Returns
    (fun _ => true) (callsOf a b p)
  calls_nodup : ∀ p < 2, (((pairRank p).jobsOf (callsOf a b p)).map Job.call).Nodup
  ranks_eq : ∀ r ∈ pairRequests a b 0, r.ranks = [0, 1]
  same : pairRequests a b 0 = pairRequests a b 1

variable {a b : List Runtime.Call}

/-- What holds of the calls of both ranks, and of no calls. -/
theorem forall_callsOf {P : ℕ → List Runtime.Call → Prop} (h : ∀ p < 2, P p (callsOf a b p))
    (hnil : ∀ p, P p []) (p : ℕ) : P p (callsOf a b p) := by
  rcases p with _ | _ | p
  · exact h 0 Nat.two_pos
  · exact h 1 Nat.one_lt_two
  · exact hnil (p + 2)

/-- Every request involves both ranks. -/
theorem PairChecked.requests_eq (h : PairChecked a b) (p : ℕ) :
    pairRequests a b p = (pairRequests a b 0).filter (p ∈ ·.ranks) := by
  rcases p with _ | _ | p
  · refine (List.filter_eq_self.mpr fun r hr => ?_).symm
    simp [h.ranks_eq r hr]
  · rw [← h.same]
    refine (List.filter_eq_self.mpr fun r hr => ?_).symm
    simp [h.ranks_eq r hr]
  · refine (List.filter_eq_nil_iff.mpr fun r hr => ?_).symm
    simp [h.ranks_eq r hr]

theorem pairRank_isRank (p : ℕ) (hp : p < 2) : (pairRank p).IsRank Config.default 1 2 p :=
  ⟨Nat.mod_eq_of_lt hp, rfl, rfl, rfl⟩

theorem callsOf_eq_nil (p : ℕ) (hp : 2 ≤ p) : callsOf a b p = [] := by
  obtain ⟨k, rfl⟩ := Nat.exists_eq_add_of_le' hp
  rfl

theorem PairChecked.agree (h : PairChecked a b) (p q : ℕ) :
    (pairRequests a b p).filter (q ∈ ·.ranks) = (pairRequests a b q).filter (p ∈ ·.ranks) := by
  rw [h.requests_eq p, h.requests_eq q, List.filter_filter, List.filter_filter]
  simp only [Bool.and_comm]

/-- The sessions of two ranks. -/
def PairChecked.sessions (h : PairChecked a b) : Sessions Config.default 1 2 where
  rt := pairRank
  isRank := pairRank_isRank
  calls := callsOf a b
  calls_eq_nil := callsOf_eq_nil
  keeps := forall_callsOf (P := fun _ cs => ∀ c ∈ cs, c.Keeps) h.keeps fun _ =>
    List.forall_mem_nil _
  given := forall_callsOf
    (P := fun p cs => (Runtime.Session.initial : Runtime.Session (pairRank p)).Given [] cs)
    h.given fun _ => trivial
  returns := forall_callsOf (P := fun p cs =>
    (Runtime.Session.initial : Runtime.Session (pairRank p)).Returns (fun _ => true) cs)
    h.returns fun _ => trivial
  calls_nodup := forall_callsOf
    (P := fun p cs => (((pairRank p).jobsOf cs).map Job.call).Nodup) h.calls_nodup
    fun _ => List.nodup_nil
  agree := h.agree

/-- Both ranks register the world, issue a barrier and gather four bytes; rank 0 puts sixteen
to rank 1. -/
def putCalls : List Runtime.Call := Runtime.pairSession 0 ++
  [.p2p 2 (.user 0) (.put 1 (Runtime.pairTensor 8192 16) none) []]

def recvCalls : List Runtime.Call := Runtime.pairSession 1 ++
  [.p2p 2 (.user 0) (.putRecv 0 (Runtime.pairTensor 8192 16) none) []]

theorem pairChecked : PairChecked putCalls recvCalls := by
  constructor <;> decide +kernel

def pairSessions : Sessions Config.default 1 2 := pairChecked.sessions

theorem pairSessions_tokensDistinct : pairSessions.toJobs.TokensDistinct := by
  have hall : ∀ p < 2, ((pairSessions.toJobs.parts p).flatMap fun x =>
      x.op.tokens 1 Config.default.alignment).Nodup := by decide +kernel
  intro p
  by_cases hp : p < 2
  · exact hall p hp
  · rw [Jobs.parts, pairSessions.toJobs.jobs_eq_nil p (Nat.le_of_not_lt hp)]
    exact List.nodup_nil

end Pair

end GroupFreeCollectives
