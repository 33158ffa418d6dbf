import GroupFreeCollectives.Runtime.Entry

/-!
# Calls that raise

A call that raises should leave no trace: an issued epoch, or a pre-barrier without its
post-barrier, puts the rank out of step with its peers for the rest of the session.
`Atomic` says so of one run of a call, and `AllOrNothing` adds that a call that raises
enqueues no copy and that one that returns ends in its post-barrier.

The entry checks, the missing rank list and the checks of the decision all come before
the first epoch.  The launchers check more, after the pre-barrier, and two of their
checks are made nowhere else: that there is something to copy, which the entry of
`all_gather` does not ask, and that the number of SMs is positive, which the guard does
not ask of the knob `copy_sms`.  `LateFailure` is the exact condition.
-/

namespace GroupFreeCollectives

namespace Runtime

variable (rt : Runtime)

/-! ## What a call should leave behind -/

/-- Every epoch issued is that of an enqueued barrier, or the step base of an enqueued
fused kernel. -/
def Accounted (call : ℕ) (s s' : RuntimeState rt.rank rt.worldSize) (new : List Item) : Prop :=
  ∀ gid e, s.epochs.peek gid ≤ e → e < s'.epochs.peek gid →
    (∃ row, (⟨call, .main, .barrier row (rt.token gid e)⟩ : Item) ∈ new) ∨
      ∃ (fa : FusedLaunchArgs) (kind : Collective) (ops : List (Op DataAct)),
        fa.stepBase = rt.token gid e ∧ fa.launch kind = .ok ops ∧
          (⟨call, .main, .kernel ops⟩ : Item) ∈ new

/-- A call that raises issues no epoch and enqueues no barrier; one that returns accounts
for the epochs it issued. -/
def Atomic (call : ℕ) (s : RuntimeState rt.rank rt.worldSize) :
    EStateM.Result PyError (RuntimeState rt.rank rt.worldSize) Unit → Prop
  | .error _ s' => s'.epochs = s.epochs ∧ ∃ new, s'.items = s.items ++ new ∧
      ∀ it ∈ new, ∀ row tok, it.cmd ≠ .barrier row tok
  | .ok _ s' => ∃ new, s'.items = s.items ++ new ∧ rt.Accounted call s s' new

/-- A call that raises issues no epoch and enqueues neither a barrier nor a copy nor a
kernel; one that returns accounts for the epochs it issued, and the last thing it
enqueues is the barrier of the last of them. -/
def AllOrNothing (call : ℕ) (s : RuntimeState rt.rank rt.worldSize) :
    EStateM.Result PyError (RuntimeState rt.rank rt.worldSize) Unit → Prop
  | .error _ s' => s'.epochs = s.epochs ∧ ∃ new, s'.items = s.items ++ new ∧
      ∀ it ∈ new, ∃ stream, it.cmd = .waitStream stream
  | .ok _ s' => ∃ new, s'.items = s.items ++ new ∧ rt.Accounted call s s' new ∧
      ∃ gid postE row, s.epochs.peek gid < postE ∧ s'.epochs.peek gid = postE + 1 ∧
        new.getLast? = some ⟨call, .main, .barrier row (rt.token gid postE)⟩

variable {rt} {call : ℕ} {s : RuntimeState rt.rank rt.worldSize}

theorem atomic_of_allOrNothing
    {res : EStateM.Result PyError (RuntimeState rt.rank rt.worldSize) Unit}
    (h : rt.AllOrNothing call s res) : rt.Atomic call s res := by
  cases res with
  | error err s' =>
    obtain ⟨hepochs, new, hnew, hwait⟩ := h
    refine ⟨hepochs, new, hnew, fun it hit row tok hcmd => ?_⟩
    obtain ⟨stream, hstream⟩ := hwait it hit
    rw [hstream] at hcmd
    cases hcmd
  | ok _ s' =>
    obtain ⟨new, hnew, hacc, -⟩ := h
    exact ⟨new, hnew, hacc⟩

/-! ## Calls that return -/

variable {a : CollectiveArgs}

/-- Every epoch of a data path but the step base has its barrier. -/
theorem barrierItem_mem_pathItems {path : DataPath} {e k : ℕ}
    (hk : k < rt.numEpochs a.sliceBytes path)
    (hfused : ∀ numChannels chunkBytes, path = .fused numChannels chunkBytes → k ≠ 1) :
    rt.barrierItem a (e + k) ∈ rt.pathItems a e path := by
  cases path with
  | oneShot eng =>
    have hk2 : k < 2 := hk
    unfold pathItems oneShotPrefix
    interval_cases k <;> simp
  | fused numChannels chunkBytes =>
    have hk3 : k < 3 := hk
    have hne := hfused _ _ rfl
    unfold pathItems
    interval_cases k <;> simp at hne ⊢
  | pipelined chunks =>
    replace hk : k < (layoutChunks a.sliceBytes chunks rt.config.alignment).length + 1 := hk
    show _ ∈ rt.pipelinedItems a (layoutChunks a.sliceBytes chunks rt.config.alignment) e
    generalize layoutChunks a.sliceBytes chunks rt.config.alignment = layout at hk ⊢
    unfold pipelinedItems
    rcases Nat.eq_or_lt_of_le (Nat.le_of_lt_succ hk) with rfl | hlt
    · exact List.mem_append_right _ (List.mem_singleton_self _)
    · refine List.mem_append_left _ (List.mem_append_right _ (List.mem_flatMap.mpr
        ⟨(layout[k], k), List.mk_mem_zipIdx_iff_getElem?.mpr (List.getElem?_eq_getElem hlt), ?_⟩))
      unfold chunkItems
      simp

/-- The last item of a data path is the barrier of its last epoch, which is not its
first. -/
theorem getLast_pathItems {path : DataPath} (e : ℕ)
    (hready : rt.Ready a.sliceBytes a.output.dataPtr path) :
    ∃ k, 0 < k ∧ rt.numEpochs a.sliceBytes path = k + 1 ∧
      (rt.pathItems a e path).getLast? = some (rt.barrierItem a (e + k)) := by
  cases path with
  | oneShot eng => exact ⟨1, one_pos, rfl, List.getLast?_concat⟩
  | fused numChannels chunkBytes => exact ⟨2, two_pos, rfl, rfl⟩
  | pipelined chunks =>
    obtain ⟨hc, -, hslice⟩ := hready
    obtain ⟨hcont, -⟩ := layoutChunks_contiguous rt.config.alignment_pow hc.le hslice
    obtain ⟨k, r, hr, -⟩ := hcont.exists_run (le_refl 0) hslice
    exact ⟨_, lt_of_le_of_lt (Nat.zero_le k) (List.getElem?_eq_some_iff.mp hr).1, rfl,
      List.getLast?_concat⟩

/-- **A path that is carried out accounts for its epochs**, whatever was enqueued before
it. -/
theorem allOrNothing_pathItems {path : DataPath} {pre : List Item} (hrow : 0 < a.row.length)
    (hready : rt.Ready a.sliceBytes a.output.dataPtr path) (h : Launches a.sliceBytes path) :
    rt.AllOrNothing a.call s (.ok ()
      (((s.push pre).advance a.group.groupId (rt.numEpochs a.sliceBytes path)).push
        (rt.pathItems a (s.epochs.peek a.group.groupId) path))) := by
  refine ⟨pre ++ rt.pathItems a (s.epochs.peek a.group.groupId) path, by simp, ?_, ?_⟩
  · intro gid e hle hlt
    by_cases hgid : gid = a.group.groupId
    · subst hgid
      obtain ⟨k, rfl⟩ := Nat.exists_eq_add_of_le hle
      have hk : k < rt.numEpochs a.sliceBytes path := by
        simpa using hlt
      by_cases hfused : k = 1 ∧ ∃ numChannels chunkBytes, path = .fused numChannels chunkBytes
      · obtain ⟨rfl, numChannels, chunkBytes, rfl⟩ := hfused
        refine Or.inr ⟨_, a.kind, _, rfl, launch_fused_eq hrow hready h _,
          List.mem_append_right _ ?_⟩
        unfold pathItems
        exact List.mem_cons_of_mem _ List.mem_cons_self
      · refine Or.inl ⟨a.row, List.mem_append_right _ (barrierItem_mem_pathItems hk ?_)⟩
        intro numChannels chunkBytes hpath hk1
        exact hfused ⟨hk1, numChannels, chunkBytes, hpath⟩
    · -- the epochs of other groups are left alone
      rw [RuntimeState.push_epochs, RuntimeState.advance_epochs, RuntimeState.push_epochs,
        EpochManager.peek_advance_of_ne _ hgid] at hlt
      exact absurd hlt (not_lt.mpr hle)
  · obtain ⟨k, hk, hnum, hlast⟩ := getLast_pathItems (s.epochs.peek a.group.groupId) hready
    refine ⟨a.group.groupId, s.epochs.peek a.group.groupId + k, a.row, by omega, ?_, ?_⟩
    · simp [hnum, Nat.add_assoc]
    · rw [List.getLast?_append, hlast]
      rfl

/-! ## The launchers' last checks -/

variable (rt) in
/-- The launcher of the decided path fails after the pre-barrier. -/
def LateFailure (policy : Option Policy) (sliceBytes dstPtr : ℕ) : Prop :=
  match policy with
  | none =>
    sliceBytes = 0 ∧
      if rt.config.enableFusedPath then 2 * rt.config.fusedNumChannels ≤ rt.numSms
      else rt.tmaEnabled = false ∧ rt.copyEngineEnabled = false
  | some policy =>
    rt.autotunePathGuard policy sliceBytes 0 dstPtr = .ok () ∧
      match rt.resolvedPath policy sliceBytes with
      | .fused => sliceBytes = 0
      | .vecPull => sliceBytes = 0 ∨ policy.knobs.copySms.getD rt.copySms ≤ 0
      | _ => False

theorem effectivePipelineChunks_zero (override : Option ℤ) :
    rt.effectivePipelineChunks 0 override = 1 := by
  refine le_antisymm (not_lt.mp fun h => ?_) (rt.one_le_effectivePipelineChunks 0 override)
  exact absurd (rt.of_one_lt_effectivePipelineChunks h).2.2.1 (lt_irrefl 0)

/-- With something to copy, the default paths launch. -/
theorem launches_of_plan_none {chunks sliceBytes dstPtr : ℕ} {path : DataPath}
    (h : rt.plan none chunks sliceBytes dstPtr = .ok path) (hslice : 0 < sliceBytes) :
    Launches sliceBytes path := by
  obtain ⟨-, -, rfl⟩ | ⟨-, -, e, rfl, -, hsms⟩ | ⟨-, -, rfl⟩ := plan_none_cases h
  · exact hslice
  · cases e with
    | copyEngine => trivial
    | tma => trivial
    | vec copySms => exact ⟨hslice, hsms copySms rfl ▸ Int.natCast_pos.mpr rt.copySms_pos⟩
  · trivial

/-- The decision on a default path for an empty payload. -/
theorem plan_none_zero {dstPtr : ℕ} : (∃ path, rt.plan none 1 0 dstPtr = .ok path ∧
    ¬ Launches 0 path) ↔ rt.LateFailure none 0 dstPtr := by
  unfold plan LateFailure
  dsimp only
  cases hfused : rt.config.enableFusedPath with
  | true =>
    simp only [if_true, true_and, bind_ok_iff]
    constructor
    · rintro ⟨_, ⟨⟨⟩, hcheck, -⟩, -⟩
      exact_mod_cast (checkFusedLaunchCapacity_eq_ok_iff.mp hcheck).2
    · intro hcap
      have hcheck := checkFusedLaunchCapacity_eq_ok_iff.mpr
        ⟨Int.natCast_pos.mpr rt.config.fusedNumChannels_pos, by exact_mod_cast hcap⟩
      exact ⟨_, ⟨(), hcheck, rfl⟩, lt_irrefl 0⟩
  | false =>
    cases htma : rt.tmaEnabled with
    | true =>
      -- the TMA gates reject an empty payload
      simp only [Bool.false_eq_true, if_false, le_refl, if_true]
      refine iff_of_false ?_ (by simp)
      rintro ⟨path, hplan, -⟩
      obtain ⟨_, hpre, -⟩ := bind_ok_iff.mp hplan
      cases hpre
    | false =>
      cases hce : rt.copyEngineEnabled with
      | true =>
        refine iff_of_false ?_ (by simp)
        rintro ⟨path, hplan, hlaunch⟩
        rw [← Except.ok.inj hplan] at hlaunch
        exact hlaunch trivial
      | false =>
        refine iff_of_true ⟨_, rfl, fun hl => absurd hl.1 (lt_irrefl 0)⟩ (by simp)

/-- **`LateFailure` is when the decision is for a path that does not launch.** -/
theorem lateFailure_iff {policy : Option Policy} {sliceBytes dstPtr : ℕ}
    (pipelineChunks : Option ℤ) :
    rt.LateFailure policy sliceBytes dstPtr ↔ ∃ path,
      rt.plan policy (rt.effectivePipelineChunks sliceBytes pipelineChunks) sliceBytes dstPtr =
        .ok path ∧ ¬ Launches sliceBytes path := by
  cases policy with
  | none =>
    rcases Nat.eq_zero_or_pos sliceBytes with rfl | hslice
    · rw [effectivePipelineChunks_zero, plan_none_zero]
    · refine iff_of_false (fun h => absurd h.1 hslice.ne') ?_
      rintro ⟨path, hplan, hlaunch⟩
      exact hlaunch (launches_of_plan_none hplan hslice)
  | some policy =>
    unfold LateFailure plan planPolicy
    simp only [bind_ok_iff]
    constructor
    · rintro ⟨hguard, hres⟩
      cases hr : rt.resolvedPath policy sliceBytes with
      | vecPull =>
        rw [hr] at hres
        refine ⟨_, ⟨(), hguard, rfl⟩, fun hl => ?_⟩
        rcases hres with hres | hres
        · exact absurd hres hl.1.ne'
        · exact absurd hl.2 (not_lt.mpr hres)
      | fused =>
        rw [hr] at hres
        exact ⟨_, ⟨(), hguard, rfl⟩, fun hl => absurd hres hl.ne'⟩
      | tma | copyEngine | pipelined => rw [hr] at hres; exact hres.elim
    · rintro ⟨path, ⟨_, hguard, hpath⟩, hlaunch⟩
      refine ⟨hguard, ?_⟩
      cases hr : rt.resolvedPath policy sliceBytes with
      | vecPull =>
        rw [hr] at hpath
        rw [← Except.ok.inj hpath] at hlaunch
        by_contra hres
        rw [not_or, not_le] at hres
        exact hlaunch ⟨Nat.pos_of_ne_zero hres.1, hres.2⟩
      | fused =>
        rw [hr] at hpath
        rw [← Except.ok.inj hpath] at hlaunch
        exact Nat.eq_zero_of_not_pos hlaunch
      | tma | copyEngine | pipelined =>
        rw [hr] at hpath
        rw [← Except.ok.inj hpath] at hlaunch
        exact hlaunch trivial

/-! ## When a call is all or nothing -/

variable {current : StreamId} {group : GroupDescriptor}

/-- A call that raises after waiting for the caller's stream has done nothing. -/
theorem allOrNothing_error_ingest (err : PyError) :
    rt.AllOrNothing call s (.error err (s.push (ingestItems call current))) :=
  ⟨rfl, _, rfl, fun _ hit => ⟨current, ingestItems_cmd hit⟩⟩

theorem allOrNothing_error_self (err : PyError) : rt.AllOrNothing call s (.error err s) :=
  ⟨rfl, [], (List.append_nil _).symm, by simp⟩

/-- A late failure has issued epochs. -/
theorem not_atomic_of_late {err : PyError} {n : ℕ} {gid : ℤ} {pre new : List Item} (hn : 0 < n) :
    ¬ rt.Atomic call s (.error err (((s.push pre).advance gid n).push new)) := by
  rintro ⟨hepochs, -⟩
  have hpeek := congrArg (fun m => m.peek gid) hepochs
  simp only [RuntimeState.push_epochs, RuntimeState.advance_epochs,
    EpochManager.peek_advance_self] at hpeek
  omega

/-- **`all_gather` and `all2all` are all or nothing**, and a call that raises is even
atomic, unless the launcher fails late. -/
theorem allOrNothing_submit {c : DataCall} {n : ℕ} (hentry : c.entry rt group = .ok n)
    (h : ¬ ((s.registry.ranksDev group.handle).isSome ∧
      rt.LateFailure (rt.policyFor c.kind group n) n c.output.dataPtr)) :
    rt.AllOrNothing call s ((c.submit rt call current group).run s) := by
  have hchecked := entryChecked_of_entry hentry
  rw [run_submit, hentry]
  dsimp only
  cases hrow : s.registry.ranksDev group.handle with
  | none => exact allOrNothing_error_ingest _
  | some row =>
    rw [hrow, lateFailure_iff c.pipelineChunks] at h
    dsimp only
    cases hplan : rt.plan (rt.policyFor c.kind group n)
        (rt.effectivePipelineChunks n c.pipelineChunks) n c.output.dataPtr with
    | error err => exact allOrNothing_error_ingest err
    | ok path =>
      have hready := ready_of_plan hchecked.slice_le hplan
      have hlaunch : Launches n path := by
        by_contra hlaunch
        exact h ⟨rfl, path, hplan, hlaunch⟩
      dsimp only
      rw [run_perform (a := ⟨call, c.kind, c.input, c.output, group, row, n⟩) hchecked.size_pos
        (ranksDev_length_pos hrow) hready hlaunch]
      exact allOrNothing_pathItems (ranksDev_length_pos hrow) hready hlaunch

/-- A late failure is not atomic. -/
theorem not_atomic_submit {c : DataCall} {n : ℕ} (hentry : c.entry rt group = .ok n)
    (hlive : (s.registry.ranksDev group.handle).isSome)
    (h : rt.LateFailure (rt.policyFor c.kind group n) n c.output.dataPtr) :
    ¬ rt.Atomic call s ((c.submit rt call current group).run s) := by
  have hchecked := entryChecked_of_entry hentry
  obtain ⟨row, hrow⟩ := Option.isSome_iff_exists.mp hlive
  obtain ⟨path, hplan, hlaunch⟩ := (lateFailure_iff c.pipelineChunks).mp h
  have hready := ready_of_plan hchecked.slice_le hplan
  rw [run_submit, hentry]
  dsimp only
  rw [hrow]
  dsimp only
  rw [hplan]
  obtain ⟨err, k, new, hrun, hk, -⟩ := run_perform_error
    (a := ⟨call, c.kind, c.input, c.output, group, row, n⟩)
    (s := s.push (ingestItems call current)) hchecked.size_pos (ranksDev_length_pos hrow) hready
    hlaunch
  dsimp only
  rw [hrun]
  exact not_atomic_of_late hk

/-- `barrier` is always atomic. -/
theorem atomic_barrier : rt.Atomic call s ((rt.barrier call group).run s) := by
  rw [run_barrier]
  cases rt.barrierEntry group with
  | error err => exact atomic_of_allOrNothing (allOrNothing_error_self err)
  | ok _ =>
    dsimp only
    cases s.registry.ranksDev group.handle with
    | none => exact atomic_of_allOrNothing (allOrNothing_error_self _)
    | some row =>
      refine ⟨_, rfl, fun gid e hle hlt => Or.inl ⟨row, List.mem_singleton.mpr ?_⟩⟩
      by_cases hgid : gid = group.groupId
      · subst hgid
        obtain rfl : e = s.epochs.peek group.groupId := by
          simp only [RuntimeState.push_epochs, RuntimeState.advance_epochs,
            EpochManager.peek_advance_self] at hlt
          omega
        rfl
      · rw [RuntimeState.push_epochs, RuntimeState.advance_epochs,
          EpochManager.peek_advance_of_ne _ hgid] at hlt
        exact absurd hlt (not_lt.mpr hle)

/-! ## The exact conditions -/

/-- **A rejected policy changes nothing**, whatever the table, exactly when the launcher
does not fail late. -/
theorem rejected_policy_changes_nothing_iff (rt : Runtime) (s : RuntimeState rt.rank rt.worldSize)
    (call : ℕ) (current : StreamId) (group : GroupDescriptor) (c : DataCall) (n : ℕ)
    (hentry : c.entry rt group = .ok n) :
    rt.AllOrNothing call s ((c.submit rt call current group).run s) ↔
      ¬ ((s.registry.ranksDev group.handle).isSome ∧
        rt.LateFailure (rt.policyFor c.kind group n) n c.output.dataPtr) := by
  constructor
  · rintro h ⟨hlive, hlate⟩
    exact not_atomic_submit hentry hlive hlate (atomic_of_allOrNothing h)
  · exact allOrNothing_submit hentry

variable (rt) in
/-- An `all_gather` of nothing that gets to the launch of a default path. -/
def EmptyLaunch (s : RuntimeState rt.rank rt.worldSize) (group : GroupDescriptor) :
    CollectiveCall → Prop
  | .data (.allGather input output _) =>
    rt.allGatherEntry input output group = .ok 0 ∧ (s.registry.ranksDev group.handle).isSome ∧
      if rt.config.enableFusedPath then 2 * rt.config.fusedNumChannels ≤ rt.numSms
      else rt.tmaEnabled = false ∧ rt.copyEngineEnabled = false
  | _ => False

/-- **A call on a default path is atomic**, exactly when it is not an empty `all_gather`
that gets to its launch. -/
theorem default_call_atomic_iff (rt : Runtime) (hnone : rt.autotune = none)
    (s : RuntimeState rt.rank rt.worldSize) (call : ℕ) (current : StreamId)
    (group : GroupDescriptor) (c : CollectiveCall) :
    rt.Atomic call s ((c.submit rt call current group).run s) ↔ ¬ rt.EmptyLaunch s group c := by
  cases c with
  | barrier => exact iff_of_true atomic_barrier not_false
  | data c =>
    cases hentry : c.entry rt group with
    | error err =>
      have hempty : ¬ rt.EmptyLaunch s group (.data c) := by
        cases c with
        | allGather input output chunks =>
          rintro ⟨hok, -⟩
          cases hentry.symm.trans hok
        | all2All => exact not_false
      refine iff_of_true ?_ hempty
      show rt.Atomic call s ((c.submit rt call current group).run s)
      rw [run_submit, hentry]
      exact atomic_of_allOrNothing (allOrNothing_error_self err)
    | ok n =>
      have hpolicy : rt.policyFor c.kind group n = none := by
        unfold policyFor
        rw [hnone]
        rfl
      have hiff : rt.EmptyLaunch s group (.data c) ↔ (s.registry.ranksDev group.handle).isSome ∧
          rt.LateFailure (rt.policyFor c.kind group n) n c.output.dataPtr := by
        rw [hpolicy]
        cases c with
        | allGather input output chunks =>
          constructor
          · rintro ⟨hok, hlive, hpath⟩
            obtain rfl : n = 0 := Except.ok.inj (hentry.symm.trans hok)
            exact ⟨hlive, rfl, hpath⟩
          · rintro ⟨hlive, rfl, hpath⟩
            exact ⟨hentry, hlive, hpath⟩
        | all2All input output sliceBytes chunks =>
          refine iff_of_false not_false ?_
          rintro ⟨-, rfl, -⟩
          exact absurd ((entryChecked_of_entry hentry).slice_pos rfl) (lt_irrefl 0)
      rw [hiff]
      constructor
      · rintro h ⟨hlive, hlate⟩
        exact not_atomic_submit hentry hlive hlate h
      · exact fun h => atomic_of_allOrNothing (allOrNothing_submit hentry h)

/-! ## Late failures -/

section Pair

/-- A table whose only rule pulls with no SM at all. -/
def noSmTable : AutotuneTable where
  rules := [{ path := some "vec_pull", knobs := { copySms := some 0 } }]
  rules_check := by
    intro r hr
    rw [List.mem_singleton.mp hr]
    rfl

/-- The pull of 16 bytes that `noSmTable` decides on. -/
def noSmCall : DataCall := .allGather (pairTensor 8192 16) (pairTensor 12288 32) none

theorem noSm_late : (pairRuntime .default (some noSmTable) 0).LateFailure
    ((pairRuntime .default (some noSmTable) 0).policyFor noSmCall.kind (pairGroup 0) 16) 16
    noSmCall.output.dataPtr := by
  have hpolicy :
      (pairRuntime .default (some noSmTable) 0).policyFor noSmCall.kind (pairGroup 0) 16 =
      some ⟨.vecPull, { copySms := some 0 }⟩ := by
    decide
  rw [hpolicy]
  exact ⟨rfl, Or.inr (le_refl 0)⟩

theorem rejected_policy_changes_nothing_iff_witness :
    (pairRuntime .default none 0).AllOrNothing 0 (pairState 0)
      ((noSmCall.submit (pairRuntime .default none 0) 0 .main (pairGroup 0)).run
        (pairState 0)) := by
  refine (rejected_policy_changes_nothing_iff (pairRuntime .default none 0) (pairState 0) 0 .main
    (pairGroup 0)
    noSmCall 16 rfl).mpr ?_
  rintro ⟨-, h, -⟩
  cases h

/-- The launcher's assertion on the number of SMs fires after the pre-barrier. -/
theorem rejected_policy_can_change_the_state :
    ¬ (pairRuntime .default (some noSmTable) 0).AllOrNothing 0 (pairState 0)
      ((noSmCall.submit (pairRuntime .default (some noSmTable) 0) 0 .main (pairGroup 0)).run
        (pairState 0)) :=
  fun h => not_atomic_submit (n := 16) rfl rfl noSm_late (atomic_of_allOrNothing h)

/-- An `all_gather` of nothing. -/
def emptyCall : DataCall := .allGather (pairTensor 0 0) (pairTensor 0 0) none

theorem default_call_atomic_iff_witness : (pairRuntime .default none 0).Atomic 0 (pairState 0)
    ((CollectiveCall.data noSmCall).submit (pairRuntime .default none 0) 0 .main
      (pairGroup 0) |>.run
      (pairState 0)) := by
  refine (default_call_atomic_iff (pairRuntime .default none 0) rfl (pairState 0) 0 .main
    (pairGroup 0) _).mpr ?_
  rintro ⟨h, -⟩
  cases h

/-- The launcher's assertion on the slice size fires after the pre-barrier. -/
theorem empty_all_gather_is_not_atomic : ¬ (pairRuntime .default none 0).Atomic 0 (pairState 0)
    ((CollectiveCall.data emptyCall).submit (pairRuntime .default none 0) 0 .main
      (pairGroup 0) |>.run
      (pairState 0)) :=
  have hlate : (pairRuntime .default none 0).LateFailure
      ((pairRuntime .default none 0).policyFor emptyCall.kind (pairGroup 0) 0) 0
        emptyCall.output.dataPtr :=
    ⟨rfl, rfl, rfl⟩
  not_atomic_submit (n := 0) rfl rfl hlate

end Pair

end Runtime

end GroupFreeCollectives
