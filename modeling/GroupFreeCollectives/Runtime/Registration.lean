import GroupFreeCollectives.Runtime.P2pRun

/-!
# Registrations that fail

`register_group` can fail in three places: at the checks on the rank list, under the lock
when the id is taken by other ranks, and after the lock when the debug check finds that
the ranks of the world do not agree.  The first two come before the registry is touched.
The third one comes behind it, and it is skipped for an id that is already registered, so a
call that fails there leaves the descriptor for the next call to find
(`failed_registration_leaves_no_trace_iff`).
-/

namespace GroupFreeCollectives

namespace Runtime

variable {rt : Runtime} {s : RuntimeState rt.rank rt.worldSize}

/-! ## The debug check -/

theorem forM_eq_ok_iff {α : Type} {l : List α} {f : α → Except PyError Unit} :
    forM l f = .ok () ↔ ∀ x ∈ l, f x = .ok () := by
  induction l with
  | nil => simp [pure, Except.pure]
  | cons x l ih =>
    rw [List.forM_cons, bind_ok_iff, List.forall_mem_cons]
    constructor
    · rintro ⟨_, hx, hl⟩
      exact ⟨hx, ih.mp hl⟩
    · rintro ⟨hx, hl⟩
      exact ⟨(), hx, ih.mpr hl⟩

/-- The debug check passes when every rank contributed the same definition. -/
theorem dbgVerifyGroupConsistency_eq_ok_iff {gid : ℤ} {ranks : List ℤ}
    {gathered : List (ℤ × List ℤ)} :
    dbgVerifyGroupConsistency gid ranks gathered = .ok () ↔ ∀ g ∈ gathered, g = (gid, ranks) := by
  unfold dbgVerifyGroupConsistency
  rw [forM_eq_ok_iff]
  constructor
  · intro h g hg
    obtain ⟨k, hk⟩ := List.mem_iff_getElem?.mp hg
    have hmem : (g, k) ∈ gathered.zipIdx := by
      rw [List.mem_zipIdx_iff_getElem?]
      exact hk
    by_contra hne
    have hthrow := h _ hmem
    dsimp only at hthrow
    rw [if_pos hne] at hthrow
    cases hthrow
  · rintro h ⟨g, k⟩ hmem
    exact if_neg (not_not.mpr (h g (List.fst_mem_of_mem_zipIdx hmem)))

variable {ranks : List ℤ} {groupId : Option ℤ} {gathered : List (ℤ × List ℤ)}

/-- The debug check of a handle that is new. -/
theorem registerExit_new_eq_error_iff {gid : ℤ} {g : GroupDescriptor} :
    (∃ e, rt.registerExit gid ranks gathered (g, true) = .error e) ↔
      rt.config.enableDebugChecks = true ∧ ranks.length = rt.worldSize ∧
        ∃ c ∈ gathered, c ≠ (gid, ranks) := by
  unfold registerExit
  by_cases hcheck : rt.config.enableDebugChecks = true ∧ ranks.length = rt.worldSize
  · rw [if_pos ⟨rfl, hcheck⟩]
    have hok : dbgVerifyGroupConsistency gid ranks gathered = .ok () ↔
        ∀ g ∈ gathered, g = (gid, ranks) := dbgVerifyGroupConsistency_eq_ok_iff
    cases hrun : dbgVerifyGroupConsistency gid ranks gathered with
    | error e =>
      rw [hrun] at hok
      simp only [reduceCtorEq, false_iff] at hok
      push Not at hok
      exact iff_of_true ⟨e, rfl⟩ ⟨hcheck.1, hcheck.2, hok⟩
    | ok u =>
      refine iff_of_false ?_ ?_
      · rintro ⟨e, he⟩
        cases he
      · rintro ⟨-, -, c, hc, hne⟩
        exact hne (hok.mp hrun c hc)
  · rw [if_neg (fun h => hcheck h.2)]
    refine iff_of_false ?_ (fun h => hcheck ⟨h.1, h.2.1⟩)
    rintro ⟨e, he⟩
    cases he

/-! ## What a failing call leaves behind -/

variable (rt s ranks groupId gathered) in
/-- A call that raises leaves the registry, the descriptors and the epochs as they were. -/
def FailsCleanly : Prop :=
  ∀ e s', (rt.registerGroup ranks groupId gathered).run s = .error e s' → s' = s

variable (rt s ranks groupId gathered) in
/-- A new world group that passes the other checks is not defined everywhere in the same
way. -/
def InconsistentlyDefined : Prop :=
  (∃ l, rt.registerEntry ranks = .ok l) ∧
    s.registry.registered (groupId.getD (defaultGroupId ranks)) = none ∧
    rt.config.enableDebugChecks = true ∧ ranks.length = rt.worldSize ∧
    ∃ c ∈ gathered, c ≠ (groupId.getD (defaultGroupId ranks), ranks)

/-- **A failing registration leaves no trace, unless what failed is the check behind the
lock.** -/
theorem failed_registration_leaves_no_trace_iff :
    rt.FailsCleanly s ranks groupId gathered ↔
      ¬ rt.InconsistentlyDefined s ranks groupId gathered := by
  unfold FailsCleanly
  rw [run_registerGroup]
  constructor
  · rintro hclean ⟨⟨l, hentry⟩, hnone, hcheck⟩
    have hreg := Registry.register_of_none (l := l) hnone
    obtain ⟨-, -, -, hmem, -, hnew⟩ := Registry.register_ok hreg
    obtain ⟨e, hexit⟩ : ∃ e, rt.registerExit (groupId.getD (defaultGroupId ranks)) ranks gathered
        (s.registry.newDesc (groupId.getD (defaultGroupId ranks)) l, true) = .error e :=
      registerExit_new_eq_error_iff.mpr hcheck
    rw [hentry] at hclean
    dsimp only at hclean
    rw [hreg] at hclean
    dsimp only at hclean
    rw [hexit] at hclean
    -- the new descriptor stays behind
    have hsame := congrArg RuntimeState.registry (hclean _ _ rfl)
    dsimp only at hsame
    rw [hsame] at hmem
    rcases hnew with ⟨hfalse, -⟩ | ⟨-, -, hfresh⟩
    · cases hfalse
    · exact hfresh hmem
  · intro hnot e s' hrun
    cases hentry : rt.registerEntry ranks with
    | error e' =>
      rw [hentry] at hrun
      cases hrun
      rfl
    | ok l =>
      rw [hentry] at hrun
      dsimp only at hrun
      cases hreg : s.registry.register (groupId.getD (defaultGroupId ranks)) l with
      | error e' =>
        rw [hreg] at hrun
        cases hrun
        rfl
      | ok result =>
        obtain ⟨⟨g, new⟩, registry⟩ := result
        rw [hreg] at hrun
        dsimp only at hrun
        cases hexit : rt.registerExit (groupId.getD (defaultGroupId ranks)) ranks gathered
            (g, new) with
        | ok g' =>
          rw [hexit] at hrun
          cases hrun
        | error e' =>
          obtain ⟨-, -, -, -, -, ⟨rfl, -⟩ | ⟨rfl, hnone, -⟩⟩ := Registry.register_ok hreg
          · rw [registerExit_old] at hexit
            cases hexit
          · exact absurd ⟨⟨l, hentry⟩, hnone, registerExit_new_eq_error_iff.mp ⟨e', hexit⟩⟩ hnot

/-- The pair under debug checks. -/
def debugPair : Runtime :=
  pairRuntime { Config.default with enableDebugChecks := true } none 0

/-- Rank 1 contributes the world in another order.  The call raises, and called again it
returns the handle. -/
theorem inconsistent_group_stays_registered :
    (∃ e s', (debugPair.registerGroup [0, 1] (some 7) [(7, [0, 1]), (7, [1, 0])]).run .initial =
        .error e s' ∧
      ∃ g, (debugPair.registerGroup [0, 1] (some 7) [(7, [0, 1]), (7, [1, 0])]).run s' =
        .ok g s') ∧
    ¬ ∀ (rt : Runtime) (s : RuntimeState rt.rank rt.worldSize) (ranks : List ℤ)
      (groupId : Option ℤ) (gathered : List (ℤ × List ℤ)),
      rt.FailsCleanly s ranks groupId gathered := by
  refine ⟨⟨_, _, rfl, _, rfl⟩, fun h => ?_⟩
  have hsame := h debugPair .initial [0, 1] (some 7) [(7, [0, 1]), (7, [1, 0])] _ _ rfl
  have hdescs := congrArg (fun s => s.registry.descs.length) hsame
  cases hdescs

end Runtime

end GroupFreeCollectives
