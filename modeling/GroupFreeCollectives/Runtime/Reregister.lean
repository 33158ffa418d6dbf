import GroupFreeCollectives.Runtime.Lifecycle
import GroupFreeCollectives.Runtime.Trace

/-!
# Registering an id again

A registration of an id continues the counter that the rank has for the id.  The barriers
of one registration take consecutive epochs from there (`launched_onHandle`), so the
members of a group agree on its tokens when their counters agree at the registration.
A rank that was not in an earlier group of the same id has a counter that is behind.
-/

namespace GroupFreeCollectives

namespace Runtime

variable {rt rt' : Runtime} {x : Session rt} {g : GroupDescriptor}

/-! ## Sequences of registrations and barriers -/

/-- A registration, a release or a barrier. -/
def Call.isControl : Call → Bool
  | .register .. => true
  | .unregister _ => true
  | .collective _ _ _ .barrier => true
  | _ => false

/-- A barrier on this very handle. -/
def Call.onHandle (g : GroupDescriptor) : Call → Bool
  | .collective _ _ group _ => group = g
  | _ => false

/-- A sequence of registrations, releases and barriers, made with handles of the runtime,
that it accepts. -/
def Session.Accepts (x : Session rt) : List Call → Prop
  | [] => True
  | c :: cs => c.isControl ∧ (∀ g, c.handle = some g → g ∈ x.state.registry.descs) ∧
    (∃ r, (x.run c).1 = .ok r) ∧ (x.run c).2.Accepts cs

/-- How many barriers the calls issue on an id. -/
def barriersOn (rank : ℕ) (gid : ℤ) (cs : List Call) : ℕ := cs.countP (Call.on rank gid)

/-! ## What these calls do to a handle -/

/-- A barrier that returns is on a live handle. -/
theorem holds_of_returns {call : ℕ} {current : StreamId} {group : GroupDescriptor}
    {c : CollectiveCall} {r : Option GroupDescriptor} (hg : group ∈ x.state.registry.descs)
    (h : (x.run (.collective call current group c)).1 = .ok r) : x.state.registry.Holds group := by
  cases hrow : x.state.registry.ranksDev group.handle with
  | some row => exact ((ranksDev_iff_of_mem hg).mp hrow).1.1
  | none =>
    obtain ⟨e, he, -⟩ := collective_dead hrow call current c
    rw [he] at h
    cases h

/-! ## The barriers of a registration -/

/-- A released handle launches no barrier any more. -/
theorem launched_of_released {cs : List Call} (hacc : x.Accepts cs)
    (hg : g ∈ x.state.registry.descs) (hdead : ¬ x.state.registry.Holds g) :
    x.launched (Call.onHandle g) cs = [] := by
  induction cs generalizing x with
  | nil => rfl
  | cons c cs ih =>
    obtain ⟨hctl, hmem, ⟨r, hr⟩, hacc⟩ := hacc
    have hg' := (x.extends_run c).descs g hg
    unfold Session.launched
    cases c with
    | register ranks groupId gathered =>
      rw [ih hacc hg' fun h => hdead ((holds_register_iff hg).mp h)]
      rfl
    | unregister d =>
      rw [ih hacc hg' fun h => hdead (holds_unregister_iff.mp h).1]
      rfl
    | collective call current d c =>
      have hne : d ≠ g := by
        rintro rfl
        exact hdead (holds_of_returns hg hr)
      have hdead' : ¬ (x.run (.collective call current d c)).2.state.registry.Holds g := by
        rwa [registry_run_collective]
      rw [ih hacc hg' hdead', if_neg (by simpa [Call.onHandle] using hne)]
      rfl
    | p2p call current c gathered => cases hctl
    | shutdown => cases hctl

/-- **The barriers of a live handle** take consecutive epochs, from the counter on. -/
theorem launched_onHandle {cs : List Call} (hacc : x.Accepts cs)
    (hlive : x.state.registry.Holds g) :
    ∃ n, x.launched (Call.onHandle g) cs =
      (List.range' (x.state.epochs.peek g.groupId) n).map (rt.token g.groupId) := by
  induction cs generalizing x with
  | nil => exact ⟨0, rfl⟩
  | cons c cs ih =>
    obtain ⟨hctl, hmem, ⟨r, hr⟩, hacc⟩ := hacc
    have hg := (x.state.registry.mem_of_registered _ _ hlive).1
    unfold Session.launched
    cases c with
    | register ranks groupId gathered =>
      obtain ⟨n, hn⟩ := ih hacc ((holds_register_iff hg).mpr hlive)
      rw [hn, peek_run_of_ne (by simp [Call.groupId])]
      exact ⟨n, rfl⟩
    | unregister d =>
      by_cases hdg : d = g
      · subst hdg
        refine ⟨0, ?_⟩
        rw [launched_of_released hacc ((x.extends_run _).descs d hg)
          fun h => (holds_unregister_iff.mp h).2 rfl]
        rfl
      · obtain ⟨n, hn⟩ := ih hacc (holds_unregister_iff.mpr ⟨hlive, fun h => hdg h.symm⟩)
        rw [hn, peek_run_of_ne (by simp [Call.groupId])]
        exact ⟨n, rfl⟩
    | collective call current d c =>
      have hlive' : (x.run (.collective call current d c)).2.state.registry.Holds g := by
        rwa [registry_run_collective]
      obtain ⟨n, hn⟩ := ih hacc hlive'
      rw [hn]
      by_cases hdg : d = g
      · subst hdg
        cases c with
        | data c => cases hctl
        | barrier =>
          have htakes := takes_barrier hr
          refine ⟨n + 1, ?_⟩
          rw [if_pos (by simp [Call.onHandle]), htakes.tokens, htakes.epochs,
            EpochManager.peek_advance_self, List.range'_succ]
          rfl
      · -- the id has one live handle
        have hne : (Call.collective call current d c).groupId rt.rank ≠ some g.groupId := by
          intro h
          have hd := holds_of_returns (hmem d rfl) hr
          unfold Registry.Holds at hd hlive
          rw [Option.some_inj.mp h] at hd
          exact hdg (Option.some_inj.mp (hd.symm.trans hlive))
        rw [if_neg (by simpa [Call.onHandle] using hdg), peek_run_of_ne hne]
        exact ⟨n, rfl⟩
    | p2p call current c gathered => cases hctl
    | shutdown => cases hctl

/-- The counter of an id is the number of barriers issued on it. -/
theorem peek_runs {gid : ℤ} {cs : List Call} (hacc : x.Accepts cs) :
    (x.runs cs).state.epochs.peek gid = x.state.epochs.peek gid + barriersOn rt.rank gid cs := by
  induction cs generalizing x with
  | nil => rfl
  | cons c cs ih =>
    obtain ⟨hctl, hmem, ⟨r, hr⟩, hacc⟩ := hacc
    show ((x.run c).2.runs cs).state.epochs.peek gid = _
    rw [ih hacc]
    unfold barriersOn
    by_cases hon : Call.on rt.rank gid c = true
    · obtain ⟨sh, hsh, htakes⟩ := takes_of_returns (of_decide_eq_true hon) hr
      have hsingle : sh = .single := by
        cases c with
        | collective call current d c =>
          cases c with
          | barrier => exact (Option.some_inj.mp hsh).symm
          | data c => cases hctl
        | register ranks groupId gathered => cases hsh
        | unregister d => cases hsh
        | p2p call current c gathered => cases hctl
        | shutdown => cases hctl
      rw [htakes.epochs, EpochManager.peek_advance_self, hsingle, List.countP_cons_of_pos hon]
      show _ + 1 + _ = _
      omega
    · rw [peek_run_of_ne fun h => hon (decide_eq_true h), List.countP_cons_of_neg hon]

theorem Session.Accepts.split {pre post : List Call} (h : x.Accepts (pre ++ post)) :
    x.Accepts pre ∧ (x.runs pre).Accepts post := by
  induction pre generalizing x with
  | nil => exact ⟨trivial, h⟩
  | cons c pre ih =>
    obtain ⟨hctl, hmem, hret, h⟩ := h
    obtain ⟨hpre, hpost⟩ := ih h
    exact ⟨⟨hctl, hmem, hret, hpre⟩, hpost⟩

/-- The handle of an accepted registration, and the tokens of its barriers: they count
the barriers issued on the id before. -/
theorem exists_handle_of_accepts {ranks : List ℤ} {groupId : Option ℤ}
    {gathered : List (ℤ × List ℤ)} {pre post : List Call}
    (h : (Session.initial : Session rt).Accepts (pre ++ .register ranks groupId gathered :: post)) :
    ∃ g, (((Session.initial : Session rt).runs pre).run
        (.register ranks groupId gathered)).1 = .ok (some g) ∧
      ∃ n, (((Session.initial : Session rt).runs pre).run
          (.register ranks groupId gathered)).2.launched (Call.onHandle g) post =
        (List.range' (barriersOn rt.rank (groupId.getD (defaultGroupId ranks)) pre) n).map
          (rt.token (groupId.getD (defaultGroupId ranks))) := by
  obtain ⟨hpre, -, -, ⟨r, hr⟩, hpost⟩ := h.split
  have hpeek : ((Session.initial : Session rt).runs pre).state.epochs.peek
      (groupId.getD (defaultGroupId ranks)) =
        0 + barriersOn rt.rank (groupId.getD (defaultGroupId ranks)) pre := peek_runs hpre
  generalize (Session.initial : Session rt).runs pre = x at hr hpost hpeek ⊢
  rw [run_register_eq] at hr hpost ⊢
  dsimp only at hr hpost ⊢
  cases hrun : (rt.registerGroup ranks groupId gathered).run x.state with
  | error e s =>
    rw [hrun] at hr
    cases hr
  | ok g s =>
    obtain ⟨hlive, -, hgid, -⟩ := registerGroup_ok hrun
    have hepochs : s.epochs = x.state.epochs := by
      have hframe : (endState ((rt.registerGroup ranks groupId gathered).run x.state)).epochs =
          x.state.epochs := registerGroup_frame.1
      rwa [hrun] at hframe
    rw [hrun] at hpost
    obtain ⟨n, hn⟩ := launched_onHandle hpost hlive
    refine ⟨g, rfl, n, hn.trans ?_⟩
    show (List.range' (s.epochs.peek g.groupId) n).map _ = _
    rw [hgid, hepochs, hpeek, Nat.zero_add]

/-- **Members of a registered group agree on tokens**, if they have issued equally many
barriers on its id before: whatever else two ranks of a session have registered,
released and synchronised, the `k`-th barrier that one issues on the registration has the
token of the `k`-th that the other issues. -/
theorem registered_members_agree (hnonce : rt.sessionNonce = rt'.sessionNonce) {ranks : List ℤ}
    {groupId : Option ℤ} {gathered gathered' : List (ℤ × List ℤ)} {pre post pre' post' : List Call}
    (h : (Session.initial : Session rt).Accepts (pre ++ .register ranks groupId gathered :: post))
    (h' : (Session.initial : Session rt').Accepts
      (pre' ++ .register ranks groupId gathered' :: post'))
    (hcount : barriersOn rt.rank (groupId.getD (defaultGroupId ranks)) pre =
      barriersOn rt'.rank (groupId.getD (defaultGroupId ranks)) pre') :
    ∃ g g',
      (((Session.initial : Session rt).runs pre).run
        (.register ranks groupId gathered)).1 = .ok (some g) ∧
      (((Session.initial : Session rt').runs pre').run
        (.register ranks groupId gathered')).1 = .ok (some g') ∧
      ∀ (k tok tok' : ℕ),
        ((((Session.initial : Session rt).runs pre).run
          (.register ranks groupId gathered)).2.launched (Call.onHandle g) post)[k]? = some tok →
        ((((Session.initial : Session rt').runs pre').run
          (.register ranks groupId gathered')).2.launched (Call.onHandle g') post')[k]? =
            some tok' →
        tok = tok' := by
  obtain ⟨g, hg, n, hn⟩ := exists_handle_of_accepts h
  obtain ⟨g', hg', n', hn'⟩ := exists_handle_of_accepts h'
  refine ⟨g, g', hg, hg', ?_⟩
  intro k tok tok' htok htok'
  rw [hn, List.getElem?_map] at htok
  rw [hn', List.getElem?_map, ← hcount] at htok'
  obtain ⟨e, he, rfl⟩ := Option.map_eq_some_iff.mp htok
  obtain ⟨e', he', rfl⟩ := Option.map_eq_some_iff.mp htok'
  obtain ⟨hk, rfl⟩ := List.getElem?_eq_some_iff.mp he
  obtain ⟨hk', rfl⟩ := List.getElem?_eq_some_iff.mp he'
  unfold token
  rw [List.getElem_range', List.getElem_range', hnonce]

/-! ### An id that is used for two groups -/

section Trio

/-- A rank of three. -/
def trioRuntime (rank : Fin 3) : Runtime where
  config := Config.default
  device := "cuda:0"
  rank := rank
  worldSize := 3
  numSms := 132
  tmaEnabled := false
  autotune := none
  sessionNonce := 1
  bufferPtrs _ := 4096
  numSms_pos := Nat.succ_pos 131
  rank_lt := rank.isLt

/-- The ranks 0 and 1. -/
def lowPair : RankList 3 := ⟨[0, 1], pairRanks.nodup, by decide⟩

/-- The ranks 1 and 2. -/
def highPair : RankList 3 := ⟨[1, 2], by decide, by decide⟩

/-- What a member does with a group of id 7: it registers the group, issues a barrier and
releases the group. -/
def lifetime (rank handle : ℕ) (l : RankList 3) : List Call :=
  [.register (l.ranks.map Int.ofNat) (some 7) [],
    .collective 0 (.user 0) (.make rank handle 7 l) .barrier,
    .unregister (.make rank handle 7 l)]

/-- The lower pair uses the id first, then the higher pair does. -/
def history : Fin 3 → List Call
  | 0 => lifetime 0 0 lowPair
  | 1 => lifetime 1 0 lowPair ++ lifetime 1 1 highPair
  | 2 => lifetime 2 0 highPair

theorem accepts_history (rank : Fin 3) :
    (Session.initial : Session (trioRuntime rank)).Accepts (history rank) := by
  match rank with
  | 0 =>
    exact ⟨rfl, by rintro g ⟨⟩, ⟨_, rfl⟩, rfl, by rintro g ⟨⟩; decide +kernel, ⟨_, rfl⟩,
      rfl, by rintro g ⟨⟩; decide +kernel, ⟨_, rfl⟩, trivial⟩
  | 1 =>
    exact ⟨rfl, by rintro g ⟨⟩, ⟨_, rfl⟩, rfl, by rintro g ⟨⟩; decide +kernel, ⟨_, rfl⟩,
      rfl, by rintro g ⟨⟩; decide +kernel, ⟨_, rfl⟩, rfl, by rintro g ⟨⟩, ⟨_, rfl⟩,
      rfl, by rintro g ⟨⟩; decide +kernel, ⟨_, rfl⟩,
      rfl, by rintro g ⟨⟩; decide +kernel, ⟨_, rfl⟩, trivial⟩
  | 2 =>
    exact ⟨rfl, by rintro g ⟨⟩, ⟨_, rfl⟩, rfl, by rintro g ⟨⟩; decide +kernel, ⟨_, rfl⟩,
      rfl, by rintro g ⟨⟩; decide +kernel, ⟨_, rfl⟩, trivial⟩

/-- All calls are accepted, and the members of each group make the same calls on it, but
the first barrier of the higher pair has the token of epoch 1 on rank 1 and that of
epoch 0 on rank 2. -/
theorem reused_id_disagrees :
    (∀ rank, (Session.initial : Session (trioRuntime rank)).Accepts (history rank)) ∧
    (Session.initial : Session (trioRuntime 1)).launched (Call.onHandle (.make 1 1 7 highPair))
      (history 1) = [computeToken 1 7 1] ∧
    (Session.initial : Session (trioRuntime 2)).launched (Call.onHandle (.make 2 0 7 highPair))
      (history 2) = [computeToken 1 7 0] ∧
    computeToken 1 7 1 ≠ computeToken 1 7 0 :=
  ⟨accepts_history, by decide +kernel, by decide +kernel, by decide +kernel⟩

/-- A member of the lower pair uses the group, releases it and uses the id again. -/
def secondLife (rank : Fin 3) : List Call :=
  lifetime rank 0 lowPair ++ lifetime rank 1 lowPair

theorem accepts_secondLife {rank : Fin 3} (h : rank = 0 ∨ rank = 1) :
    (Session.initial : Session (trioRuntime rank)).Accepts (secondLife rank) := by
  rcases h with rfl | rfl <;>
    exact ⟨rfl, by rintro g ⟨⟩, ⟨_, rfl⟩, rfl, by rintro g ⟨⟩; decide +kernel, ⟨_, rfl⟩,
      rfl, by rintro g ⟨⟩; decide +kernel, ⟨_, rfl⟩, rfl, by rintro g ⟨⟩, ⟨_, rfl⟩,
      rfl, by rintro g ⟨⟩; decide +kernel, ⟨_, rfl⟩,
      rfl, by rintro g ⟨⟩; decide +kernel, ⟨_, rfl⟩, trivial⟩

/-- What the registration that a member of the lower pair makes after it has released the
group returns, and what it leaves. -/
def reregister (rank : Fin 3) :
    Except PyError (Option GroupDescriptor) × Session (trioRuntime rank) :=
  ((Session.initial : Session (trioRuntime rank)).runs (lifetime rank 0 lowPair)).run
    (.register [0, 1] (some 7) [])

/-- The theorem for the second registration of the lower pair: both members get a new handle,
and the barrier that each issues on it has the token of epoch 1. -/
theorem registered_members_agree_witness :
    (reregister 0).1 = .ok (some (.make 0 1 7 lowPair)) ∧
    (reregister 1).1 = .ok (some (.make 1 1 7 lowPair)) ∧
    (reregister 0).2.launched (Call.onHandle (.make 0 1 7 lowPair))
      ((lifetime 0 1 lowPair).drop 1) = [computeToken 1 7 1] ∧
    (reregister 1).2.launched (Call.onHandle (.make 1 1 7 lowPair))
      ((lifetime 1 1 lowPair).drop 1) = [computeToken 1 7 1] ∧
    ∀ k tok tok' : ℕ,
      ((reregister 0).2.launched (Call.onHandle (.make 0 1 7 lowPair))
        ((lifetime 0 1 lowPair).drop 1))[k]? = some tok →
      ((reregister 1).2.launched (Call.onHandle (.make 1 1 7 lowPair))
        ((lifetime 1 1 lowPair).drop 1))[k]? = some tok' → tok = tok' := by
  have h : (Session.initial : Session (trioRuntime 0)).Accepts (lifetime 0 0 lowPair ++
      .register [0, 1] (some 7) [] :: (lifetime 0 1 lowPair).drop 1) :=
    accepts_secondLife (Or.inl rfl)
  have h' : (Session.initial : Session (trioRuntime 1)).Accepts (lifetime 1 0 lowPair ++
      .register [0, 1] (some 7) [] :: (lifetime 1 1 lowPair).drop 1) :=
    accepts_secondLife (Or.inr rfl)
  have hnonce : (trioRuntime 0).sessionNonce = (trioRuntime 1).sessionNonce := by decide
  have hcount : barriersOn 0 7 (lifetime 0 0 lowPair) = barriersOn 1 7 (lifetime 1 0 lowPair) := by
    decide
  obtain ⟨g, g', hg, hg', hagree⟩ := registered_members_agree hnonce h h' hcount
  -- the handles that the theorem speaks of are those that are returned
  obtain rfl : g = .make 0 1 7 lowPair := Option.some_inj.mp (Except.ok.inj hg).symm
  obtain rfl : g' = .make 1 1 7 lowPair := Option.some_inj.mp (Except.ok.inj hg').symm
  exact ⟨hg, hg', by decide +kernel, by decide +kernel, hagree⟩

end Trio

end Runtime

end GroupFreeCollectives
