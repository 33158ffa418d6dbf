import GroupFreeCollectives.Lib.Rendezvous
import GroupFreeCollectives.Runtime.Init

/-!
# Construction on all ranks

`SymmetricCollectiveRuntime.__init__` as the program of every rank of a world.  After the checks
that a rank makes on its own it takes part in calls on the bootstrap process group: the
allocation and rendezvous of the regions, the broadcast of the session nonce, the comparison of
the nonces when debug checks are on, and the probe of `gfc/tma_probe.py` when TMA is asked
for.  Such a call returns when every rank has made it, as its next one.  What a descriptor load
returns is up to the hardware: it is a function of all communication buffers.  After its
construction a rank may store anything into its own buffer.

* The constructors agree (`constructors_agree`): the nonce is the odd number that rank 0 has
  drawn, and TMA is enabled nowhere unless every rank has read the pattern of its peer,
  in every order of the ranks' steps and whatever the ranks do afterwards.
* The constructors of all ranks return, or raise, exactly if the ranks agree on the debug checks
  and on TMA (`all_constructed_iff`).
* The patterns of two ranks are equal if the ranks are equal modulo 256 (`pattern_eq_iff`),
  so a probe that reads the buffer of another rank is detected up to that
  (`probe_detects_wrong_peer`).
-/

namespace GroupFreeCollectives

open Rendezvous

/-! ## The program of a rank -/

/-- The regions of `allocate_symm_regions`. -/
inductive SymmRegion where
  | commBuf
  | signalBuf
  | stepPad
  deriving DecidableEq, Repr

/-- The calls on the bootstrap process group. -/
inductive BootCall where
  | enableSymmMem
  | rendezvous (region : SymmRegion)
  | broadcastObjectList
  | allGatherObject
  | barrier
  | allReduceMin
  deriving DecidableEq, Repr

/-- What a rank does between these calls. -/
inductive BootAct where
  /-- `nonce = secrets.randbits(64) | 1` on rank 0, and 0 on the others -/
  | pickNonce
  /-- `n = int(obj_list[0])` -/
  | receiveNonce
  /-- `all(g == n for g in gathered)` -/
  | compareNonces
  /-- `cb.tensor[:_PROBE_BYTES].copy_(pattern_self)` -/
  | stagePattern
  /-- the descriptor load from the peer, and the comparison with its pattern -/
  | probe
  /-- `ok = int(tally.item()) == 1` -/
  | readTally
  /-- what the rank's calls store into its communication buffer later -/
  | store (addr value : ℕ)
  deriving DecidableEq, Repr

/-- The steps of a rank. -/
abbrev BootScript := List (Instr BootAct BootCall)

/-- What the ranks share, and the local variables of their constructors. -/
structure BootMemory where
  /-- the communication buffers, by rank and address -/
  commBuf : ℕ → ℕ → ℕ
  /-- `obj_list[0]` -/
  nonce : ℕ → ℤ
  /-- the outcome of `compareNonces` -/
  noncesEqual : ℕ → Bool
  /-- `local_ok` -/
  localOk : ℕ → Bool
  /-- what `probe_tma_supported` returns -/
  verdict : ℕ → Bool

/-- `_PROBE_BYTES`. -/
def probeBytes : ℕ := 4096

/-- A byte of `_pattern`. -/
def pattern (rank idx : ℕ) : ℕ := ((rank + 1) * 131 + idx * 17) &&& 0xFF

/-- `_pattern(rank, _PROBE_BYTES, device)`. -/
def patternBytes (rank : ℕ) : List ℕ := (List.range probeBytes).map (pattern rank)

/-- A communication buffer with the pattern of its rank: the rest is zero, as allocated. -/
def staged (rank addr : ℕ) : ℕ := if addr < probeBytes then pattern rank addr else 0

/-- The error of the comparison of the nonces. -/
def nonceMismatch (gathered : List ℤ) : PyError :=
  let shown := ", ".intercalate (gathered.map toString)
  .valueError s!"session_nonce mismatch across ranks: [{shown}]"

/-- The error of `copy_` when the communication buffer is shorter than the pattern. -/
def sizeMismatch (bytes : ℕ) : PyError :=
  .runtimeError s!"The size of tensor a ({bytes}) must match the size of tensor b ({probeBytes}) at non-singleton dimension 0"

namespace Runtime

/-- The checks of `__init__` before its first call on the process group. -/
def localChecks (config : Config) (host : Host) : Except PyError Unit := do
  let autotune ← loadAutotune config host
  let rt : Runtime :=
    { config := config
      device := host.device
      rank := host.rank
      worldSize := host.worldSize
      numSms := host.numSms
      tmaEnabled := false
      autotune := autotune
      sessionNonce := host.sessionNonce
      bufferPtrs := host.bufferPtrs
      numSms_pos := host.numSms_pos
      rank_lt := host.rank_lt }
  if config.enableFusedPath then rt.checkFusedLaunchCapacity config.fusedNumChannels

/-- The local checks are the first of `__init__`. -/
theorem init_eq_error_of_localChecks {config : Config} {host : Host} {e : PyError}
    (h : localChecks config host = .error e) : init config host = .error e := by
  unfold localChecks at h
  unfold init
  cases hload : loadAutotune config host with
  | error e' =>
    rw [hload] at h
    obtain rfl : e' = e := Except.error.inj h
    rfl
  | ok table =>
    rw [hload] at h
    by_cases hf : config.enableFusedPath = true
    · simp only [bind, Except.bind, hf, if_true] at h ⊢
      rw [h]
    · simp only [bind, Except.bind, hf] at h
      cases h

/-- Who does not ask for TMA does not look at the verdict. -/
theorem init_congr_of_not_asks {config : Config} {host : Host} {ok ok' : Bool} {nonce : ℤ}
    (h : ¬ (config.useTma = true ∧ config.useCopyEngine = false)) :
    init config { host with sessionNonce := nonce, tmaProbe := ok } =
      init config { host with sessionNonce := nonce, tmaProbe := ok' } := by
  unfold init
  by_cases htma : config.useTma = true
  · have hce : config.useCopyEngine = true := by simpa [htma] using h
    -- the two are refused together before the probe
    refine bind_congr fun table => ?_
    simp only [htma, hce, copyEngineEnabled, require, decide_not, not_true_eq_false, and_self,
      decide_false]
    rfl
  · simp [htma, loadAutotune]

/-- A rank that asks for TMA gets it if the probe has passed, and raises otherwise. -/
theorem init_ok_iff {config : Config} {host : Host} {ok : Bool} {nonce : ℤ}
    (h : localChecks config host = .ok ()) (hnonce : nonce ≠ 0)
    (ha : config.useTma = true ∧ config.useCopyEngine = false) :
    (∃ rt, init config { host with sessionNonce := nonce, tmaProbe := ok } = .ok rt ∧
      rt.tmaEnabled = true) ↔ ok = true := by
  constructor
  · rintro ⟨rt, hinit, -⟩
    unfold init at hinit
    obtain ⟨table, -, hinit⟩ := bind_ok_iff.mp hinit
    obtain ⟨-, hinit⟩ := ite_bind_ok_iff.mp hinit
    obtain ⟨-, hinit⟩ := require_bind_ok_iff.mp hinit
    obtain ⟨-, hinit⟩ := require_bind_ok_iff.mp hinit
    rw [if_pos ha.1] at hinit
    split at hinit
    · assumption
    · cases hinit
  · rintro rfl
    unfold localChecks at h
    obtain ⟨table, hload, h⟩ := bind_ok_iff.mp h
    dsimp only at h
    let rt : Runtime :=
      { config := config, device := host.device, rank := host.rank, worldSize := host.worldSize,
        numSms := host.numSms, tmaEnabled := true, autotune := table, sessionNonce := nonce,
        bufferPtrs := host.bufferPtrs, numSms_pos := host.numSms_pos, rank_lt := host.rank_lt }
    refine ⟨rt, bind_ok_iff.mpr ⟨table, hload, ite_bind_ok_iff.mpr ⟨fun hf => ?_,
      require_bind_ok_iff.mpr ⟨decide_eq_true hnonce, require_bind_ok_iff.mpr ⟨?_, ?_⟩⟩⟩⟩, rfl⟩
    · rwa [if_pos hf] at h
    · simp [copyEngineEnabled, ha.2]
    · rw [if_pos ha.1]
      rfl

/-- A runtime has the nonce of its host, and TMA if it asks for it and the probe has passed. -/
theorem of_init_eq_ok {config : Config} {host : Host} {rt : Runtime} (h : init config host = .ok rt) :
    rt.sessionNonce = host.sessionNonce ∧
      (rt.tmaEnabled = true → config.useTma = true ∧ host.tmaProbe = true) := by
  unfold init at h
  obtain ⟨table, -, h⟩ := bind_ok_iff.mp h
  obtain ⟨-, h⟩ := ite_bind_ok_iff.mp h
  obtain ⟨-, h⟩ := require_bind_ok_iff.mp h
  obtain ⟨-, h⟩ := require_bind_ok_iff.mp h
  split at h
  case isTrue htma =>
    split at h
    case isTrue hprobe =>
      rw [← Except.ok.inj h]
      exact ⟨rfl, fun _ => ⟨htma, hprobe⟩⟩
    case isFalse => cases h
  case isFalse htma =>
    rw [← Except.ok.inj h]
    exact ⟨rfl, fun h => by cases h⟩

/-- The local checks do not look at what the process group delivers. -/
theorem localChecks_congr {config : Config} {host : Host} {nonce : ℤ} {ok : Bool} :
    localChecks config { host with sessionNonce := nonce, tmaProbe := ok } =
      localChecks config host := rfl

end Runtime

/-! ## The world -/

/-- The ranks that construct their runtimes. -/
structure Bootstrap where
  worldSize : ℕ
  /-- the configurations, after the environment overrides -/
  config : ℕ → Config
  /-- what the ranks find, but for what the process group delivers -/
  host : ℕ → Host
  /-- `secrets.randbits(64)` on rank 0 -/
  secretBits : ℕ
  /-- what the descriptor load of a rank returns; it may raise -/
  tma : ℕ → (ℕ → ℕ → ℕ) → Option (List ℕ)
  /-- what the ranks store into their communication buffers later -/
  later : ℕ → List (ℕ × ℕ)

namespace Bootstrap

variable (b : Bootstrap) (p : ℕ)

/-- `(self_rank + 1) % world`. -/
def peer : ℕ := (p + 1) % b.worldSize

/-- The nonce that rank 0 draws. -/
def nonce : ℤ := (b.secretBits ||| 1 : ℕ)

/-- The rank passes the checks that it makes on its own. -/
def Starts : Prop := Runtime.localChecks (b.config p) (b.host p) = .ok ()

/-- The rank calls `probe_tma_supported`. -/
def AsksForTma : Prop := (b.config p).useTma = true ∧ (b.config p).useCopyEngine = false

/-- The pattern fits into the communication buffer; otherwise its copy raises. -/
def CanStage : Prop := probeBytes ≤ (b.config p).maxCollectiveBytes

instance : Decidable (b.Starts p) := by unfold Starts; infer_instance
instance : Decidable (b.AsksForTma p) := by unfold AsksForTma; infer_instance
instance : Decidable (b.CanStage p) := by unfold CanStage; infer_instance

/-- From the allocation of the regions to the session nonce. -/
def setupSteps : BootScript :=
  [.meet .enableSymmMem, .meet (.rendezvous .commBuf), .meet (.rendezvous .signalBuf),
    .meet (.rendezvous .stepPad), .act .pickNonce, .meet .broadcastObjectList, .act .receiveNonce]

/-- The check of `_broadcast_session_nonce`. -/
def debugSteps : BootScript :=
  if (b.config p).enableDebugChecks then [.meet .allGatherObject, .act .compareNonces] else []

/-- `probe_tma_supported`. -/
def probeSteps : BootScript :=
  if b.AsksForTma p ∧ b.CanStage p then
    [.act .stagePattern, .meet .barrier, .act .probe, .meet .allReduceMin, .act .readTally]
  else []

/-- What the rank does with its communication buffer afterwards. -/
def laterSteps : BootScript := (b.later p).map fun x => .act (.store x.1 x.2)

/-- The program of a rank. -/
def script : BootScript :=
  if b.Starts p then setupSteps ++ (b.debugSteps p ++ (b.probeSteps p ++ b.laterSteps p)) else []

/-- What an action of rank `p` does. -/
def effect (p : ℕ) (a : BootAct) (m : BootMemory) : BootMemory :=
  match a with
  | .pickNonce => { m with nonce := Function.update m.nonce p (if p = 0 then b.nonce else 0) }
  | .receiveNonce => { m with nonce := Function.update m.nonce p (m.nonce 0) }
  | .compareNonces =>
    { m with
      noncesEqual := Function.update m.noncesEqual p
        (decide (∀ q < b.worldSize, m.nonce q = m.nonce p)) }
  | .stagePattern =>
    { m with
      commBuf := Function.update m.commBuf p fun addr =>
        if addr < probeBytes then pattern p addr else m.commBuf p addr }
  | .probe =>
    { m with
      localOk := Function.update m.localOk p
        (decide (b.tma p m.commBuf = some (patternBytes (b.peer p)))) }
  | .readTally =>
    { m with
      verdict := Function.update m.verdict p
        (decide (∀ q < b.worldSize, m.localOk q = true)) }
  | .store addr value =>
    { m with
      commBuf := Function.update m.commBuf p (Function.update (m.commBuf p) addr value) }

/-- The construction of all ranks. -/
def protocol : Rendezvous.Protocol ℕ BootAct BootCall BootMemory where
  parties := Finset.range b.worldSize
  script := b.script
  effect := b.effect

/-- Zeroed regions, and nothing known. -/
def initial : BootMemory where
  commBuf _ _ := 0
  nonce _ := 0
  noncesEqual _ := false
  localOk _ := false
  verdict _ := false

/-- What some order of the ranks' steps reaches. -/
abbrev Reaches (s : State ℕ BootAct BootCall BootMemory) : Prop :=
  Rendezvous.Reachable b.protocol initial s

/-- The constructor of the rank has come to its end. -/
def Constructed (s : State ℕ BootAct BootCall BootMemory) : Prop :=
  s.todo p <:+ if b.Starts p then b.laterSteps p else []

/-- What the constructor of a rank returns or raises. -/
def result (m : BootMemory) : Except PyError Runtime :=
  if b.Starts p ∧ (b.config p).enableDebugChecks = true ∧ m.noncesEqual p = false then
    .error (nonceMismatch ((List.range b.worldSize).map m.nonce))
  else if b.Starts p ∧ b.AsksForTma p ∧ ¬ b.CanStage p then
    .error (sizeMismatch (b.config p).maxCollectiveBytes)
  else Runtime.init (b.config p)
    { b.host p with sessionNonce := m.nonce p, tmaProbe := m.verdict p }

/-- The descriptor load of the rank finds the pattern of its peer. -/
def Passes : Prop :=
  b.tma p (fun q addr => if q < b.worldSize then staged q addr else 0) =
    some (patternBytes (b.peer p))

instance : Decidable (b.Passes p) := by unfold Passes; infer_instance

/-- What the constructor does when the process group delivers the nonce of rank 0 and the common
verdict. -/
def expected : Except PyError Runtime :=
  if b.Starts p ∧ b.AsksForTma p ∧ ¬ b.CanStage p then
    .error (sizeMismatch (b.config p).maxCollectiveBytes)
  else Runtime.init (b.config p)
    { b.host p with sessionNonce := b.nonce, tmaProbe := decide (∀ q < b.worldSize, b.Passes q) }

/-! ## The scripts -/

section Scripts

variable {b p} {q : ℕ} {l : BootCall} {a : BootAct}

@[simp] theorem meets_laterSteps : meets (b.laterSteps p) = [] := by
  simp [laterSteps, meets]

theorem mem_laterSteps : .act a ∈ b.laterSteps p ↔ ∃ x ∈ b.later p, a = .store x.1 x.2 := by
  simp [laterSteps, eq_comm]

/-- A rank takes part in a call only if its own checks have passed. -/
theorem starts_of_mem (h : l ∈ meets (b.script p)) : b.Starts p := by
  by_contra hnot
  simp [script, hnot] at h

theorem debug_of_mem (h : .allGatherObject ∈ meets (b.script p)) :
    (b.config p).enableDebugChecks = true := by
  by_contra hnot
  have hs := starts_of_mem h
  by_cases hprobe : b.AsksForTma p ∧ b.CanStage p <;>
    simp [script, hs, debugSteps, hnot, probeSteps, hprobe, setupSteps] at h

theorem asks_of_mem (h : .barrier ∈ meets (b.script p) ∨ .allReduceMin ∈ meets (b.script p)) :
    b.AsksForTma p ∧ b.CanStage p := by
  by_contra hnot
  have hs := h.elim starts_of_mem starts_of_mem
  by_cases hdebug : (b.config p).enableDebugChecks = true <;>
    simp [script, hs, debugSteps, hdebug, probeSteps, hnot, setupSteps] at h

/-- The script around the broadcast. -/
theorem script_broadcast (hs : b.Starts p) : b.script p =
    [.meet .enableSymmMem, .meet (.rendezvous .commBuf), .meet (.rendezvous .signalBuf),
      .meet (.rendezvous .stepPad), .act .pickNonce] ++ .meet .broadcastObjectList ::
        (.act .receiveNonce :: (b.debugSteps p ++ (b.probeSteps p ++ b.laterSteps p))) := by
  simp [script, hs, setupSteps]

/-- The script around the comparison of the nonces. -/
theorem script_debug (hs : b.Starts p) (hd : (b.config p).enableDebugChecks = true) :
    b.script p = setupSteps ++ .meet .allGatherObject ::
      (.act .compareNonces :: (b.probeSteps p ++ b.laterSteps p)) := by
  simp [script, hs, debugSteps, hd]

/-- The script around the probe. -/
theorem script_probe (hs : b.Starts p) (ha : b.AsksForTma p ∧ b.CanStage p) :
    b.script p = (setupSteps ++ (b.debugSteps p ++ [.act .stagePattern])) ++ .meet .barrier ::
      (.act .probe :: .meet .allReduceMin :: .act .readTally :: b.laterSteps p) := by
  simp [script, hs, probeSteps, ha]

theorem notMem_debugSteps (h : a ≠ .compareNonces) : .act a ∉ b.debugSteps p := by
  by_cases hd : (b.config p).enableDebugChecks = true <;> simp [debugSteps, hd, h]

theorem notMem_probeSteps (h₁ : a ≠ .stagePattern) (h₂ : a ≠ .probe) (h₃ : a ≠ .readTally) :
    .act a ∉ b.probeSteps p := by
  by_cases ha : b.AsksForTma p ∧ b.CanStage p <;> simp [probeSteps, ha, h₁, h₂, h₃]

theorem notMem_laterSteps (h : ∀ x y, a ≠ .store x y) : .act a ∉ b.laterSteps p := by
  rw [mem_laterSteps]
  rintro ⟨x, -, rfl⟩
  exact h _ _ rfl

end Scripts

/-! ## The nonce -/

section Nonce

variable {b p} {q : ℕ} {s : State ℕ BootAct BootCall BootMemory} {is : BootScript}

theorem mem_parties : p ∈ b.protocol.parties ↔ p < b.worldSize := Finset.mem_range

/-- Rank 0 keeps the nonce that it has drawn. -/
theorem nonce_zero (h : b.Reaches s) (hs : b.Starts 0) (hdone : .act .pickNonce ∉ s.todo 0) :
    s.mem.nonce 0 = b.nonce := by
  refine Reachable.of_done (Q := fun m => m.nonce 0 = b.nonce) ?_ (fun s is _ _ _ => ?_)
    (fun s p a is _ _ htodo hnot hnonce => ?_) h hdone
  · show _ ∈ b.script 0
    simp [script_broadcast hs]
  · simp [protocol, effect]
  · cases a with
    | pickNonce =>
      have hne : p ≠ 0 := by
        rintro rfl
        simp [htodo] at hnot
      simpa [protocol, effect, hne, Ne.symm hne] using hnonce
    | receiveNonce => by_cases hne : 0 = p <;> simp [protocol, effect, Function.update_apply, hnonce]
    | _ => exact hnonce

/-- What a rank has left to do when it receives the nonce. -/
theorem todo_of_receive (h : b.Reaches s) (hs : b.Starts p)
    (htodo : s.todo p = .act .receiveNonce :: is) :
    is = b.debugSteps p ++ (b.probeSteps p ++ b.laterSteps p) := by
  have hscript := script_broadcast hs
  rw [List.append_cons] at hscript
  refine h.eq_of_next hscript (by simp) ?_ htodo
  simp [notMem_debugSteps, notMem_probeSteps, notMem_laterSteps]

/-- A rank that has received the nonce finds that all have come to the broadcast. -/
theorem todo_of_broadcast (h : b.Reaches s) (hp : p < b.worldSize) (hs : b.Starts p)
    (htodo : s.todo p = .act .receiveNonce :: is) (hq : q < b.worldSize) :
    b.Starts q ∧ .act .pickNonce ∉ s.todo q := by
  have hleft : s.todo p <:+
      .act .receiveNonce :: (b.debugSteps p ++ (b.probeSteps p ++ b.laterSteps p)) := by
    rw [htodo, todo_of_receive h hs htodo]
  have hsq := starts_of_mem (h.mem_meets_of_left (mem_parties.mpr hp) (mem_parties.mpr hq)
    (script_broadcast hs) hleft)
  refine ⟨hsq, fun hmem => ?_⟩
  have hsub := h.suffix_of_left (mem_parties.mpr hp) (mem_parties.mpr hq) (script_broadcast hs)
    hleft (script_broadcast hsq) (by simp [meets]) ?_
  · simpa [notMem_debugSteps, notMem_probeSteps, notMem_laterSteps] using hsub.subset hmem
  · by_cases hd : (b.config q).enableDebugChecks = true <;>
      by_cases ha : b.AsksForTma q ∧ b.CanStage q <;> simp [debugSteps, hd, probeSteps, ha]

/-- **The nonce of a rank that has received one is that of rank 0.** -/
theorem nonce_eq (h : b.Reaches s) (hp : p < b.worldSize) (hs : b.Starts p)
    (hdone : .act .receiveNonce ∉ s.todo p) : s.mem.nonce p = b.nonce := by
  refine Reachable.of_done (Q := fun m => m.nonce p = b.nonce) ?_ (fun s is hreach _ htodo => ?_)
    (fun s q a is hreach _ htodo hnot hnonce => ?_) h hdone
  · show _ ∈ b.script p
    simp [script_broadcast hs]
  · obtain ⟨hs0, hpicked⟩ := todo_of_broadcast hreach hp hs htodo (Nat.zero_lt_of_lt hp)
    simpa [protocol, effect] using nonce_zero hreach hs0 hpicked
  · cases a with
    | pickNonce =>
      have hne : p ≠ q := by
        rintro rfl
        -- the rank draws before it receives
        have hscript : b.script p = [.meet .enableSymmMem, .meet (.rendezvous .commBuf),
            .meet (.rendezvous .signalBuf), .meet (.rendezvous .stepPad)] ++ .act .pickNonce ::
              (.meet .broadcastObjectList :: .act .receiveNonce ::
                (b.debugSteps p ++ (b.probeSteps p ++ b.laterSteps p))) := script_broadcast hs
        have his := hreach.eq_of_next hscript (by simp)
          (by simp [notMem_debugSteps, notMem_probeSteps, notMem_laterSteps]) htodo
        simp [htodo, his] at hnot
      simpa [protocol, effect, hne] using hnonce
    | receiveNonce =>
      have hne : p ≠ q := by
        rintro rfl
        simp [htodo] at hnot
      simpa [protocol, effect, hne] using hnonce
    | _ => exact hnonce

/-- **The comparison of the nonces never fails.** -/
theorem noncesEqual_eq (h : b.Reaches s) (hp : p < b.worldSize) (hs : b.Starts p)
    (hd : (b.config p).enableDebugChecks = true) (hdone : .act .compareNonces ∉ s.todo p) :
    s.mem.noncesEqual p = true := by
  refine Reachable.of_done (Q := fun m => m.noncesEqual p = true) ?_
    (fun s is hreach _ htodo => ?_) (fun s q a is _ _ htodo hnot hequal => ?_) h hdone
  · show _ ∈ b.script p
    simp [script_debug hs hd]
  · -- everybody has received the nonce before the gather
    have hscript := script_debug hs hd
    have hnext : is = b.probeSteps p ++ b.laterSteps p := by
      rw [List.append_cons] at hscript
      refine hreach.eq_of_next hscript (by simp [setupSteps]) ?_ htodo
      simp [notMem_probeSteps, notMem_laterSteps]
    have hleft : s.todo p <:+ .act .compareNonces :: (b.probeSteps p ++ b.laterSteps p) := by
      rw [htodo, hnext]
    have hall : ∀ q < b.worldSize, s.mem.nonce q = b.nonce := by
      intro q hq
      have hmem := hreach.mem_meets_of_left (mem_parties.mpr hp) (mem_parties.mpr hq) hscript hleft
      have hsq := starts_of_mem hmem
      have hscript' := script_debug hsq (debug_of_mem hmem)
      refine nonce_eq hreach hq hsq fun hmem => ?_
      have hsub := hreach.suffix_of_left (mem_parties.mpr hp) (mem_parties.mpr hq) hscript hleft
        hscript' (by simp [setupSteps]) ?_
      · simpa [notMem_probeSteps, notMem_laterSteps] using hsub.subset hmem
      · by_cases ha : b.AsksForTma q ∧ b.CanStage q <;> simp [probeSteps, ha]
    simp only [protocol, effect, Function.update_self, decide_eq_true_eq]
    exact fun q hq => (hall q hq).trans (hall p hp).symm
  · cases a with
    | compareNonces =>
      have hne : p ≠ q := by
        rintro rfl
        simp [htodo] at hnot
      simpa [protocol, effect, hne] using hequal
    | _ => exact hequal

end Nonce

/-! ## The probe -/

section Probe

variable {b p} {q : ℕ} {s : State ℕ BootAct BootCall BootMemory} {is : BootScript}

/-- The rank makes the calls of the probe. -/
structure Probes (b : Bootstrap) (p : ℕ) : Prop where
  starts : b.Starts p
  asks : b.AsksForTma p ∧ b.CanStage p

theorem probes_of_mem (h : .barrier ∈ meets (b.script p) ∨ .allReduceMin ∈ meets (b.script p)) :
    b.Probes p :=
  ⟨h.elim starts_of_mem starts_of_mem, asks_of_mem h⟩

/-- What comes before the barrier of the probe. -/
def stageSteps (b : Bootstrap) (p : ℕ) : BootScript :=
  setupSteps ++ (b.debugSteps p ++ [.act .stagePattern])

theorem Probes.script_barrier (h : b.Probes p) : b.script p = b.stageSteps p ++ .meet .barrier ::
    (.act .probe :: .meet .allReduceMin :: .act .readTally :: b.laterSteps p) :=
  script_probe h.starts h.asks

theorem Probes.script_allReduce (h : b.Probes p) : b.script p =
    (b.stageSteps p ++ [.meet .barrier, .act .probe]) ++ .meet .allReduceMin ::
      (.act .readTally :: b.laterSteps p) := by
  simp [h.script_barrier]

@[simp] theorem mem_stageSteps {a : BootAct} : .act a ∈ b.stageSteps p ↔
    a = .pickNonce ∨ a = .receiveNonce ∨ .act a ∈ b.debugSteps p ∨ a = .stagePattern := by
  simp [stageSteps, setupSteps]

theorem meets_stageSteps {l : BootCall} (h : l = .barrier ∨ l = .allReduceMin) :
    l ∉ meets (b.stageSteps p) := by
  by_cases hd : (b.config p).enableDebugChecks = true <;>
    rcases h with rfl | rfl <;> simp [stageSteps, setupSteps, debugSteps, hd]

theorem Probes.script_stage (h : b.Probes p) : b.script p =
    (setupSteps ++ b.debugSteps p) ++ .act .stagePattern :: (.meet .barrier :: .act .probe ::
      .meet .allReduceMin :: .act .readTally :: b.laterSteps p) := by
  simp [h.script_barrier, stageSteps]

theorem Probes.script_read (h : b.Probes p) : b.script p =
    (b.stageSteps p ++ [.meet .barrier, .act .probe, .meet .allReduceMin]) ++
      .act .readTally :: b.laterSteps p := by
  simp [h.script_barrier]

/-- A rank stores into its communication buffer after the probe only. -/
theorem Probes.notMem_of_store (hp : b.Probes p) (h : b.Reaches s) {x y : ℕ}
    (htodo : s.todo p = .act (.store x y) :: is) :
    .act .stagePattern ∉ s.todo p ∧ .act .readTally ∉ s.todo p := by
  have hsuffix : .act (.store x y) :: is <:+ b.script p := htodo ▸ h.todo_suffix p
  rw [htodo]
  constructor
  · intro hmem
    rw [hp.script_stage] at hsuffix
    rcases mem_of_next hsuffix hmem (by simp [notMem_laterSteps]) with heq | hpre
    · cases heq
    · simp [setupSteps, notMem_debugSteps] at hpre
  · intro hmem
    rw [hp.script_read] at hsuffix
    rcases mem_of_next hsuffix hmem (by simp [notMem_laterSteps]) with heq | hpre
    · cases heq
    · simp [notMem_debugSteps] at hpre

/-- **The communication buffer of a rank during the probe**: zero, and then its pattern, until
the verdict has been read. -/
theorem Probes.commBuf_eq (hp : b.Probes p) (h : b.Reaches s) :
    (.act .stagePattern ∈ s.todo p → s.mem.commBuf p = fun _ => 0) ∧
      (.act .stagePattern ∉ s.todo p → .act .readTally ∈ s.todo p →
        s.mem.commBuf p = staged p) := by
  refine Reachable.act_invariant (I := fun m todo =>
    (.act .stagePattern ∈ todo p → m.commBuf p = fun _ => 0) ∧
      (.act .stagePattern ∉ todo p → .act .readTally ∈ todo p → m.commBuf p = staged p))
    ⟨fun _ => rfl, fun hnot => absurd ?_ hnot⟩ (fun m todo todo' hsame hI => ?_)
    (fun s q a is hreach hI _ htodo => ?_) h
  · show _ ∈ b.script p
    simp [hp.script_barrier]
  · rwa [hsame, hsame]
  by_cases hne : p = q
  case neg =>
    have hframe : (b.protocol.effect q a s.mem).commBuf p = s.mem.commBuf p := by
      cases a <;> simp [protocol, effect, hne]
    simpa [hframe, State.run, hne] using hI
  subst hne
  have htodo' : (s.run b.protocol p a is).todo p = is := by simp [State.run]
  rw [htodo']
  -- an action that leaves the buffer alone
  have hkeep : (b.protocol.effect p a s.mem).commBuf p = s.mem.commBuf p →
      a ≠ .stagePattern →
      (.act .stagePattern ∈ is → (b.protocol.effect p a s.mem).commBuf p = fun _ => 0) ∧
        (.act .stagePattern ∉ is → .act .readTally ∈ is →
          (b.protocol.effect p a s.mem).commBuf p = staged p) := by
    intro hframe hne
    rw [hframe]
    rw [htodo] at hI
    exact ⟨fun hmem => hI.1 (List.mem_cons_of_mem _ hmem), fun hnot hmem =>
      hI.2 (by simp [hnot, Ne.symm hne]) (List.mem_cons_of_mem _ hmem)⟩
  cases a with
  | stagePattern =>
    have his := hreach.eq_of_next hp.script_stage (by simp [setupSteps, notMem_debugSteps])
      (by simp [notMem_laterSteps]) htodo
    have hzero := hI.1 (by simp [htodo])
    refine ⟨fun hmem => ?_, fun _ _ => ?_⟩
    · simp [his, notMem_laterSteps] at hmem
    · funext addr
      simp [State.run, protocol, effect, hzero, staged]
  | store x y =>
    obtain ⟨hstage, hread⟩ := hp.notMem_of_store hreach htodo
    rw [htodo, List.mem_cons, not_or] at hstage hread
    exact ⟨fun hmem => absurd hmem hstage.2, fun _ hmem => absurd hmem hread.2⟩
  | _ => exact hkeep rfl (by simp)

/-- The buffers of other ranks than those of the world are as allocated. -/
theorem commBuf_of_le (h : b.Reaches s) (hq : b.worldSize ≤ q) :
    s.mem.commBuf q = fun _ => 0 := by
  refine Reachable.act_invariant
    (I := fun (m : BootMemory) (_ : ℕ → BootScript) => m.commBuf q = fun _ => 0) rfl
    (fun _ _ _ _ hI => hI) (fun s p a is _ hI hp _ => ?_) h
  have hne : q ≠ p := Nat.ne_of_gt ((mem_parties.mp hp).trans_le hq)
  have hframe : (b.protocol.effect p a s.mem).commBuf q = s.mem.commBuf q := by
    cases a <;> simp [protocol, effect, hne]
  exact hframe.trans hI

/-- **What a rank that probes finds in the communication buffers**: the pattern of every rank,
whatever the others have gone on to do. -/
theorem Probes.commBuf_of_probe (hp : b.Probes p) (hlt : p < b.worldSize) (h : b.Reaches s)
    (htodo : s.todo p = .act .probe :: is) :
    s.mem.commBuf = fun q addr => if q < b.worldSize then staged q addr else 0 := by
  have his : is = .meet .allReduceMin :: .act .readTally :: b.laterSteps p := by
    have hscript := hp.script_barrier
    rw [List.append_cons] at hscript
    exact h.eq_of_next hscript (by simp [notMem_debugSteps]) (by simp [notMem_laterSteps]) htodo
  have hleft : s.todo p <:+ .act .probe :: .meet .allReduceMin :: .act .readTally ::
      b.laterSteps p := by
    rw [htodo, his]
  funext q
  by_cases hq : q < b.worldSize
  case neg => simp [commBuf_of_le h (Nat.le_of_not_lt hq), hq]
  have hq' : b.Probes q := probes_of_mem (Or.inl (h.mem_meets_of_left (mem_parties.mpr hlt)
    (mem_parties.mpr hq) hp.script_barrier hleft))
  -- the other rank has staged its pattern
  have hstaged : .act .stagePattern ∉ s.todo q := by
    intro hmem
    have hsub := h.suffix_of_left (mem_parties.mpr hlt) (mem_parties.mpr hq) hp.script_barrier
      hleft hq'.script_barrier (meets_stageSteps (Or.inl rfl)) (by simp)
    simpa [notMem_laterSteps] using hsub.subset hmem
  -- and it waits for the verdict of this one
  have hread : .act .readTally ∈ s.todo q := by
    by_contra hnot
    have hsuffix : s.todo q <:+ b.script q := h.todo_suffix q
    rw [hq'.script_read] at hsuffix
    have hq'' := suffix_of_notMem hsuffix hnot
    have hsub := h.suffix_of_left (mem_parties.mpr hq) (mem_parties.mpr hlt)
      hq'.script_allReduce (hq''.trans (List.suffix_cons _ _)) hp.script_allReduce ?_ (by simp)
    · have hmem : .act .probe ∈ s.todo p := by simp [htodo]
      simpa [notMem_laterSteps] using hsub.subset hmem
    · simpa using meets_stageSteps (Or.inr rfl)
  simp [(hq'.commBuf_eq h).2 hstaged hread, hq]

/-- **The outcome of a probe** is what the hardware makes of the patterns. -/
theorem Probes.localOk_eq (hp : b.Probes p) (hlt : p < b.worldSize) (h : b.Reaches s)
    (hdone : .act .probe ∉ s.todo p) : s.mem.localOk p = decide (b.Passes p) := by
  refine Reachable.of_done (Q := fun m => m.localOk p = decide (b.Passes p)) ?_
    (fun s is hreach _ htodo => ?_) (fun s q a is _ _ htodo hnot hok => ?_) h hdone
  · show _ ∈ b.script p
    simp [hp.script_barrier]
  · simp only [protocol, effect, Function.update_self]
    rw [hp.commBuf_of_probe hlt hreach htodo]
    rfl
  · cases a with
    | probe =>
      have hne : p ≠ q := by
        rintro rfl
        simp [htodo] at hnot
      simpa [protocol, effect, hne] using hok
    | _ => exact hok

/-- **The verdict**: TMA is supported if every rank has passed. -/
theorem Probes.verdict_eq (hp : b.Probes p) (hlt : p < b.worldSize) (h : b.Reaches s)
    (hdone : .act .readTally ∉ s.todo p) :
    s.mem.verdict p = decide (∀ q < b.worldSize, b.Passes q) := by
  refine Reachable.of_done
    (Q := fun m => m.verdict p = decide (∀ q < b.worldSize, b.Passes q)) ?_
    (fun s is hreach _ htodo => ?_) (fun s q a is _ _ htodo hnot hverdict => ?_) h hdone
  · show _ ∈ b.script p
    simp [hp.script_barrier]
  · have his := hreach.eq_of_next hp.script_read (by simp [notMem_debugSteps])
      (by simp [notMem_laterSteps]) htodo
    have hleft : s.todo p <:+ .act .readTally :: b.laterSteps p := by
      rw [htodo, his]
    have hall : ∀ q < b.worldSize, s.mem.localOk q = decide (b.Passes q) := by
      intro q hq
      have hq' : b.Probes q := probes_of_mem (Or.inr (hreach.mem_meets_of_left
        (mem_parties.mpr hlt) (mem_parties.mpr hq) hp.script_allReduce hleft))
      refine hq'.localOk_eq hq hreach fun hmem => ?_
      have hsub := hreach.suffix_of_left (mem_parties.mpr hlt) (mem_parties.mpr hq)
        hp.script_allReduce hleft hq'.script_allReduce ?_ (by simp)
      · simpa [notMem_laterSteps] using hsub.subset hmem
      · simpa using meets_stageSteps (Or.inr rfl)
    simp only [protocol, effect, Function.update_self, decide_eq_decide]
    exact forall₂_congr fun q hq => by rw [hall q hq, decide_eq_true_eq]
  · cases a with
    | readTally =>
      have hne : p ≠ q := by
        rintro rfl
        simp [htodo] at hnot
      simpa [protocol, effect, hne] using hverdict
    | _ => exact hverdict

end Probe

/-! ## All constructors -/

section Constructors

variable {b p} {q : ℕ} {s : State ℕ BootAct BootCall BootMemory}

/-- What is over when a constructor has come to its end. -/
theorem Constructed.notMem (h : b.Constructed p s) {a : BootAct} (ha : ∀ x y, a ≠ .store x y) :
    .act a ∉ s.todo p := by
  intro hmem
  have hmem := h.subset hmem
  split at hmem
  · exact notMem_laterSteps ha hmem
  · cases hmem

theorem nonce_odd : b.nonce % 2 = 1 := by
  have h : (b.secretBits ||| 1) % 2 = 1 := by simp [Nat.or_mod_two_eq_one]
  unfold nonce
  omega

/-- What a constructor that has come to its end makes of its local variables. -/
theorem result_eq (h : b.Reaches s) (hp : p < b.worldSize) (hc : b.Constructed p s) :
    b.result p s.mem = b.expected p := by
  unfold result expected
  by_cases hs : b.Starts p
  case neg =>
    -- the local checks raise, whatever the process group would have delivered
    obtain ⟨e, he⟩ : ∃ e, Runtime.localChecks (b.config p) (b.host p) = .error e := by
      cases hchecks : Runtime.localChecks (b.config p) (b.host p) with
      | error e => exact ⟨e, rfl⟩
      | ok => exact absurd hchecks hs
    rw [if_neg (fun h => hs h.1), if_neg (fun h => hs h.1), if_neg (fun h => hs h.1),
      Runtime.init_eq_error_of_localChecks (Runtime.localChecks_congr.trans he),
      Runtime.init_eq_error_of_localChecks (Runtime.localChecks_congr.trans he)]
  have hequal : ¬ (b.Starts p ∧ (b.config p).enableDebugChecks = true ∧
      s.mem.noncesEqual p = false) := by
    rintro ⟨-, hd, hfalse⟩
    rw [noncesEqual_eq h hp hs hd (hc.notMem (by simp))] at hfalse
    cases hfalse
  rw [if_neg hequal, nonce_eq h hp hs (hc.notMem (by simp))]
  by_cases hstage : b.Starts p ∧ b.AsksForTma p ∧ ¬ b.CanStage p
  · rw [if_pos hstage, if_pos hstage]
  rw [if_neg hstage, if_neg hstage]
  by_cases ha : b.AsksForTma p
  · have hprobes : b.Probes p := ⟨hs, ha, by_contra fun hnot => hstage ⟨hs, ha, hnot⟩⟩
    rw [hprobes.verdict_eq hp h (hc.notMem (by simp))]
  · exact Runtime.init_congr_of_not_asks ha

/-- **The constructors agree.**  What the constructor of a rank returns or raises is what it
does with the nonce of rank 0 and the common verdict, in every order of the ranks' steps. -/
theorem constructors_agree (h : b.Reaches s) (hp : p < b.worldSize) (hc : b.Constructed p s) :
    b.result p s.mem = b.expected p ∧
      ∀ rt, b.result p s.mem = .ok rt → rt.sessionNonce = b.nonce ∧ rt.sessionNonce % 2 = 1 ∧
        (rt.tmaEnabled = true → ∀ q < b.worldSize, b.Passes q) := by
  have hresult := result_eq h hp hc
  refine ⟨hresult, fun rt hrt => ?_⟩
  rw [hresult, expected] at hrt
  split at hrt
  · cases hrt
  · obtain ⟨hnonce, htma⟩ := Runtime.of_init_eq_ok hrt
    exact ⟨hnonce, hnonce.symm ▸ nonce_odd, fun h => of_decide_eq_true (htma h).2⟩

/-- The calls of the ranks that raise nothing of their own are told by two flags. -/
theorem meets_script (hs : b.Starts p) (hstage : b.AsksForTma p → b.CanStage p) :
    meets (b.script p) = [.enableSymmMem, .rendezvous .commBuf, .rendezvous .signalBuf,
      .rendezvous .stepPad, .broadcastObjectList] ++
        ((if (b.config p).enableDebugChecks then [.allGatherObject] else []) ++
          if b.AsksForTma p then [.barrier, .allReduceMin] else []) := by
  by_cases hd : (b.config p).enableDebugChecks = true <;> by_cases ha : b.AsksForTma p <;>
    simp [script, hs, setupSteps, debugSteps, hd, probeSteps, ha, hstage]

/-- The constructors of all ranks have come to their ends when no call is left. -/
theorem meets_of_constructed (hc : b.Constructed p s) : meets (s.todo p) = [] := by
  unfold Constructed at hc
  split at hc
  · have hsuffix := meets_suffix hc
    rwa [meets_laterSteps, List.suffix_nil] at hsuffix
  · rw [List.suffix_nil.mp hc]
    rfl

theorem constructed_of_finished (h : Finished b.protocol s) (hp : p < b.worldSize) :
    b.Constructed p s := by
  rw [Constructed, h p (mem_parties.mpr hp)]
  exact List.nil_suffix

/-- The flags that decide which calls a rank makes are those of another. -/
def SameFlags (b : Bootstrap) (p q : ℕ) : Prop :=
  (b.config p).enableDebugChecks = (b.config q).enableDebugChecks ∧
    (b.AsksForTma p ↔ b.AsksForTma q)

theorem sameFlags_iff (hp : b.Starts p ∧ (b.AsksForTma p → b.CanStage p))
    (hq : b.Starts q ∧ (b.AsksForTma q → b.CanStage q)) :
    meets (b.script p) = meets (b.script q) ↔ b.SameFlags p q := by
  rw [meets_script hp.1 hp.2, meets_script hq.1 hq.2, SameFlags]
  by_cases hd : (b.config p).enableDebugChecks = true <;>
    by_cases hd' : (b.config q).enableDebugChecks = true <;>
    by_cases ha : b.AsksForTma p <;> by_cases ha' : b.AsksForTma q <;> simp [hd, hd', ha, ha']

/-- **All constructors come to their ends exactly if the ranks agree** on the debug checks and
on TMA; and then they do so from every state that is reached. -/
theorem all_constructed_iff
    (hlocal : ∀ p < b.worldSize, b.Starts p ∧ (b.AsksForTma p → b.CanStage p)) :
    ((∃ s, b.Reaches s ∧ ∀ p < b.worldSize, b.Constructed p s) ↔
      ∀ p < b.worldSize, ∀ q < b.worldSize, b.SameFlags p q) ∧
    ((∀ p < b.worldSize, ∀ q < b.worldSize, b.SameFlags p q) → ∀ s, b.Reaches s →
      ∃ s', Relation.ReflTransGen (Step b.protocol) s s' ∧
        ∀ p < b.worldSize, b.Constructed p s') := by
  have hagree : (∀ p < b.worldSize, ∀ q < b.worldSize, b.SameFlags p q) ↔
      ∀ p ∈ b.protocol.parties, ∀ q ∈ b.protocol.parties,
        meets (b.protocol.script p) = meets (b.protocol.script q) := by
    simp only [mem_parties]
    exact forall₂_congr fun p hp => forall₂_congr fun q hq =>
      (sameFlags_iff (hlocal p hp) (hlocal q hq)).symm
  have hfinish : (∀ p < b.worldSize, ∀ q < b.worldSize, b.SameFlags p q) → ∀ s, b.Reaches s →
      ∃ s', Relation.ReflTransGen (Step b.protocol) s s' ∧
        ∀ p < b.worldSize, b.Constructed p s' := by
    intro hsame s h
    obtain ⟨s', hreach, hfinished⟩ := h.exists_finished (hagree.mp hsame)
    exact ⟨s', hreach, fun p hp => constructed_of_finished hfinished hp⟩
  refine ⟨⟨fun ⟨s, h, hall⟩ => hagree.mpr (exists_left_iff.mp ⟨s, h, fun p hp => ?_⟩),
    fun hsame => hfinish hsame _ .refl⟩, hfinish⟩
  exact meets_of_constructed (hall p (mem_parties.mp hp))

end Constructors

/-! ## Reading from the wrong rank -/

section WrongRank

variable {b p} {s : State ℕ BootAct BootCall BootMemory} {r r' : ℕ}

/-- **Two ranks have the same pattern exactly if they are equal modulo 256.** -/
theorem pattern_eq_iff : patternBytes r = patternBytes r' ↔ r % 256 = r' % 256 := by
  have hbyte : ∀ r i, pattern r i = ((r + 1) * 131 + i * 17) % 256 := fun r i =>
    Nat.and_two_pow_sub_one_eq_mod _ 8
  rw [patternBytes, patternBytes, List.map_inj_left]
  simp only [List.mem_range, hbyte]
  constructor
  · intro h
    have h0 := h 0 (by decide)
    omega
  · intro h i _
    omega

/-- A load from the buffer of a rank of the world finds the pattern of that rank. -/
theorem passes_iff (hr : r < b.worldSize)
    (htma : ∀ m, b.tma p m = some ((List.range probeBytes).map (m r))) :
    b.Passes p ↔ r % 256 = b.peer p % 256 := by
  have hread : (List.range probeBytes).map (fun addr => if r < b.worldSize then staged r addr else 0)
      = patternBytes r := by
    refine List.map_congr_left fun addr haddr => ?_
    rw [if_pos hr, staged, if_pos (List.mem_range.mp haddr)]
  rw [Passes, htma, Option.some_inj, hread, pattern_eq_iff]

/-- **The probe detects a load from the wrong rank**, up to ranks that are equal modulo 256: a
rank that asks for TMA gets it exactly if every rank loads from its peer. -/
theorem probe_detects_wrong_peer {aim : ℕ → ℕ} (h : b.Reaches s) (hp : p < b.worldSize)
    (hc : b.Constructed p s) (hprobes : b.Probes p)
    (htma : ∀ q < b.worldSize, aim q < b.worldSize ∧
      ∀ m, b.tma q m = some ((List.range probeBytes).map (m (aim q)))) :
    ((∃ rt, b.result p s.mem = .ok rt ∧ rt.tmaEnabled = true) ↔
      ∀ q < b.worldSize, aim q % 256 = b.peer q % 256) ∧
    (b.worldSize ≤ 256 → ((∃ rt, b.result p s.mem = .ok rt ∧ rt.tmaEnabled = true) ↔
      ∀ q < b.worldSize, aim q = b.peer q)) := by
  have hiff : (∃ rt, b.result p s.mem = .ok rt ∧ rt.tmaEnabled = true) ↔
      ∀ q < b.worldSize, aim q % 256 = b.peer q % 256 := by
    have hnonce : b.nonce ≠ 0 := by
      have hodd := nonce_odd (b := b)
      omega
    rw [result_eq h hp hc, expected, if_neg fun hnot => hnot.2.2 hprobes.asks.2,
      Runtime.init_ok_iff hprobes.starts hnonce hprobes.asks.1, decide_eq_true_eq]
    exact forall₂_congr fun q hq => passes_iff (htma q hq).1 (htma q hq).2
  refine ⟨hiff, fun hsmall => hiff.trans (forall₂_congr fun q hq => ?_)⟩
  have haim := (htma q hq).1
  have hpeer : b.peer q < b.worldSize := Nat.mod_lt _ (Nat.zero_lt_of_lt hp)
  rw [Nat.mod_eq_of_lt (haim.trans_le hsmall), Nat.mod_eq_of_lt (hpeer.trans_le hsmall)]

end WrongRank

/-! ## Two ranks -/

section TwoRanks

/-- A configuration that asks for TMA, with debug checks. -/
def tmaConfig : Config := { Config.default with useTma := true, enableDebugChecks := true }

/-- Two ranks on devices of a kind, whose descriptors load from the peer.  The first rank reuses
its communication buffer as soon as it is constructed. -/
def pairBootstrap (config : ℕ → Config) : Bootstrap where
  worldSize := 2
  config := config
  host p :=
    { Runtime.smallHost [] with
      rank := p % 2
      worldSize := 2
      rank_lt := Nat.mod_lt p (by decide) }
  secretBits := 6
  tma p m := some ((List.range probeBytes).map (m ((p + 1) % 2)))
  later p := if p = 0 then [(0, 255), (1, 255)] else []

theorem pairBootstrap_local {config : ℕ → Config}
    (h : ∀ p, config p = tmaConfig ∨ config p = Config.default) (p : ℕ) :
    (pairBootstrap config).Starts p ∧
      ((pairBootstrap config).AsksForTma p → (pairBootstrap config).CanStage p) := by
  have hstarts : ∀ c, c = tmaConfig ∨ c = Config.default →
      Runtime.localChecks c ((pairBootstrap config).host p) = .ok () ∧
        probeBytes ≤ c.maxCollectiveBytes := by
    rintro c (rfl | rfl) <;> exact ⟨rfl, by decide⟩
  exact ⟨(hstarts _ (h p)).1, fun _ => (hstarts _ (h p)).2⟩

/-- Both constructors come to their ends in some run. -/
theorem exists_pairConstructed : ∃ s, (pairBootstrap fun _ => tmaConfig).Reaches s ∧
    ∀ p < 2, (pairBootstrap fun _ => tmaConfig).Constructed p s := by
  have hstart : (pairBootstrap fun _ => tmaConfig).Reaches
      ((pairBootstrap fun _ => tmaConfig).protocol.start initial) := .refl
  obtain ⟨s, h, hfinished⟩ := hstart.exists_finished fun p _ q _ =>
    (sameFlags_iff (pairBootstrap_local (fun _ => Or.inl rfl) p)
      (pairBootstrap_local (fun _ => Or.inl rfl) q)).mpr ⟨rfl, Iff.rfl⟩
  exact ⟨s, h, fun p hp => constructed_of_finished hfinished hp⟩

theorem pairBootstrap_passes {config : ℕ → Config} (q : ℕ) : (pairBootstrap config).Passes q :=
  (passes_iff (Nat.mod_lt (q + 1) Nat.two_pos) fun _ => rfl).mpr rfl

theorem pairBootstrap_probes (p : ℕ) : (pairBootstrap fun _ => tmaConfig).Probes p :=
  have hlocal := pairBootstrap_local (fun _ => Or.inl rfl) p
  ⟨hlocal.1, ⟨rfl, rfl⟩, hlocal.2 ⟨rfl, rfl⟩⟩

/-- Rank 1 gets TMA and the nonce 7. -/
theorem constructors_agree_witness : ∃ s rt, (pairBootstrap fun _ => tmaConfig).Reaches s ∧
    (pairBootstrap fun _ => tmaConfig).result 1 s.mem = .ok rt ∧ rt.sessionNonce = 7 ∧
      rt.tmaEnabled = true := by
  obtain ⟨s, h, hc⟩ := exists_pairConstructed
  obtain ⟨hresult, hok⟩ := constructors_agree h Nat.one_lt_two (hc 1 Nat.one_lt_two)
  have hprobes := pairBootstrap_probes 1
  obtain ⟨rt, hrt, htma⟩ : ∃ rt, (pairBootstrap fun _ => tmaConfig).expected 1 = .ok rt ∧
      rt.tmaEnabled = true := by
    rw [expected, if_neg fun hnot => hnot.2.2 hprobes.asks.2]
    exact (Runtime.init_ok_iff hprobes.starts (by decide) hprobes.asks.1).mpr
      (decide_eq_true fun q _ => pairBootstrap_passes q)
  exact ⟨s, rt, h, hresult.trans hrt, (hok rt (hresult.trans hrt)).1, htma⟩

/-- Two ranks that both ask for TMA are constructed, and the first of them alone is not. -/
theorem all_constructed_iff_witness :
    (∃ s, (pairBootstrap fun _ => tmaConfig).Reaches s ∧
      ∀ p < 2, (pairBootstrap fun _ => tmaConfig).Constructed p s) ∧
    ¬ ∃ s, (pairBootstrap fun p => if p = 0 then tmaConfig else Config.default).Reaches s ∧
      ∀ p < 2, (pairBootstrap fun p => if p = 0 then tmaConfig else Config.default).Constructed
        p s := by
  constructor
  · exact (all_constructed_iff fun p _ => pairBootstrap_local (fun _ => Or.inl rfl) p).1.mpr
      fun _ _ _ _ => ⟨rfl, Iff.rfl⟩
  · intro hex
    have hconfig : ∀ p : ℕ, (if p = 0 then tmaConfig else Config.default) = tmaConfig ∨
        (if p = 0 then tmaConfig else Config.default) = Config.default := fun p => by
      by_cases hp : p = 0 <;> simp [hp]
    have hlocal := pairBootstrap_local hconfig
    have hflags := (all_constructed_iff fun p _ => hlocal p).1.mp hex 0 Nat.two_pos 1 Nat.one_lt_two
    cases hflags.1

/-- The theorem for the two ranks, which load from their peers. -/
theorem probe_detects_wrong_peer_witness : ∃ s rt, (pairBootstrap fun _ => tmaConfig).Reaches s ∧
    (pairBootstrap fun _ => tmaConfig).result 0 s.mem = .ok rt ∧ rt.tmaEnabled = true := by
  obtain ⟨s, h, hc⟩ := exists_pairConstructed
  have haim : ∀ q < 2, (q + 1) % 2 < 2 ∧ ∀ m, (pairBootstrap fun _ => tmaConfig).tma q m =
      some ((List.range probeBytes).map (m ((q + 1) % 2))) :=
    fun q _ => ⟨Nat.mod_lt _ Nat.two_pos, fun _ => rfl⟩
  obtain ⟨rt, hrt, htma⟩ := ((probe_detects_wrong_peer h Nat.two_pos (hc 0 Nat.two_pos)
    (pairBootstrap_probes 0) haim).2 (by decide)).mpr fun _ _ => rfl
  exact ⟨s, rt, h, hrt, htma⟩

end TwoRanks

end Bootstrap

end GroupFreeCollectives
