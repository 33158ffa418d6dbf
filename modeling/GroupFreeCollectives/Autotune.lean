import GroupFreeCollectives.Config
import GroupFreeCollectives.Kernels.Common

/-!
# The autotune table

`gfc/autotune.py`: rules, the check of the constructor, and the lookup.  A rule is what
the JSON object of the table holds; a missing key is `none`, except where the source
puts the default into the lookup.  `policyFor` is `policy_for`, the first rule that
matches and names a path.
-/

namespace GroupFreeCollectives

/-- `_KNOWN_PATHS`. -/
inductive Path where
  | vecPull
  | fused
  | tma
  | copyEngine
  | pipelined
  deriving DecidableEq, Repr

namespace Path

/-- The names of the paths in a table. -/
def name : Path → String
  | .vecPull => "vec_pull"
  | .fused => "fused"
  | .tma => "tma"
  | .copyEngine => "copy_engine"
  | .pipelined => "pipelined"

/-- All known paths, in the order of `_KNOWN_PATHS`. -/
def known : List Path := [.vecPull, .fused, .tma, .copyEngine, .pipelined]

/-- The known path of a name. -/
def ofName (s : String) : Option Path := known.find? fun p => p.name = s

theorem ofName_name (p : Path) : ofName p.name = some p := by
  cases p <;> decide

theorem name_of_ofName {p : Path} {s : String} (h : ofName s = some p) : p.name = s := by
  unfold ofName at h
  have hname := List.find?_some h
  exact of_decide_eq_true hname

end Path

/-- The knobs of a rule that the runtime reads, as integers; `none` when absent. -/
structure Knobs where
  copySms : Option ℤ := none
  fusedNumChannels : Option ℤ := none
  fusedChunkSize : Option ℤ := none
  pipelineChunks : Option ℤ := none
  deriving DecidableEq, Repr

/-- The dataclass `Policy`. -/
structure Policy where
  path : Path
  knobs : Knobs
  deriving DecidableEq, Repr

/-- A rule of a table.  `groupSize` is `none` for `"*"`. -/
structure Rule where
  collective : String := "*"
  groupSize : Option ℤ := none
  minBytes : ℤ := 0
  maxBytes : Option ℤ := none
  path : Option String := none
  knobs : Knobs := {}
  deriving DecidableEq, Repr

/-- A string in Python's `repr` format, for strings without quotes or escapes. -/
def pyRepr (s : String) : String := "'" ++ s ++ "'"

/-- The check of a rule in `AutotuneTable.__init__`. -/
def Rule.check (r : Rule) : Except PyError Unit :=
  match r.path with
  | none => pure ()
  | some path =>
    let knownPaths := "(" ++ ", ".intercalate (Path.known.map fun p => pyRepr p.name) ++ ")"
    require (Path.ofName path).isSome
      s!"autotune rule references unknown path {pyRepr path}; expected one of {knownPaths}"

/-- An accepted table: its rules name known paths or none. -/
structure AutotuneTable where
  rules : List Rule
  rules_check : ∀ r ∈ rules, r.check = .ok ()

namespace AutotuneTable

/-- `AutotuneTable.__init__` checks the rules in order. -/
def init (rules : List Rule) : Except PyError Unit := forM rules Rule.check

theorem init_eq_ok_iff {rules : List Rule} :
    init rules = .ok () ↔ ∀ r ∈ rules, r.check = .ok () := by
  unfold init
  induction rules with
  | nil => simp [pure, Except.pure]
  | cons r rs ih =>
    rw [List.forM_cons, List.forall_mem_cons, ← ih]
    cases h : r.check <;> simp [bind, Except.bind]

/-- Every table the constructor accepts is an `AutotuneTable`. -/
theorem exists_of_init {rules : List Rule} (h : init rules = .ok ()) :
    ∃ t : AutotuneTable, t.rules = rules := ⟨⟨rules, init_eq_ok_iff.mp h⟩, rfl⟩

/-- `AutotuneTable.from_json`, given the two keys it reads of the file. -/
def fromJson (version : ℤ) (rules : List Rule) : Except PyError AutotuneTable := do
  require (version = 1) s!"unsupported autotune config version {version}; this build expects 1"
  match h : init rules with
  | .ok _ => pure ⟨rules, init_eq_ok_iff.mp h⟩
  | .error e => throw e

end AutotuneTable

/-- The name of a collective in queries. -/
def Collective.autotuneName : Collective → String
  | .allGather => "allgather"
  | .all2All => "all2all"

/-- The tests of `policy_for` on one rule. -/
def Rule.isMatch (r : Rule) (collective : Collective) (groupSize sliceBytes : ℕ) : Bool :=
  (r.collective = "*" ∨ r.collective = collective.autotuneName) ∧
    (r.groupSize = none ∨ r.groupSize = some (groupSize : ℤ)) ∧ r.minBytes ≤ sliceBytes ∧
      r.maxBytes.all fun m => (sliceBytes : ℤ) ≤ m

/-- The policy of a rule: none if it names no path. -/
def Rule.policy (r : Rule) : Option Policy :=
  (r.path.bind Path.ofName).map fun path => ⟨path, r.knobs⟩

/-- `policy_for`: the policy of the first rule that matches and names a path. -/
def AutotuneTable.policyFor (t : AutotuneTable) (collective : Collective)
    (groupSize sliceBytes : ℕ) : Option Policy :=
  t.rules.findSome? fun r => if r.isMatch collective groupSize sliceBytes then r.policy else none

/-- `max_fused_num_channels`: the largest channel count that a `fused` rule names. -/
def AutotuneTable.maxFusedNumChannels (t : AutotuneTable) : ℤ :=
  t.rules.foldl (fun mx r =>
    if r.path = some Path.fused.name then max mx (r.knobs.fusedNumChannels.getD 0) else mx) 0

theorem le_foldl_max_of_mem {α : Type} {p : α → Prop} [DecidablePred p] {f : α → ℤ} {l : List α}
    {x : α} (hx : x ∈ l) (hp : p x) (mx : ℤ) :
    f x ≤ l.foldl (fun mx y => if p y then max mx (f y) else mx) mx := by
  have hge : ∀ (l : List α) (mx : ℤ),
      mx ≤ l.foldl (fun mx y => if p y then max mx (f y) else mx) mx := by
    intro l
    induction l with
    | nil =>
      intro mx
      exact le_refl mx
    | cons y l ih =>
      intro mx
      rw [List.foldl_cons]
      refine le_trans ?_ (ih _)
      split
      · exact le_max_left _ _
      · exact le_refl mx
  induction l generalizing mx with
  | nil => cases hx
  | cons y l ih =>
    rw [List.foldl_cons]
    rcases List.mem_cons.mp hx with rfl | hx
    · rw [if_pos hp]
      exact le_trans (le_max_right _ _) (hge l _)
    · exact ih hx _

/-- The maximum bounds the channel count of every `fused` rule that names one. -/
theorem AutotuneTable.le_maxFusedNumChannels {t : AutotuneTable} {r : Rule} (hr : r ∈ t.rules)
    (hpath : r.path = some Path.fused.name) {c : ℤ} (hc : r.knobs.fusedNumChannels = some c) :
    c ≤ t.maxFusedNumChannels := by
  have h := le_foldl_max_of_mem (p := fun r : Rule => r.path = some Path.fused.name)
    (f := fun r => r.knobs.fusedNumChannels.getD 0) hr hpath 0
  rwa [hc] at h

/-- A selected policy is that of a rule which names its path. -/
theorem AutotuneTable.exists_rule_of_policyFor {t : AutotuneTable} {kind : Collective}
    {groupSize sliceBytes : ℕ} {policy : Policy}
    (h : t.policyFor kind groupSize sliceBytes = some policy) :
    ∃ r ∈ t.rules, r.path = some policy.path.name ∧ policy.knobs = r.knobs := by
  obtain ⟨r, hr, hpol⟩ := List.exists_of_findSome?_eq_some h
  split at hpol
  case isFalse => cases hpol
  case isTrue =>
    unfold Rule.policy at hpol
    obtain ⟨path, hpath, rfl⟩ := Option.map_eq_some_iff.mp hpol
    obtain ⟨name, hname, hof⟩ := Option.bind_eq_some_iff.mp hpath
    exact ⟨r, hr, by rw [hname, Path.name_of_ofName hof], rfl⟩

/-- A path that is named in an accepted table is not skipped: its rule has a policy. -/
theorem AutotuneTable.policy_isSome {t : AutotuneTable} {r : Rule} (hr : r ∈ t.rules)
    (hp : r.path.isSome) : r.policy.isSome := by
  obtain ⟨path, hpath⟩ := Option.isSome_iff_exists.mp hp
  have h := t.rules_check r hr
  unfold Rule.check at h
  rw [hpath] at h
  have hname := require_eq_ok_iff.mp h
  unfold Rule.policy
  rw [hpath, Option.isSome_map]
  exact hname

end GroupFreeCollectives
