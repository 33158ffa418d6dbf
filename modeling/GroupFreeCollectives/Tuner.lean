import GroupFreeCollectives.Autotune
import GroupFreeCollectives.Lib.StepFunction
import Mathlib.Data.Finset.Sort

/-!
# The tuner's table

`main` of `benchmarks/autotune_collectives.py` picks the best candidate for every measured
size of a collective and emits rules: sizes in ascending order, consecutive sizes with the
same winner as one run, the range of a run closed one byte before the next run, the first
range open below and the last one above, and all rules sorted by collective and descending
`min_bytes`.

The winners are a step function of the size, the runs are its compressed breakpoints, and
the rules of a collective are the spans of these.  So a query matches exactly one rule, in
whichever order the rules stand (`emitted_table_gives_winner`).
-/

namespace GroupFreeCollectives

open StepFunction

/-- A candidate of the sweep; its `config` names a path and the knobs. -/
structure Candidate where
  name : String
  path : Path
  knobs : Knobs := {}
  deriving DecidableEq, Repr

namespace Candidate

/-- The policy that a candidate's config describes. -/
def policy (c : Candidate) : Policy := ⟨c.path, c.knobs⟩

end Candidate

/-- `best` of a collective: the measured sizes and the name of the winner at each. -/
structure Best where
  sizes : Finset ℕ
  winner : ℕ → String

namespace Tuner

/-! ## The emission of rules -/

/-- `cand_by_name`: of two candidates with one name the later counts. -/
def candByName (candidates : List Candidate) (name : String) : Option Candidate :=
  candidates.reverse.find? fun c => c.name = name

/-- The loop that compacts the sizes into runs of one winner. -/
def runsLoop (winner : ℕ → String) (prevName : Option String) : List ℕ → List (ℕ × String)
  | [] => []
  | size :: sizes =>
    if some (winner size) ≠ prevName then
      (size, winner size) :: runsLoop winner (some (winner size)) sizes
    else runsLoop winner prevName sizes

/-- `runs` of a collective. -/
def runs (b : Best) : List (ℕ × String) := runsLoop b.winner none (b.sizes.sort (· ≤ ·))

/-- The loop that makes a rule of every run; `first` holds for `i == 0`, and the next run is
the head of the rest.  It raises `KeyError`, here `none`, for an unknown name. -/
def runRules (candidates : List Candidate) (coll : Collective) (world : ℕ) (first : Bool) :
    List (ℕ × String) → Option (List Rule)
  | [] => some []
  | (start, name) :: rest => do
    let cand ← candByName candidates name
    let rules ← runRules candidates coll world false rest
    let rule : Rule :=
      { collective := coll.autotuneName
        groupSize := some (world : ℤ)
        minBytes := if first then 0 else (start : ℤ)
        maxBytes := rest.head?.map fun next => (next.1 : ℤ) - 1
        path := some cand.path.name
        knobs := cand.knobs }
    some (rule :: rules)

/-- The sort key: collective, then descending `min_bytes`. -/
def ruleLe (r s : Rule) : Bool :=
  r.collective < s.collective ∨ r.collective = s.collective ∧ -r.minBytes ≤ -s.minBytes

/-- The rules of the table that `main` writes. -/
def emitRules (candidates : List Candidate) (collectives : List Collective)
    (best : Collective → Best) (world : ℕ) : Option (List Rule) := do
  let rules ← collectives.mapM fun coll => runRules candidates coll world true (runs (best coll))
  some (rules.flatten.mergeSort ruleLe)

/-! ## Which winner a size should get -/

/-- The measured size that decides for a slice: the largest one not above it, or the smallest
one if all are above it. -/
def IsSizeFor (b : Best) (sliceBytes size : ℕ) : Prop :=
  size ∈ b.sizes ∧
    (size ≤ sliceBytes ∧ (∀ s ∈ b.sizes, s ≤ sliceBytes → s ≤ size) ∨
      (∀ s ∈ b.sizes, sliceBytes < s) ∧ ∀ s ∈ b.sizes, size ≤ s)

/-! ## Runs and spans -/

section Spans

variable {winner : ℕ → String} {b : Best} {l : List ℕ} {s x : ℕ}

theorem runsLoop_some (a : String) : runsLoop winner (some a) l = compress winner a l := by
  induction l generalizing a with
  | nil => rfl
  | cons s l ih =>
    rw [runsLoop, compress]
    by_cases h : winner s = a
    · rw [if_pos h, if_neg (not_not.mpr (congrArg some h)), ih]
    · rw [if_neg h, if_pos fun h' => h (Option.some_inj.mp h'), ih]

/-- The first run starts at the smallest size. -/
theorem runs_eq (hsort : b.sizes.sort (· ≤ ·) = s :: l) :
    runs b = (s, b.winner s) :: compress b.winner (b.winner s) l := by
  rw [runs, hsort, runsLoop, if_pos (Option.some_ne_none _), runsLoop_some]

/-- The runs have winners of measured sizes. -/
theorem mem_runs {r : ℕ × String}
    (hr : r ∈ (s, winner s) :: compress winner (winner s) l) :
    ∃ size ∈ s :: l, r.2 = winner size := by
  rcases List.mem_cons.mp hr with rfl | hr
  · exact ⟨s, List.mem_cons_self, rfl⟩
  · obtain ⟨hmem, hval⟩ := mem_compress hr
    exact ⟨r.1, List.mem_cons_of_mem _ hmem, hval⟩

/-- The deciding size is a measured one, and the step function has its winner. -/
theorem exists_sizeFor (hsort : b.sizes.sort (· ≤ ·) = s :: l) (x : ℕ) :
    ∃ size, IsSizeFor b x size ∧ value b.winner (b.winner s) l x = b.winner size := by
  have hmem : ∀ t, t ∈ b.sizes ↔ t ∈ s :: l := fun t => by
    rw [← hsort, Finset.mem_sort]
  have hsorted : (s :: l).SortedLT := hsort ▸ b.sizes.sortedLT_sort
  have hleast := (List.pairwise_cons.mp hsorted.pairwise).1
  by_cases hx : s ≤ x
  · obtain ⟨t, ht, htx, hlast, hval⟩ := value_eq (f := b.winner) hsorted hx
    exact ⟨t, ⟨(hmem t).mpr ht, Or.inl ⟨htx, fun u hu => hlast u ((hmem u).mp hu)⟩⟩, hval⟩
  · have hall : ∀ t ∈ b.sizes, s ≤ t := by
      intro t ht
      rcases List.mem_cons.mp ((hmem t).mp ht) with rfl | ht
      · exact le_rfl
      · exact (hleast t ht).le
    refine ⟨s, ⟨(hmem s).mpr List.mem_cons_self, Or.inr ⟨fun t ht => ?_, hall⟩⟩, ?_⟩
    · exact lt_of_lt_of_le (not_le.mp hx) (hall t ht)
    · exact value_of_forall_lt fun t ht => lt_trans (not_le.mp hx) (hleast t ht)

end Spans

/-! ## The rules of a collective -/

section Rules

variable {candidates : List Candidate} {coll : Collective} {world : ℕ}
  (cand : String → Candidate)

/-- The rule of a span. -/
def spanRule (coll : Collective) (world : ℕ) (σ : Span String) : Rule where
  collective := coll.autotuneName
  groupSize := some (world : ℤ)
  minBytes := σ.lo
  maxBytes := σ.hi.map fun next => (next : ℤ) - 1
  path := some (cand σ.value).path.name
  knobs := (cand σ.value).knobs

variable {cand}

/-- The rules of the runs are those of the spans, the first from 0 on. -/
theorem runRules_eq {first : Bool} {start : ℕ} {name : String} {rest : List (ℕ × String)}
    (hcand : ∀ r ∈ (start, name) :: rest, candByName candidates r.2 = some (cand r.2)) :
    runRules candidates coll world first ((start, name) :: rest) =
      some ((spans (if first then 0 else start) name rest).map (spanRule cand coll world)) := by
  induction rest generalizing first start name with
  | nil =>
    rw [runRules, hcand _ List.mem_cons_self, runRules]
    cases first <;> rfl
  | cons r rest ih =>
    rw [runRules, hcand _ List.mem_cons_self,
      ih fun r' hr' => hcand r' (List.mem_cons_of_mem _ hr')]
    cases first <;> rfl

/-- A query of the tuned group matches the rule of a span if the span holds the size. -/
theorem isMatch_spanRule {σ : Span String} {x : ℕ} :
    (spanRule cand coll world σ).isMatch coll world x = decide (σ.Holds x) := by
  have hmax : (((spanRule cand coll world σ).maxBytes.all fun m => (x : ℤ) ≤ m) = true) ↔
      ∀ h ∈ σ.hi, x < h := by
    rw [spanRule]
    cases σ.hi with
    | none => simp
    | some h =>
      have hle : (x : ℤ) ≤ h - 1 ↔ x < h := by omega
      show decide ((x : ℤ) ≤ h - 1) = true ↔ _
      simp only [decide_eq_true_eq, hle, Option.mem_some_iff, forall_eq']
  have hmin : (spanRule cand coll world σ).minBytes ≤ x ↔ σ.lo ≤ x := Nat.cast_le
  rw [Rule.isMatch, decide_eq_decide, hmin, hmax, Span.Holds]
  exact ⟨fun h => h.2.2, fun h => ⟨Or.inr rfl, Or.inr rfl, h⟩⟩

theorem autotuneName_inj {k k' : Collective} (h : k.autotuneName = k'.autotuneName) : k = k' := by
  cases k <;> cases k' <;> first | rfl | exact absurd h (by decide)

theorem isMatch_spanRule_of_ne {k : Collective} {σ : Span String} {x : ℕ} (hk : k ≠ coll) :
    (spanRule cand k world σ).isMatch coll world x = false := by
  have hstar : k.autotuneName ≠ "*" := by
    cases k <;> decide
  have hname : k.autotuneName ≠ coll.autotuneName := fun h => hk (autotuneName_inj h)
  rw [Rule.isMatch, decide_eq_false_iff_not]
  rintro ⟨h | h, -⟩
  · exact hstar h
  · exact hname h

theorem spanRule_policy (σ : Span String) :
    (spanRule cand coll world σ).policy = some (cand σ.value).policy := by
  rw [Rule.policy, spanRule, Option.bind_some, Path.ofName_name]
  rfl

theorem spanRule_check (σ : Span String) : (spanRule cand coll world σ).check = .ok () := by
  rw [Rule.check, spanRule]
  exact require_eq_ok_iff.mpr (by rw [Path.ofName_name]; rfl)

end Rules

/-! ## Lookups -/

/-- A part of a concatenation that alone is not empty is all of it. -/
theorem flatMap_eq_of_forall_ne {α β : Type*} {f : α → List β} {l : List α} (hl : l.Nodup)
    {a : α} (ha : a ∈ l) (hne : ∀ b, b ≠ a → f b = []) : l.flatMap f = f a := by
  induction l with
  | nil => cases ha
  | cons b l ih =>
    obtain ⟨hb, hl⟩ := List.nodup_cons.mp hl
    rw [List.flatMap_cons]
    by_cases hba : b = a
    · subst hba
      have hrest : l.flatMap f = [] := List.flatMap_eq_nil_iff.mpr fun c hc =>
        hne c fun h => hb (h ▸ hc)
      rw [hrest, List.append_nil]
    · rw [hne b hba, List.nil_append]
      exact ih hl ((List.mem_cons.mp ha).resolve_left fun h => hba h.symm)

theorem mapM_eq_some {α β : Type} {f : α → Option β} {g : α → β} {l : List α}
    (h : ∀ a ∈ l, f a = some (g a)) : l.mapM f = some (l.map g) := by
  induction l with
  | nil => rfl
  | cons a l ih =>
    rw [List.mapM_cons, h a List.mem_cons_self, ih fun b hb => h b (List.mem_cons_of_mem _ hb)]
    rfl

/-- If one rule matches, the lookup gives its policy. -/
theorem policyFor_of_filter {t : AutotuneTable} {coll : Collective} {world x : ℕ} {r : Rule}
    (h : t.rules.filter (fun r => r.isMatch coll world x) = [r]) :
    t.policyFor coll world x = r.policy := by
  have hlookup : ∀ l : List Rule,
      (l.findSome? fun r => if r.isMatch coll world x then r.policy else none) =
        (l.filter fun r => r.isMatch coll world x).findSome? Rule.policy := by
    intro l
    induction l with
    | nil => rfl
    | cons r l ih =>
      rw [List.findSome?_cons, List.filter_cons]
      by_cases hr : r.isMatch coll world x
      · rw [if_pos hr, if_pos hr, List.findSome?_cons, ih]
      · rw [if_neg hr, if_neg hr, ih]
  rw [AutotuneTable.policyFor, hlookup, h, List.findSome?_singleton]

/-- A table of rules that pass the check is accepted. -/
theorem exists_fromJson {rules : List Rule} (h : ∀ r ∈ rules, r.check = .ok ()) :
    ∃ t, AutotuneTable.fromJson 1 rules = .ok t ∧ t.rules = rules := by
  have hinit := AutotuneTable.init_eq_ok_iff.mpr h
  refine ⟨⟨rules, h⟩, ?_, rfl⟩
  have hversion : ∀ msg, (require (decide ((1 : ℤ) = 1)) msg : Except PyError Unit) = .ok () :=
    fun _ => rfl
  rw [AutotuneTable.fromJson, hversion]
  simp only [bind, Except.bind]
  split
  case h_1 => rfl
  case h_2 e he => rw [hinit] at he; cases he

section Table

variable {candidates : List Candidate} {collectives : List Collective}
  {best : Collective → Best} {world : ℕ} {cand : String → Candidate}

/-- The rules of one collective before the sort. -/
def collRules (cand : String → Candidate) (world : ℕ) (b : Best) (coll : Collective) :
    List Rule :=
  match b.sizes.sort (· ≤ ·) with
  | [] => []
  | s :: l => (spans 0 (b.winner s) (compress b.winner (b.winner s) l)).map
      (spanRule cand coll world)

theorem runRules_runs {coll : Collective} {b : Best}
    (hcand : ∀ size ∈ b.sizes,
      candByName candidates (b.winner size) = some (cand (b.winner size))) :
    runRules candidates coll world true (runs b) = some (collRules cand world b coll) := by
  have hmem : ∀ t, t ∈ b.sizes ↔ t ∈ b.sizes.sort (· ≤ ·) := fun t => by
    rw [Finset.mem_sort]
  cases hsort : b.sizes.sort (· ≤ ·) with
  | nil =>
    rw [runs, collRules, hsort]
    rfl
  | cons s l =>
    rw [hsort] at hmem
    rw [runs_eq hsort, @runRules_eq _ _ _ cand, collRules, hsort]
    · rfl
    · intro r hr
      obtain ⟨size, hsize, hval⟩ := mem_runs hr
      rw [hval]
      exact hcand size ((hmem size).mpr hsize)

/-- **Exactly one rule of the measured collective matches, with the deciding winner.** -/
theorem filter_collRules {coll : Collective} {b : Best} (hb : b.sizes.Nonempty) (x : ℕ) :
    ∃ size, IsSizeFor b x size ∧ ∃ r : Rule,
      (collRules cand world b coll).filter (fun r => r.isMatch coll world x) = [r] ∧
        r.policy = some (cand (b.winner size)).policy := by
  cases hsort : b.sizes.sort (· ≤ ·) with
  | nil =>
    obtain ⟨s, hs⟩ := hb
    rw [← Finset.mem_sort (· ≤ ·), hsort] at hs
    cases hs
  | cons s l =>
    obtain ⟨size, hsize, hval⟩ := exists_sizeFor hsort x
    have hzero : (0 :: l).SortedLT := by
      have hsorted : (s :: l).SortedLT := hsort ▸ b.sizes.sortedLT_sort
      obtain ⟨hhead, htail⟩ := List.pairwise_cons.mp hsorted.pairwise
      exact (List.pairwise_cons.mpr
        ⟨fun t ht => lt_of_le_of_lt (Nat.zero_le s) (hhead t ht), htail⟩).sortedLT
    obtain ⟨σ, hfilter, hσ⟩ :=
      filter_spans_compress (f := b.winner) (a := b.winner s) hzero (Nat.zero_le x)
    refine ⟨size, hsize, spanRule cand coll world σ, ?_, ?_⟩
    · rw [collRules, hsort, List.filter_map]
      have hcomp : (fun r : Rule => r.isMatch coll world x) ∘ spanRule cand coll world =
          fun σ => decide (σ.Holds x) := funext fun σ => isMatch_spanRule
      rw [hcomp, hfilter]
      rfl
    · rw [spanRule_policy, hσ, hval]

theorem filter_collRules_of_ne {coll k : Collective} {b : Best} (hk : k ≠ coll) (x : ℕ) :
    (collRules cand world b k).filter (fun r => r.isMatch coll world x) = [] := by
  refine List.filter_eq_nil_iff.mpr fun r hr => ?_
  rw [collRules] at hr
  split at hr
  · cases hr
  · obtain ⟨σ, -, rfl⟩ := List.mem_map.mp hr
    rw [isMatch_spanRule_of_ne hk]
    exact Bool.false_ne_true

theorem check_collRules {coll : Collective} {b : Best} {r : Rule}
    (hr : r ∈ collRules cand world b coll) : r.check = .ok () := by
  rw [collRules] at hr
  split at hr
  · cases hr
  · obtain ⟨σ, -, rfl⟩ := List.mem_map.mp hr
    exact spanRule_check σ

/-- The rules that are emitted, up to their order. -/
theorem emitRules_eq (hcand : ∀ coll ∈ collectives, ∀ size ∈ (best coll).sizes,
      candByName candidates ((best coll).winner size) = some (cand ((best coll).winner size))) :
    ∃ rules, emitRules candidates collectives best world = some rules ∧
      rules.Perm (collectives.flatMap fun coll => collRules cand world (best coll) coll) := by
  have hmap : collectives.mapM
      (fun coll => runRules candidates coll world true (runs (best coll))) =
        some (collectives.map fun coll => collRules cand world (best coll) coll) :=
    mapM_eq_some fun coll hcoll => runRules_runs (hcand coll hcoll)
  refine ⟨_, by rw [emitRules, hmap]; rfl, ?_⟩
  rw [List.flatMap]
  exact List.mergeSort_perm _ _

/-- **The emitted table and the lookup agree.**  Whatever the order of the rules, a query of a
measured collective matches one rule, and it gets the winner of the deciding size. -/
theorem emitted_table_gives_winner (candidates : List Candidate)
    (collectives : List Collective) (best : Collective → Best) (world : ℕ)
    (hdistinct : collectives.Nodup)
    (hwinners : ∀ coll ∈ collectives, ∀ size ∈ (best coll).sizes,
      (candByName candidates ((best coll).winner size)).isSome) :
    ∃ rules, emitRules candidates collectives best world = some rules ∧
      ∀ rules', rules'.Perm rules → ∃ t, AutotuneTable.fromJson 1 rules' = .ok t ∧
        ∀ coll ∈ collectives, (best coll).sizes.Nonempty → ∀ sliceBytes : ℕ,
          rules'.countP (fun r => r.isMatch coll world sliceBytes) = 1 ∧
          ∃ size winner, IsSizeFor (best coll) sliceBytes size ∧
            candByName candidates ((best coll).winner size) = some winner ∧
            t.policyFor coll world sliceBytes = some winner.policy := by
  obtain ⟨cand, hname⟩ : ∃ cand : String → Candidate,
      ∀ name, (candByName candidates name).isSome → candByName candidates name = some (cand name) :=
    ⟨fun name => (candByName candidates name).getD ⟨"", .vecPull, {}⟩, fun name h => by
      obtain ⟨c, hc⟩ := Option.isSome_iff_exists.mp h
      simp only [hc, Option.getD_some]⟩
  have hcand : ∀ coll ∈ collectives, ∀ size ∈ (best coll).sizes,
      candByName candidates ((best coll).winner size) = some (cand ((best coll).winner size)) :=
    fun coll hcoll size hsize => hname _ (hwinners coll hcoll size hsize)
  obtain ⟨rules, hemit, hperm⟩ := @emitRules_eq candidates collectives best world cand hcand
  refine ⟨rules, hemit, fun rules' hperm' => ?_⟩
  have hperm := hperm'.trans hperm
  have hchecks : ∀ r ∈ rules', r.check = .ok () := by
    intro r hr
    obtain ⟨coll, -, hr⟩ := List.mem_flatMap.mp (hperm.mem_iff.mp hr)
    exact check_collRules hr
  obtain ⟨t, ht, htrules⟩ := exists_fromJson hchecks
  refine ⟨t, ht, fun coll hcoll hne x => ?_⟩
  obtain ⟨size, hsize, r, hfilter, hpolicy⟩ := @filter_collRules world cand coll (best coll) hne x
  have hall : rules'.filter (fun r => r.isMatch coll world x) = [r] := by
    refine List.perm_singleton.mp ((hperm.filter _).trans (List.Perm.of_eq ?_))
    rw [List.filter_flatMap, flatMap_eq_of_forall_ne hdistinct hcoll, hfilter]
    exact fun k hk => filter_collRules_of_ne hk x
  refine ⟨?_, size, _, hsize, hcand coll hcoll size hsize.1, ?_⟩
  · rw [List.countP_eq_length_filter, hall, List.length_singleton]
  · rw [policyFor_of_filter (r := r) (by rw [htrules, hall]), hpolicy]

end Table

/-- Two candidates, the second one the winner of large slices. -/
def sweepCandidates : List Candidate :=
  [⟨"vec_pull_sms24", .vecPull, { copySms := some 24 }⟩, ⟨"copy_engine", .copyEngine, {}⟩]

/-- A sweep of three sizes. -/
def sweep : Best where
  sizes := {1024, 4096, 65536}
  winner size := if size = 65536 then "copy_engine" else "vec_pull_sms24"

theorem emitted_table_gives_winner_witness :
    ∃ rules, emitRules sweepCandidates [.allGather, .all2All] (fun _ => sweep) 4 = some rules ∧
      ∃ t, AutotuneTable.fromJson 1 rules = .ok t ∧ ∃ size winner, IsSizeFor sweep 5000 size ∧
        candByName sweepCandidates (sweep.winner size) = some winner ∧
        t.policyFor .all2All 4 5000 = some winner.policy := by
  have hwinners : ∀ size, (candByName sweepCandidates (sweep.winner size)).isSome := by
    intro size
    rw [sweep]
    dsimp only
    split <;> decide
  obtain ⟨rules, hemit, hrules⟩ := emitted_table_gives_winner sweepCandidates
    [.allGather, .all2All] (fun _ => sweep) 4 (by decide) fun _ _ size _ => hwinners size
  obtain ⟨t, ht, hlookup⟩ := hrules rules (List.Perm.refl _)
  exact ⟨rules, hemit, t, ht, (hlookup .all2All (by decide) ⟨1024, by decide⟩ 5000).2⟩

end Tuner

end GroupFreeCollectives
