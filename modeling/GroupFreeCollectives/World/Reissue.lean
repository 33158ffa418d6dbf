import GroupFreeCollectives.Lib.Renaming
import GroupFreeCollectives.World.Placed

/-!
# Programs with other tokens and step values

A launch is enqueued again with the tokens and the step base that it had before (`Reissue`).  The
items are the same otherwise, so their operations are the same tasks in the same order, and only
the waits can tell the difference.

A wait of a barrier cannot, if the tokens of the renamed program agree on every edge: in both
programs it can end exactly if the peer has published at the same position (`await_guard_iff`).
A wait for step values cannot, if what was last published to a cell is what the wait is for in
both programs or in neither (`StepsAlike`).  Then the two programs have the same runs, with the
same bytes in the buffers and in the tensors (`Reissue.alike`).
-/

namespace GroupFreeCollectives

open TaskGraph Positions

/-! ## The renaming of an item -/

/-- The same operation with what it does renamed. -/
def Op.mapAct {A B : Type} (f : A → B) (o : Op A) : Op B := ⟨o.thread, o.phase, f o.act⟩

/-- A kernel operation with another step value. -/
def DataAct.reissue (step : ℕ → ℕ) : DataAct → DataAct
  | .copy src dst => .copy src dst
  | .stepPublish dst cell v => .stepPublish dst cell (step v)
  | .stepAwait cells v => .stepAwait cells (step v)

/-- An operation with another token or step value. -/
def Act.reissue (token step : ℕ → ℕ) : Act → Act
  | .bump q => .bump q
  | .publish q tok => .publish q (token tok)
  | .await q tok => .await q (token tok)
  | .data d => .data (d.reissue step)
  | .nop => .nop

def Cmd.reissue (token step : ℕ → ℕ) : Cmd → Cmd
  | .barrier ranks tok => .barrier ranks (token tok)
  | .kernel ops => .kernel (ops.map (Op.mapAct (DataAct.reissue step)))
  | c => c

/-- The item as it is enqueued again. -/
def Item.reissue (token step : ℕ → ℕ) (it : Item) : Item :=
  { it with cmd := it.cmd.reissue token step }

/-- How the tokens and the step values of the items of a program are renamed, by rank and
index. -/
structure Reissue where
  token : ℕ → ℕ → ℕ → ℕ
  step : ℕ → ℕ → ℕ → ℕ
  step_injective : ∀ p i, (step p i).Injective

namespace Reissue

variable (ρ : Reissue)

/-- The program with its items renamed. -/
def program (prog : Program) : Program := fun p =>
  (prog p).mapIdx fun i it => it.reissue (ρ.token p i) (ρ.step p i)

/-- The task of the renamed program. -/
def task (t : Task) : Task :=
  ⟨t.rank, t.idx, t.op.mapAct (Act.reissue (ρ.token t.rank t.idx) (ρ.step t.rank t.idx))⟩

end Reissue

section Items

variable {token step : ℕ → ℕ} {c : Cmd} {it it' : Item} {q : ℕ}

/-- **The operations of a renamed item.** -/
theorem Cmd.ops_reissue :
    (c.reissue token step).ops = c.ops.map (Op.mapAct (Act.reissue token step)) := by
  cases c with
  | barrier ranks tok => simp [Cmd.reissue, Cmd.ops, barrierKernel, List.map_flatMap, Op.mapAct,
      Act.reissue]
  | kernel ops =>
    simp only [Cmd.reissue, Cmd.ops, List.map_map]
    exact List.map_congr_left fun o _ => rfl
  | _ => rfl

theorem Item.tokenFor_reissue :
    (it.reissue token step).tokenFor q = (it.tokenFor q).map token := by
  rcases it with ⟨call, stream, cmd⟩
  cases cmd with
  | barrier ranks tok =>
    show (if q ∈ ranks then some (token tok) else none) =
      (if q ∈ ranks then some tok else none).map token
    split <;> rfl
  | _ => rfl

variable {token' step' : ℕ → ℕ}

theorem Item.precedes_reissue :
    (it.reissue token step).precedes (it'.reissue token' step') ↔ it.precedes it' := by
  have hrecord : ∀ e, (it.cmd.reissue token step) = .record e ↔ it.cmd = .record e := by
    intro e
    cases it.cmd <;> simp [Cmd.reissue]
  have hwait : ∀ e, (it'.cmd.reissue token' step') = .wait e ↔ it'.cmd = .wait e := by
    intro e
    cases it'.cmd <;> simp [Cmd.reissue]
  have hstream : ∀ s, (it'.cmd.reissue token' step') = .waitStream s ↔
      it'.cmd = .waitStream s := by
    intro s
    cases it'.cmd <;> simp [Cmd.reissue]
  simp only [Item.precedes, Item.reissue, hrecord, hwait, hstream]

/-- Renamed operations that are the same differ in the token at most. -/
theorem DataAct.reissue_injective (h : step.Injective) : (DataAct.reissue step).Injective := by
  intro d d' heq
  cases d <;> cases d' <;> simp only [DataAct.reissue, reduceCtorEq] at heq
  · exact heq
  · obtain ⟨rfl, rfl, hv⟩ := DataAct.stepPublish.inj heq
    rw [h hv]
  · obtain ⟨rfl, hv⟩ := DataAct.stepAwait.inj heq
    rw [h hv]

theorem Act.eq_of_reissue_eq {x y : Act} (h : step.Injective)
    (heq : x.reissue token step = y.reissue token step) :
    x = y ∨ (∃ q tok tok', x = .publish q tok ∧ y = .publish q tok') ∨
      ∃ q tok tok', x = .await q tok ∧ y = .await q tok' := by
  cases x <;> cases y <;> simp only [Act.reissue, reduceCtorEq] at heq
  · exact Or.inl heq
  · obtain ⟨rfl, -⟩ := Act.publish.inj heq
    exact Or.inr (Or.inl ⟨_, _, _, rfl, rfl⟩)
  · obtain ⟨rfl, -⟩ := Act.await.inj heq
    exact Or.inr (Or.inr ⟨_, _, _, rfl, rfl⟩)
  · rw [DataAct.reissue_injective h (Act.data.inj heq)]
    exact Or.inl rfl
  · exact Or.inl rfl

end Items

/-! ## The tasks of the renamed program -/

namespace Reissue

variable {ρ : Reissue} {prog : Program} {t u : Task} {p q i j tok : ℕ} {it : Item}

theorem getElem?_program : (ρ.program prog p)[i]? =
    (prog p)[i]?.map fun it => it.reissue (ρ.token p i) (ρ.step p i) := List.getElem?_mapIdx

theorem isTask_task (ht : IsTask prog t) : IsTask (ρ.program prog) (ρ.task t) := by
  obtain ⟨it, hit, ho⟩ := ht
  have hget : (ρ.program prog t.rank)[t.idx]? =
      some (it.reissue (ρ.token t.rank t.idx) (ρ.step t.rank t.idx)) := by
    rw [getElem?_program, hit]
    rfl
  refine ⟨_, hget, ?_⟩
  show _ ∈ (it.cmd.reissue _ _).ops
  rw [Cmd.ops_reissue]
  exact List.mem_map_of_mem ho

theorem exists_of_isTask (ht : IsTask (ρ.program prog) t) : ∃ u, IsTask prog u ∧ ρ.task u = t := by
  obtain ⟨r, i, o⟩ := t
  obtain ⟨it', hit', ho⟩ : ∃ it, (ρ.program prog r)[i]? = some it ∧ o ∈ it.cmd.ops := ht
  rw [getElem?_program] at hit'
  obtain ⟨it, hit, rfl⟩ := Option.map_eq_some_iff.mp hit'
  have ho : o ∈ (it.cmd.reissue (ρ.token r i) (ρ.step r i)).ops := ho
  rw [Cmd.ops_reissue] at ho
  obtain ⟨o', ho', rfl⟩ := List.mem_map.mp ho
  exact ⟨⟨r, i, o'⟩, ⟨it, hit, ho'⟩, rfl⟩

/-- **Renamed tasks are told apart**: an item has one token, and the renaming keeps step values
apart. -/
theorem eq_of_task_eq (ht : IsTask prog t) (hu : IsTask prog u) (h : ρ.task t = ρ.task u) :
    t = u := by
  obtain ⟨r, i, θ, a, x⟩ := t
  obtain ⟨r', i', θ', a', y⟩ := u
  obtain ⟨rfl, rfl, h⟩ := (Task.mk.injEq ..).mp h
  obtain ⟨rfl, rfl, h⟩ := (Op.mk.injEq ..).mp h
  rcases Act.eq_of_reissue_eq (ρ.step_injective r i) h with rfl | ⟨q, tok, tok', rfl, rfl⟩ |
    ⟨q, tok, tok', rfl, rfl⟩
  · rfl
  · have he : OnEdge prog r q i tok := (IsTask.eq_publishTask ht rfl).1
    have he' : OnEdge prog r q i tok' := (IsTask.eq_publishTask hu rfl).1
    rw [he.token_unique he']
  · have he : OnEdge prog r q i tok := (IsTask.eq_awaitTask ht rfl).1
    have he' : OnEdge prog r q i tok' := (IsTask.eq_awaitTask hu rfl).1
    rw [he.token_unique he']

theorem before_task_iff : Before (ρ.program prog) (ρ.task u) (ρ.task t) ↔ Before prog u t := by
  have hitems : (∃ x y, (ρ.program prog u.rank)[u.idx]? = some x ∧
      (ρ.program prog t.rank)[t.idx]? = some y ∧ x.precedes y) ↔
      ∃ x y, (prog u.rank)[u.idx]? = some x ∧ (prog t.rank)[t.idx]? = some y ∧ x.precedes y := by
    simp only [getElem?_program, Option.map_eq_some_iff]
    constructor
    · rintro ⟨_, _, ⟨x, hx, rfl⟩, ⟨y, hy, rfl⟩, h⟩
      exact ⟨x, y, hx, hy, Item.precedes_reissue.mp h⟩
    · rintro ⟨x, y, hx, hy, h⟩
      exact ⟨_, _, ⟨x, hx, rfl⟩, ⟨y, hy, rfl⟩, Item.precedes_reissue.mpr h⟩
  exact and_congr_right fun _ => or_congr Iff.rfl (and_congr_right fun _ => hitems)

/-- **The tasks of the renamed program** are those of the program. -/
theorem renames {pl : Placement} {α : Type} {W : ℕ} : Renames (placedDevice pl prog α W)
    (placedDevice pl (ρ.program prog) α W) ρ.task where
  task _ ht := isTask_task ht
  surj _ ht := exists_of_isTask ht
  inj _ _ ht hu h := eq_of_task_eq ht hu h
  before _ _ _ _ := before_task_iff

/-! ## Its edges -/

theorem onEdge_iff : OnEdge (ρ.program prog) p q i tok ↔
    ∃ tok', OnEdge prog p q i tok' ∧ ρ.token p i tok' = tok := by
  simp only [OnEdge, getElem?_program, Option.map_eq_some_iff]
  constructor
  · rintro ⟨_, ⟨it, hit, rfl⟩, htok⟩
    rw [Item.tokenFor_reissue] at htok
    obtain ⟨tok', htok', rfl⟩ := Option.map_eq_some_iff.mp htok
    exact ⟨tok', ⟨it, hit, htok'⟩, rfl⟩
  · rintro ⟨tok', ⟨it, hit, htok'⟩, rfl⟩
    exact ⟨_, ⟨it, hit, rfl⟩, by rw [Item.tokenFor_reissue, htok']; rfl⟩

theorem edgePos_program : edgePos (ρ.program prog) p q i = edgePos prog p q i := by
  unfold edgePos
  induction i with
  | zero => simp
  | succ i ih =>
    cases hit : (prog p)[i]? with
    | none =>
      have hlen := List.getElem?_eq_none_iff.mp hit
      have hlen' : (ρ.program prog p).length ≤ i := by
        rw [program, List.length_mapIdx]
        exact hlen
      unfold posIn at ih ⊢
      rw [List.take_of_length_le hlen, List.take_of_length_le hlen'] at ih
      rw [List.take_of_length_le (by omega), List.take_of_length_le (by omega), ih]
    | some it =>
      have hit' : (ρ.program prog p)[i]? = some (it.reissue (ρ.token p i) (ρ.step p i)) := by
        rw [getElem?_program, hit]
        rfl
      cases htok : it.tokenFor q with
      | none =>
        rw [posIn_succ_of_none hit htok, posIn_succ_of_none hit'
          (by rw [Item.tokenFor_reissue, htok]; rfl), ih]
      | some tok =>
        rw [posIn_succ_of_some hit htok, posIn_succ_of_some hit'
          (by rw [Item.tokenFor_reissue, htok]; rfl), ih]

theorem wellFormed {W : ℕ} (h : WellFormed prog W) : WellFormed (ρ.program prog) W := by
  have hitem : ∀ p (it : Item) ranks tok, it ∈ ρ.program prog p → it.cmd = .barrier ranks tok →
      ∃ it' tok', it' ∈ prog p ∧ it'.stream = it.stream ∧ it'.cmd = .barrier ranks tok' := by
    intro p it ranks tok hit hcmd
    obtain ⟨i, hi⟩ := List.getElem?_of_mem hit
    rw [getElem?_program] at hi
    obtain ⟨it', hit', rfl⟩ := Option.map_eq_some_iff.mp hi
    refine ⟨it', ?_⟩
    rcases it' with ⟨call, stream, cmd⟩
    cases cmd with
    | barrier ranks' tok' =>
      cases hcmd
      exact ⟨tok', List.mem_of_getElem? hit', rfl, rfl⟩
    | _ => cases hcmd
  constructor
  · intro p it ranks tok hit hcmd
    obtain ⟨it', tok', hit', hstream, hcmd'⟩ := hitem p it ranks tok hit hcmd
    rw [← hstream]
    exact h.main p it' ranks tok' hit' hcmd'
  · intro p it ranks tok hit hcmd
    obtain ⟨it', tok', hit', -, hcmd'⟩ := hitem p it ranks tok hit hcmd
    exact h.rank_lt p it' ranks tok' hit' hcmd'
  · intro p it ranks tok hit hcmd
    obtain ⟨it', tok', hit', -, hcmd'⟩ := hitem p it ranks tok hit hcmd
    exact h.ranks_lt p it' ranks tok' hit' hcmd'

end Reissue

/-! ## Waits for tokens -/

section Waits

variable {prog : Program} {α : Type} {W : ℕ} {m₀ : Memory α} {s : State Task (Memory α)}
  {p q i j tok tok' r c : ℕ}

/-- **A wait of a barrier can end exactly if the peer has published** at the same position. -/
theorem await_guard_iff (hwf : WellFormed prog W) (hag : EdgesAgree prog) (hm : m₀.Fresh)
    (hs : Reachable (device prog α W) m₀ s) (he : OnEdge prog p q i tok)
    (hj : OnEdge prog q p j tok') (hpos : edgePos prog q p j = edgePos prog p q i)
    (hready : Ready (device prog α W) s (awaitTask p i q tok)) :
    (device prog α W).guard s.mem (awaitTask p i q tok) ↔ publishTask q j p tok' ∈ s.done := by
  constructor
  · intro hguard
    have hmem := publish_mem_of_await hwf hag hm (hs.fire (hready.enabled hguard)) he
      List.mem_cons_self hj hpos
    refine (List.mem_cons.mp hmem).resolve_left fun heq => ?_
    cases congrArg (fun t => t.op.act) heq
  · exact await_guard hwf hag hm hs he (hready.ready _ he.isTask_bump before_await_of_bump)
      hready.fresh hj hpos

/-! ## Waits for step values -/

/-- The value that the task publishes to cell `c` of rank `r`'s step pad. -/
def Task.stepTo (r c : ℕ) (t : Task) : Option ℕ :=
  match t.op.act with
  | .data (.stepPublish q cell v) => if q = r ∧ cell = c then some v else none
  | _ => none

theorem Task.stepTo_eq_some_iff {t : Task} {v : ℕ} :
    t.stepTo r c = some v ↔ t.op.act = .data (.stepPublish r c v) := by
  unfold Task.stepTo
  split
  case h_1 q cell w hact =>
    rw [hact]
    by_cases h : q = r ∧ cell = c
    · obtain ⟨rfl, rfl⟩ := h
      simp
    · rw [if_neg h]
      simp only [reduceCtorEq, false_iff]
      rintro ⟨⟩
      exact h ⟨rfl, rfl⟩
  case h_2 hne =>
    simp only [reduceCtorEq, false_iff]
    exact hne r c v

/-- **A cell holds what was published there last.** -/
theorem stepPad_eq_last (hs : Reachable (device prog α W) m₀ s) : s.mem.stepPad r c =
    (s.done.findSome? (Task.stepTo r c)).getD (m₀.stepPad r c) := by
  induction hs with
  | init => rfl
  | @fire s t hs hen ih =>
    rw [fire_mem, fire_done, List.findSome?_cons]
    cases hto : t.stepTo r c with
    | some v => exact stepPad_effect_publish s.mem (Task.stepTo_eq_some_iff.mp hto)
    | none =>
      have hnot : ¬ PublishesStep r c t := by
        rintro ⟨v, hv⟩
        rw [Task.stepTo_eq_some_iff.mpr hv] at hto
        cases hto
      exact (stepPad_frame s.mem t hnot).trans ih

end Waits

namespace Reissue

variable (ρ : Reissue) (prog : Program) (W : ℕ)

/-- What was last published to a cell is what a wait is for in the renamed program exactly if it
is so in the program. -/
structure StepsAlike : Prop where
  ne_zero : ∀ t, IsTask prog t → ∀ cells v, t.op.act = .data (.stepAwait cells v) →
    v ≠ 0 ∧ ρ.step t.rank t.idx v ≠ 0
  last : ∀ m₀ s t, m₀.Zeroed → Reachable (device prog Unit W) m₀ s →
    Ready (device prog Unit W) s t → ∀ cells v, t.op.act = .data (.stepAwait cells v) →
      ∀ c ∈ cells, ∀ l u l', s.done = l ++ u :: l' → (∀ e ∈ l, ¬ PublishesStep t.rank c e) →
        ∀ w, u.op.act = .data (.stepPublish t.rank c w) →
          (w = v ↔ ρ.step u.rank u.idx w = ρ.step t.rank t.idx v)

variable {ρ prog W} {m₀ n₀ : Memory Unit} {s x : State Task (Memory Unit)} {t : Task}
  {cells : List ℕ} {v c : ℕ}

theorem stepTo_task (r c : ℕ) (t : Task) :
    (ρ.task t).stepTo r c = (t.stepTo r c).map (ρ.step t.rank t.idx) := by
  obtain ⟨r', i, θ, a, x⟩ := t
  rcases x with _ | _ | _ | ⟨_ | ⟨q, cell, w⟩ | _⟩ | _
  case data.stepPublish =>
    show (if q = r ∧ cell = c then some (ρ.step r' i w) else none) =
      (if q = r ∧ cell = c then some w else none).map (ρ.step r' i)
    split <;> rfl
  all_goals rfl

/-- A cell has the value of a wait in both programs or in neither. -/
theorem StepsAlike.stepPad_iff (h : ρ.StepsAlike prog W) (hm : m₀.Zeroed) (hn : n₀.Zeroed)
    (hs : Reachable (device prog Unit W) m₀ s)
    (hx : Reachable (device (ρ.program prog) Unit W) n₀ x) (hdone : x.done = s.done.map ρ.task)
    (hready : Ready (device prog Unit W) s t) (hact : t.op.act = .data (.stepAwait cells v))
    (hc : c ∈ cells) :
    s.mem.stepPad t.rank c = v ↔ x.mem.stepPad t.rank c = ρ.step t.rank t.idx v := by
  obtain ⟨hv, hv'⟩ := h.ne_zero t hready.task cells v hact
  rw [stepPad_eq_last hs, stepPad_eq_last hx, hm.stepPad, hn.stepPad, hdone, List.findSome?_map]
  cases hfind : s.done.find? fun u => (u.stepTo t.rank c).isSome with
  | none =>
    -- nothing was published there, and what is awaited is not zero
    have hnone : ∀ u ∈ s.done, u.stepTo t.rank c = none := by
      intro u hu
      simpa using List.find?_eq_none.mp hfind u hu
    rw [List.findSome?_eq_none_iff.mpr hnone, List.findSome?_eq_none_iff.mpr]
    · exact iff_of_false hv.symm hv'.symm
    · intro u hu
      rw [Function.comp_apply, stepTo_task, hnone u hu]
      rfl
  | some u =>
    obtain ⟨hsome, l, l', hsplit, hbefore⟩ := List.find?_eq_some_iff_append.mp hfind
    have hnone : ∀ e ∈ l, e.stepTo t.rank c = none := by
      intro e he
      simpa using hbefore e he
    obtain ⟨w, hw⟩ := Option.isSome_iff_exists.mp hsome
    have hlast : s.done.findSome? (Task.stepTo t.rank c) = some w := by
      rw [hsplit, List.findSome?_append, List.findSome?_eq_none_iff.mpr hnone, List.findSome?_cons,
        hw]
      rfl
    have hlast' : s.done.findSome? (Task.stepTo t.rank c ∘ ρ.task) =
        some (ρ.step u.rank u.idx w) := by
      rw [hsplit, List.findSome?_append, List.findSome?_eq_none_iff.mpr, List.findSome?_cons,
        Function.comp_apply, stepTo_task, hw]
      · rfl
      · intro e he
        rw [Function.comp_apply, stepTo_task, hnone e he]
        rfl
    rw [hlast, hlast']
    refine h.last m₀ s t hm hs hready cells v hact c hc l u l' hsplit ?_ w
      (Task.stepTo_eq_some_iff.mp hw)
    rintro e he ⟨w', hw'⟩
    have hzero := hnone e he
    rw [Task.stepTo_eq_some_iff.mpr hw'] at hzero
    cases hzero

end Reissue

/-! ## What guards see -/

/-- The grids and the counters of a memory. -/
def Memory.control {α : Type} (m : Memory α) : Memory Unit := { m with byte := fun _ => () }

section Control

variable {α : Type} {W r : ℕ} {m : Memory α} {pl : Placement} {prog : Program} {a : Act}

theorem Act.guard_control : a.guard W r m.control ↔ a.guard W r m := by
  rcases a with _ | _ | _ | ⟨_ | _ | _⟩ | _ <;> exact Iff.rfl

theorem Act.control_effect : (a.effect W r m).control = a.effect W r m.control := by
  rcases a with _ | _ | _ | ⟨_ | _ | _⟩ | _ <;> rfl

theorem Act.control_placedEffect {x : PlacedMemory α} :
    (a.placedEffect pl W r x).device.control = a.effect W r x.device.control := by
  rcases a with _ | _ | _ | ⟨⟨src, dst⟩ | _ | _⟩ | _
  case data.copy => cases dst <;> rfl
  all_goals exact Act.control_effect

theorem Memory.Zeroed.control (h : m.Zeroed) : m.control.Zeroed :=
  ⟨⟨h.signal, h.edgeSeq⟩, h.stepPad⟩

/-- A run with tensors is one of the grids and the counters. -/
theorem reachable_control {m₀ : PlacedMemory α} {x : State Task (PlacedMemory α)}
    (hx : Reachable (placedDevice pl prog α W) m₀ x) :
    Reachable (device prog Unit W) m₀.device.control ⟨x.done, x.mem.device.control⟩ := by
  induction hx with
  | init => exact .init
  | @fire x t _ hen ih =>
    have hfire := ih.fire ⟨hen.task, hen.fresh, hen.ready, Act.guard_control.mpr hen.guard⟩
    have hmem : ((placedDevice pl prog α W).fire x t).mem.device.control =
        (device prog Unit W).effect x.mem.device.control t := Act.control_placedEffect
    rw [hmem]
    exact hfire

end Control

/-! ## Runs -/

/-- The bytes of two memories are the same. -/
structure SameBytes {α : Type} (m n : PlacedMemory α) : Prop where
  heap : n.heap = m.heap
  byte : n.device.byte = m.device.byte

namespace SameBytes

variable {α : Type} {pl : Placement} {m n : PlacedMemory α} {W r : ℕ}

theorem put (h : SameBytes m n) (v : α) (dst : Cell) :
    SameBytes (m.put pl v dst) (n.put pl v dst) := by
  obtain ⟨hheap, hbyte⟩ := h
  cases dst <;> constructor <;> simp [PlacedMemory.put, PlacedMemory.storeHeap, hheap, hbyte]

theorem load (h : SameBytes m n) (src : Cell) : n.load pl src = m.load pl src := by
  cases src <;> simp [PlacedMemory.load, h.heap, h.byte]

/-- Renamed operations keep bytes the same. -/
theorem effect (h : SameBytes m n) (token step : ℕ → ℕ) (a : Act) :
    SameBytes (a.placedEffect pl W r m) ((a.reissue token step).placedEffect pl W r n) := by
  rcases a with _ | _ | _ | ⟨⟨src, dst⟩ | _ | _⟩ | _
  case data.copy =>
    show SameBytes (m.put pl (m.load pl src) dst) (n.put pl (n.load pl src) dst)
    rw [h.load]
    exact h.put _ dst
  all_goals exact ⟨h.heap, h.byte⟩

end SameBytes

namespace Reissue

variable {ρ : Reissue} {prog : Program} {pl : Placement} {α : Type} {W : ℕ}
  {m₀ : PlacedMemory α} {s x : State Task (PlacedMemory α)} {t : Task}

/-- **The renamed program has the runs of the program.** -/
theorem alike (hwf : WellFormed prog W) (hag : EdgesAgree prog) (hag' : EdgesAgree (ρ.program prog))
    (hsteps : ρ.StepsAlike prog W) (hm : m₀.device.Zeroed) :
    Alike (placedDevice pl prog α W) (placedDevice pl (ρ.program prog) α W) ρ.task m₀ m₀
      SameBytes where
  toRenames := renames
  init := ⟨rfl, rfl⟩
  guard_iff s x t hs hx hdone hready := by
    have hs' := reachable_control hs
    have hx' := reachable_control hx
    have hready' : Ready (device prog Unit W) ⟨s.done, s.mem.device.control⟩ t :=
      ⟨hready.task, hready.fresh, hready.ready⟩
    show t.op.act.guard W t.rank s.mem.device ↔
      (t.op.act.reissue (ρ.token t.rank t.idx) (ρ.step t.rank t.idx)).guard W t.rank x.mem.device
    rw [← Act.guard_control, ← Act.guard_control]
    cases hact : t.op.act with
    | await q tok =>
      obtain ⟨he, heq⟩ := IsTask.eq_awaitTask hready.task hact
      obtain ⟨j, hj, hpos⟩ := hag.exists_partner he
      have he' : OnEdge (ρ.program prog) t.rank q t.idx (ρ.token t.rank t.idx tok) :=
        onEdge_iff.mpr ⟨tok, he, rfl⟩
      have hj' : OnEdge (ρ.program prog) q t.rank j (ρ.token q j tok) :=
        onEdge_iff.mpr ⟨tok, hj, rfl⟩
      have hready₂ := (renames.ready_iff hs hdone hready.task).mpr hready
      have hready₃ : Ready (device (ρ.program prog) Unit W) ⟨x.done, x.mem.device.control⟩
          (awaitTask t.rank t.idx q (ρ.token t.rank t.idx tok)) := by
        rw [heq] at hready₂
        exact ⟨hready₂.task, hready₂.fresh, hready₂.ready⟩
      have hmem : publishTask q j t.rank (ρ.token q j tok) ∈ x.done ↔
          publishTask q j t.rank tok ∈ s.done :=
        renames.mem_done_iff hs hdone hj.isTask_publish
      have hpos' : edgePos (ρ.program prog) q t.rank j =
          edgePos (ρ.program prog) t.rank q t.idx := by
        rw [edgePos_program, edgePos_program, hpos]
      rw [heq] at hready'
      have hguard := await_guard_iff hwf hag hm.control.toFresh hs' he hj hpos hready'
      have hguard' := await_guard_iff (wellFormed hwf) hag' hm.control.toFresh hx' he' hj' hpos'
        hready₃
      exact hguard.trans (hmem.symm.trans hguard'.symm)
    | data d =>
      cases d with
      | stepAwait cells v =>
        exact forall₂_congr fun c hc =>
          hsteps.stepPad_iff hm.control hm.control hs' hx' hdone hready' hact hc
      | _ => exact Iff.rfl
    | _ => exact Iff.rfl
  effect m n t _ h := h.effect _ _ _

end Reissue

end GroupFreeCollectives
