import GroupFreeCollectives.StepValue
import GroupFreeCollectives.World.FusedPart

/-!
# Worlds

A `World` is what all ranks enqueue: for each rank, its parts in operations, one after
another.  Any two ranks agree on the order of the operations that involve both, and a rank
meets no barrier token twice.  `StepsFresh` says the same of the step values, and that none
of them is the initial content of a cell.

The program of a world is `Synchronized`, so no wait in it ends before its publication.
-/

namespace GroupFreeCollectives

open TaskGraph Positions FusedKernelArgs

/-- A rank's part in an operation, with the call that it belongs to. -/
structure Contribution where
  call : ℕ
  op : Operation
  items : List Item

/-- What the ranks of a world enqueue. -/
structure World (cfg : Config) (nonce : ℤ) (W : ℕ) where
  parts : ℕ → List Contribution
  isPart : ∀ p, ∀ x ∈ parts p, IsPart cfg nonce W x.op p x.call x.items
  lt : ∀ p, ∀ x ∈ parts p, ∀ q ∈ x.op.ranks, q < W
  /-- every call has tensors of its own -/
  calls_nodup : ∀ p, ((parts p).map Contribution.call).Nodup
  agree : ∀ p q, ((parts p).map Contribution.op).filter (q ∈ ·.ranks) =
    ((parts q).map Contribution.op).filter (p ∈ ·.ranks)
  tokens_nodup : ∀ p, ((parts p).flatMap fun x => x.op.tokens nonce cfg.alignment).Nodup

/-- A rank meets no step value twice, and none of them is 0. -/
structure World.StepsFresh {cfg : Config} {nonce : ℤ} {W : ℕ} (w : World cfg nonce W) :
    Prop where
  bases_nodup : ∀ p, ((w.parts p).filterMap fun x => x.op.stepBase nonce).Nodup
  ne_zero : ∀ p, ∀ x ∈ w.parts p, ∀ (F : FusedWork x.op) ch k,
    (F.geometry cfg nonce W).IsChunk ch k → stepValue (x.op.token nonce 1) k ≠ 0

/-! ## The tokens of a part -/

section Tokens

variable {cfg : Config} {nonce : ℤ} {p c q m tok : ℕ} {o : Operation} {its : List Item}

/-- The barriers of a part involve its members, with the tokens of the operation. -/
theorem Part.filterMap_tokenFor (h : Part cfg nonce p c o its) (q : ℕ) :
    its.filterMap (Item.tokenFor q) =
      if q ∈ o.ranks then o.tokens nonce cfg.alignment else [] := by
  split
  case isTrue hq =>
    rw [← h.tokens_eq]
    refine List.filterMap_congr fun it hit => ?_
    have hmain := h.barrier_main it hit
    rcases it with ⟨call, stream, cmd⟩
    cases cmd with
    | barrier row tok =>
      obtain ⟨rfl, rfl⟩ := hmain row tok rfl
      exact if_pos hq
    | _ => cases stream <;> rfl
  case isFalse hq =>
    refine List.filterMap_eq_nil_iff.mpr fun it hit => ?_
    have hmain := h.barrier_main it hit
    rcases it with ⟨call, stream, cmd⟩
    cases cmd with
    | barrier row tok =>
      obtain ⟨rfl, rfl⟩ := hmain row tok rfl
      exact if_neg hq
    | _ => rfl

theorem Part.hasToken_iff (h : Part cfg nonce p c o its) (hq : q ∈ o.ranks) :
    HasToken its m tok ↔ ∃ it, its[m]? = some it ∧ it.tokenFor q = some tok := by
  constructor
  · rintro ⟨it, row, hm, hcmd⟩
    obtain ⟨-, rfl⟩ := h.barrier_main it (List.mem_of_getElem? hm) row tok hcmd
    exact ⟨it, hm, Item.tokenFor_eq_some_iff.mpr ⟨_, hcmd, hq⟩⟩
  · rintro ⟨it, hm, htok⟩
    obtain ⟨row, hcmd, -⟩ := Item.tokenFor_eq_some_iff.mp htok
    exact ⟨it, row, hm, hcmd⟩

/-- Every token of the operation is that of a barrier. -/
theorem Part.mem_tokens_iff (h : Part cfg nonce p c o its) :
    tok ∈ o.tokens nonce cfg.alignment ↔ ∃ m, HasToken its m tok := by
  have hfilter := h.filterMap_tokenFor p
  rw [if_pos h.mem] at hfilter
  rw [← hfilter, List.mem_filterMap]
  constructor
  · rintro ⟨it, hit, htok⟩
    obtain ⟨m, hm⟩ := List.mem_iff_getElem?.mp hit
    exact ⟨m, (h.hasToken_iff h.mem).mpr ⟨it, hm, htok⟩⟩
  · rintro ⟨m, hm⟩
    obtain ⟨it, hm, htok⟩ := (h.hasToken_iff h.mem).mp hm
    exact ⟨it, List.mem_of_getElem? hm, htok⟩

end Tokens

namespace World

variable {cfg : Config} {nonce : ℤ} {W : ℕ} (w : World cfg nonce W)

/-- What the ranks enqueue. -/
def program : Program := fun p => (w.parts p).flatMap Contribution.items

/-- Where the part of number `n` starts. -/
def start (p n : ℕ) : ℕ := partStart Contribution.items (w.parts p) n

/-- The task of an operation of item `m` of rank `p`'s part number `n`. -/
def task (p n m : ℕ) (op : Op DataAct) : Task :=
  ⟨p, w.start p n + m, ⟨op.thread, op.phase, .data op.act⟩⟩

variable {w} {p q n n' m m' i tok : ℕ} {x y : Contribution} {it : Item} {op : Op DataAct}

/-! ## Positions -/

theorem part (hx : (w.parts p)[n]? = some x) : IsPart cfg nonce W x.op p x.call x.items :=
  w.isPart p x (List.mem_of_getElem? hx)

theorem toPart (hx : (w.parts p)[n]? = some x) : Part cfg nonce p x.call x.op x.items := by
  rcases (part hx).cases with ⟨-, h⟩ | ⟨F, h⟩
  · exact h.toPart
  · exact h.toPart

theorem getElem?_program (hx : (w.parts p)[n]? = some x) (hm : x.items[m]? = some it) :
    (w.program p)[w.start p n + m]? = some it := getElem?_flatMap hx hm

theorem exists_of_getElem?_program (h : (w.program p)[i]? = some it) :
    ∃ n x m, (w.parts p)[n]? = some x ∧ x.items[m]? = some it ∧ i = w.start p n + m :=
  exists_of_getElem?_flatMap h

theorem isTask_task (hx : (w.parts p)[n]? = some x) (h : HasOp x.items m op) :
    IsTask w.program (w.task p n m op) := by
  obtain ⟨it, ops, hm, hit, hop⟩ := h
  refine ⟨it, getElem?_program hx hm, ?_⟩
  rw [hit]
  exact List.mem_map_of_mem hop

/-- A task of a kernel is an operation of a part. -/
theorem exists_of_isTask {t : Task} {d : DataAct} (ht : IsTask w.program t)
    (hact : t.op.act = .data d) : ∃ n x m op, (w.parts t.rank)[n]? = some x ∧
      HasOp x.items m op ∧ t = w.task t.rank n m op ∧ op.act = d := by
  obtain ⟨p, i, o⟩ := t
  obtain ⟨it, hit, ho⟩ : ∃ it, (w.program p)[i]? = some it ∧ o ∈ it.cmd.ops := ht
  obtain ⟨n, x, m, hx, hm, rfl⟩ := exists_of_getElem?_program hit
  cases hcmd : it.cmd with
  | kernel ops =>
    rw [hcmd] at ho
    obtain ⟨op, hop, rfl⟩ := List.mem_map.mp ho
    cases hact
    exact ⟨n, x, m, op, hx, ⟨it, ops, hm, hcmd, hop⟩, rfl, rfl⟩
  | barrier row tok =>
    rw [hcmd] at ho
    obtain ⟨q, -, rfl | rfl | rfl⟩ := mem_barrierKernel.mp ho <;> cases hact
  | record e =>
    rw [hcmd] at ho
    rw [List.mem_singleton.mp ho] at hact
    cases hact
  | wait e =>
    rw [hcmd] at ho
    rw [List.mem_singleton.mp ho] at hact
    cases hact
  | waitStream s =>
    rw [hcmd] at ho
    rw [List.mem_singleton.mp ho] at hact
    cases hact

/-- Order within a part is order in the program. -/
theorem leads_program (hx : (w.parts p)[n]? = some x) (h : Leads x.items m m') :
    Leads (w.program p) (w.start p n + m) (w.start p n + m') := by
  rw [program, flatMap_eq_of_getElem? hx]
  exact h.append _ _

/-! ## Tokens -/

/-- A part has one index. -/
theorem eq_of_op_eq (hx : (w.parts p)[n]? = some x) (hy : (w.parts p)[n']? = some y)
    (h : x.op = y.op) : n = n' := by
  refine eq_of_nodup_flatMap (w.tokens_nodup p) hx Operation.token_mem_tokens hy ?_
  rw [h]
  exact Operation.token_mem_tokens

theorem ops_nodup (p : ℕ) : ((w.parts p).map Contribution.op).Nodup := by
  refine List.nodup_iff_getElem?_ne_getElem?.mpr fun i j hij hj heq => ?_
  rw [List.length_map] at hj
  have hget := List.getElem?_eq_getElem hj
  rw [List.getElem?_map, List.getElem?_map, hget, List.getElem?_eq_getElem (hij.trans hj)] at heq
  exact Nat.ne_of_lt hij (eq_of_op_eq (List.getElem?_eq_getElem (hij.trans hj)) hget
    (Option.some_inj.mp heq))

/-- The part of another member. -/
theorem exists_partner (hx : (w.parts p)[n]? = some x) (hq : q ∈ x.op.ranks) :
    ∃ (n' : ℕ) (y : Contribution), (w.parts q)[n']? = some y ∧ y.op = x.op := by
  have hmem : x.op ∈ ((w.parts p).map Contribution.op).filter (q ∈ ·.ranks) :=
    List.mem_filter.mpr ⟨List.mem_map_of_mem (List.mem_of_getElem? hx), by simpa using hq⟩
  rw [w.agree] at hmem
  obtain ⟨y, hy, heq⟩ := List.mem_map.mp (List.mem_of_mem_filter hmem)
  obtain ⟨n', hn'⟩ := List.mem_iff_getElem?.mp hy
  exact ⟨n', y, hn', heq⟩

/-- **Two ranks have their common operations in one order.** -/
theorem lt_of_lt {k k' : ℕ} {x' y' : Contribution} (hx : (w.parts p)[n]? = some x)
    (hy : (w.parts p)[n']? = some y) (hlt : n < n') (hqx : q ∈ x.op.ranks)
    (hqy : q ∈ y.op.ranks) (hx' : (w.parts q)[k]? = some x') (hxx : x'.op = x.op)
    (hy' : (w.parts q)[k']? = some y') (hyy : y'.op = y.op) : k < k' := by
  refine lt_of_filter_eq (ops_nodup q) (w.agree p q) (x := x.op) (y := y.op) ?_ ?_
    (by simpa using hqx) (by simpa using hqy) hlt ?_ ?_
  · rw [List.getElem?_map, hx, Option.map_some]
  · rw [List.getElem?_map, hy, Option.map_some]
  · rw [List.getElem?_map, hx', Option.map_some, hxx]
  · rw [List.getElem?_map, hy', Option.map_some, hyy]

/-! ## Edges -/

theorem onEdge_of_hasToken (hx : (w.parts p)[n]? = some x) (h : HasToken x.items m tok)
    (hq : q ∈ x.op.ranks) : OnEdge w.program p q (w.start p n + m) tok := by
  obtain ⟨it, hm, htok⟩ := ((toPart hx).hasToken_iff hq).mp h
  exact ⟨it, getElem?_program hx hm, htok⟩

theorem exists_of_onEdge (h : OnEdge w.program p q i tok) :
    ∃ n x m, (w.parts p)[n]? = some x ∧ HasToken x.items m tok ∧ q ∈ x.op.ranks ∧
      i = w.start p n + m := by
  obtain ⟨it, hit, htok⟩ := h
  obtain ⟨n, x, m, hx, hm, rfl⟩ := exists_of_getElem?_program hit
  obtain ⟨row, hcmd, hq⟩ := Item.tokenFor_eq_some_iff.mp htok
  obtain ⟨-, rfl⟩ := (toPart hx).barrier_main it (List.mem_of_getElem? hm) row tok hcmd
  exact ⟨n, x, m, hx, ⟨it, _, hm, hcmd⟩, hq, rfl⟩

theorem edgeTokens_program (p q : ℕ) : edgeTokens w.program p q =
    (((w.parts p).map Contribution.op).filter (q ∈ ·.ranks)).flatMap
      (Operation.tokens nonce cfg.alignment) := by
  have hparts : ∀ l : List Contribution, (∀ x ∈ l, Part cfg nonce p x.call x.op x.items) →
      (l.flatMap Contribution.items).filterMap (Item.tokenFor q) =
        ((l.map Contribution.op).filter (q ∈ ·.ranks)).flatMap
          (Operation.tokens nonce cfg.alignment) := by
    intro l hl
    induction l with
    | nil => rfl
    | cons x l ih =>
      rw [List.flatMap_cons, List.filterMap_append, ih fun y hy => hl y (List.mem_cons_of_mem _ hy),
        (hl x List.mem_cons_self).filterMap_tokenFor q, List.map_cons]
      by_cases hq : q ∈ x.op.ranks
      · rw [if_pos hq, List.filter_cons_of_pos (by simpa using hq), List.flatMap_cons]
      · rw [if_neg hq, List.filter_cons_of_neg (by simpa using hq), List.nil_append]
  refine hparts _ fun x hx => ?_
  obtain ⟨n, hn⟩ := List.mem_iff_getElem?.mp hx
  exact toPart hn

/-! ## Steps -/

/-- A step value is published by the kernel of a part on the fused path. -/
theorem exists_of_stepPublish {t : Task} {r cell v : ℕ} (ht : IsTask w.program t)
    (hact : t.op.act = .data (.stepPublish r cell v)) :
    ∃ n x m op, ∃ F : FusedWork x.op, ∃ ch k, (w.parts t.rank)[n]? = some x ∧
      FusedPart cfg nonce W F t.rank x.call x.items ∧ HasOp x.items m op ∧
      t = w.task t.rank n m op ∧ op.act = .stepPublish r cell v ∧
      (F.geometry cfg nonce W).IsChunk ch k ∧ FusedOp cfg nonce W F t.rank x.call ch k op := by
  obtain ⟨n, x, m, op, hx, hop, heq, hd⟩ := exists_of_isTask ht hact
  rcases (part hx).cases with ⟨-, h⟩ | ⟨F, h⟩
  · obtain ⟨src, dst, hcopy⟩ := h.act_eq_copy m op hop
    rw [hd] at hcopy
    cases hcopy
  · obtain ⟨ch, k, hch, hF⟩ := h.exists_fusedOp hop
    exact ⟨n, x, m, op, F, ch, k, hx, h, hop, heq, hd, hch, hF⟩

/-- The step base tells the part. -/
theorem StepsFresh.eq_of_stepBase_eq (hw : w.StepsFresh) (hx : (w.parts p)[n]? = some x)
    (hy : (w.parts p)[n']? = some y)
    (F : FusedWork x.op) (F' : FusedWork y.op) (h : x.op.token nonce 1 = y.op.token nonce 1) :
    n = n' := by
  refine eq_of_nodup_filterMap (b := x.op.token nonce 1) (hw.bases_nodup p) hx ?_ hy ?_
  · unfold Operation.stepBase
    rw [F.work_eq]
    rfl
  · unfold Operation.stepBase
    rw [F'.work_eq, h]
    rfl

/-- **The program of a world is synchronised.** -/
theorem synchronized (w : World cfg nonce W) : Synchronized w.program W where
  wellFormed := by
    have hpart : ∀ p (it : Item) row tok, it ∈ w.program p → it.cmd = .barrier row tok →
        it.stream = .main ∧ p ∈ row ∧ ∀ q ∈ row, q < W := by
      intro p it row tok hit hcmd
      obtain ⟨x, hx, hit⟩ := List.mem_flatMap.mp hit
      obtain ⟨n, hn⟩ := List.mem_iff_getElem?.mp hx
      obtain ⟨hmain, rfl⟩ := (toPart hn).barrier_main it hit row tok hcmd
      exact ⟨hmain, (toPart hn).mem, w.lt p x hx⟩
    refine ⟨fun p it row tok hit hcmd => (hpart p it row tok hit hcmd).1,
      fun p it row tok hit hcmd => ?_,
      fun p it row tok hit hcmd => (hpart p it row tok hit hcmd).2.2⟩
    obtain ⟨-, hp, hlt⟩ := hpart p it row tok hit hcmd
    exact hlt p hp
  symm p q := by rw [edgeTokens_program, edgeTokens_program, w.agree]
  ne_zero p q i tok h := by
    obtain ⟨n, x, m, hx, htok, -, -⟩ := exists_of_onEdge h
    exact Operation.ne_zero_of_mem_tokens ((toPart hx).mem_tokens_iff.mpr ⟨m, htok⟩)
  nodup p q := by
    rw [edgeTokens_program]
    refine List.Nodup.sublist (List.filter_sublist.flatMap _) ?_
    rw [List.flatMap_map]
    exact w.tokens_nodup p

/-- **No step value is published twice.** -/
theorem StepsFresh.synchronized (hw : w.StepsFresh) : StepsSynchronized w.program where
  unique := by
    intro u u' hu hu' r cell v hact hact'
    obtain ⟨n, x, m, op, F, ch, k, hx, hpart, hop, heq, hd, hch, hF⟩ :=
      exists_of_stepPublish hu hact
    obtain ⟨n', y, m', op', F', ch', k', hy, hpart', hop', heq', hd', hch', hF'⟩ :=
      exists_of_stepPublish hu' hact'
    obtain ⟨hopeq, -, -, hcell, hval⟩ := FusedPart.of_stepPublish hF hd
    obtain ⟨hopeq', -, -, hcell', hval'⟩ := FusedPart.of_stepPublish hF' hd'
    -- the cell tells channel, chunk and producer, and the value tells the operation
    obtain ⟨rfl, rfl, hrank⟩ := stepCell_inj (hpart.valid.chunk_lt_max hch)
      (hpart'.valid.chunk_lt_max hch') (w.lt _ x (List.mem_of_getElem? hx) _ hpart.mem)
      (w.lt _ y (List.mem_of_getElem? hy) _ hpart'.mem) (hcell.symm.trans hcell')
    have hbase : x.op.token nonce 1 = y.op.token nonce 1 :=
      stepValue_inj computeToken_lt computeToken_lt (hval.symm.trans hval')
    rw [← hrank] at hy
    obtain rfl := hw.eq_of_stepBase_eq hx hy F F' hbase
    obtain rfl : x = y := Option.some_inj.mp (hx.symm.trans hy)
    rw [hpart.eq_of_hasOp hop hop', hopeq, ← hopeq', hrank] at heq
    exact heq.trans heq'.symm
  ne_zero := by
    intro t ht cells v hact
    obtain ⟨n, x, m, op, hx, hop, -, hd⟩ := exists_of_isTask ht hact
    rcases (part hx).cases with ⟨-, h⟩ | ⟨F, h⟩
    · obtain ⟨src, dst, hcopy⟩ := h.act_eq_copy m op hop
      rw [hd] at hcopy
      cases hcopy
    · obtain ⟨ch, k, hch, hF⟩ := h.exists_fusedOp hop
      rw [(FusedPart.of_stepAwait hF hd).2]
      exact hw.ne_zero _ x (List.mem_of_getElem? hx) F ch k hch

end World

end GroupFreeCollectives
