import GroupFreeCollectives.World.Program

/-!
# Operations that share a buffer do not overlap

What touches the communication buffer of a rank in one operation happens before what
touches it in a later one (`separated`), later in the order of that rank.  The rank itself
passes from the first operation to the second on its main stream.  Another rank that
touches the buffer is between two barriers with that rank: the one behind it leads to the
main stream of the rank (`exists_exit`), and the one in front of it comes from there
(`exists_entry`).
-/

namespace GroupFreeCollectives

open TaskGraph

namespace World

variable {cfg : Config} {nonce : ℤ} {W : ℕ} {w : World cfg nonce W} {α : Type}
  {p q r n n' m m' k k' tok : ℕ} {x y x' y' : Contribution} {it : Item} {op op' : Op DataAct}
  {o : Op Act} {e e' : Task}

variable (w α) in
/-- Program order, and the order of the tokens and the waits for them. -/
abbrev Earlier (t t' : Task) : Prop := HB (device w.program α W) (TokenEdge w.program) t t'

variable (w) in
/-- A task of the main stream in rank `r`'s part number `n`. -/
structure MainTask (r n : ℕ) (e : Task) : Prop where
  task : IsTask w.program e
  item : ∃ x m it o, (w.parts r)[n]? = some x ∧ x.items[m]? = some it ∧ it.stream = .main ∧
    e = ⟨r, w.start r n + m, o⟩

/-- The main stream takes one part after another. -/
theorem MainTask.earlier (h : w.MainTask r n e) (h' : w.MainTask r n' e') (hlt : n < n') :
    w.Earlier α e e' := by
  obtain ⟨htask, x, m, it, o, hx, hm, hmain, rfl⟩ := h
  obtain ⟨-, y, m', it', o', hy, hm', hmain', rfl⟩ := h'
  have hlen : m < x.items.length := (List.getElem?_eq_some_iff.mp hm).1
  exact .before htask (Before.of_stream (Positions.partStart_add_lt hx hlen hlt)
    (getElem?_program hx hm) (getElem?_program hy hm') (hmain.trans hmain'.symm))

theorem OnMain.exists_mainTask (hx : (w.parts p)[n]? = some x) (h : OnMain x.items m) :
    ∃ o, w.MainTask p n ⟨p, w.start p n + m, o⟩ := by
  obtain ⟨it, hm, hmain, hops⟩ := h
  obtain ⟨o, ho⟩ := List.exists_mem_of_ne_nil _ hops
  exact ⟨o, ⟨it, getElem?_program hx hm, ho⟩, x, m, it, o, hx, hm, hmain, rfl⟩

theorem mainTask_task (hx : (w.parts p)[n]? = some x) (hop : HasOp x.items m op)
    (h : OnMain x.items m) : w.MainTask p n (w.task p n m op) := by
  obtain ⟨it, hm, hmain, -⟩ := h
  exact ⟨isTask_task hx hop, x, m, it, _, hx, hm, hmain, rfl⟩

/-! ## Barriers lead from one member to another -/

/-- The barriers of two members of an operation with one token. -/
theorem exists_edge (hx : (w.parts p)[n]? = some x) (htok : HasToken x.items m tok)
    (hr : r ∈ x.op.ranks) : ∃ n' y m', (w.parts r)[n']? = some y ∧ y.op = x.op ∧
      HasToken y.items m' tok ∧ OnEdge w.program p r (w.start p n + m) tok ∧
      OnEdge w.program r p (w.start r n' + m') tok ∧
      ∃ it, y.items[m']? = some it ∧ it.stream = .main := by
  obtain ⟨n', y, hy, heq⟩ := exists_partner hx hr
  have hmem : tok ∈ y.op.tokens nonce cfg.alignment := by
    rw [heq]
    exact (toPart hx).mem_tokens_iff.mpr ⟨m, htok⟩
  obtain ⟨m', htok'⟩ := (toPart hy).mem_tokens_iff.mp hmem
  have hp : p ∈ y.op.ranks := by
    rw [heq]
    exact (toPart hx).mem
  obtain ⟨it, row, hm', hcmd⟩ := id htok'
  exact ⟨n', y, m', hy, heq, htok', onEdge_of_hasToken hx htok hr, onEdge_of_hasToken hy htok' hp,
    it, hm', ((toPart hy).barrier_main it (List.mem_of_getElem? hm') row tok hcmd).1⟩

/-- **A barrier behind a task leads to the main stream of every member.** -/
theorem exists_exit_of_token (hx : (w.parts p)[n]? = some x) (hm : x.items[m]? = some it)
    (ho : o ∈ it.cmd.ops) (h : BeforeToken x.items m tok) (hr : r ∈ x.op.ranks) :
    ∃ n' y e, (w.parts r)[n']? = some y ∧ y.op = x.op ∧ w.MainTask r n' e ∧
      w.Earlier α ⟨p, w.start p n + m, o⟩ e := by
  obtain ⟨i, htok, hlead⟩ := h
  obtain ⟨n', y, m', hy, heq, -, he, hj, it', hm', hmain⟩ := exists_edge hx htok hr
  have hpublish : w.Earlier α ⟨p, w.start p n + m, o⟩ (publishTask p (w.start p n + i) r tok) :=
    (leads_program hx hlead).hb ⟨it, getElem?_program hx hm, ho⟩
  exact ⟨n', y, awaitTask r (w.start r n' + m') p tok, hy, heq,
    ⟨hj.isTask_await, y, m', it', _, hy, hm', hmain, rfl⟩, hpublish.trans (.sync (.mk hj he))⟩

/-- **A barrier in front of a task comes from the main stream of every member.** -/
theorem exists_entry_of_token (hx : (w.parts p)[n]? = some x) (h : AfterToken x.items tok m)
    (hr : r ∈ x.op.ranks) : ∃ n' y e, (w.parts r)[n']? = some y ∧ y.op = x.op ∧
      w.MainTask r n' e ∧ w.Earlier α e ⟨p, w.start p n + m, o⟩ := by
  obtain ⟨i, htok, hlead⟩ := h
  obtain ⟨n', y, m', hy, heq, -, he, hj, it', hm', hmain⟩ := exists_edge hx htok hr
  have hawait : w.Earlier α (awaitTask p (w.start p n + i) r tok) ⟨p, w.start p n + m, o⟩ :=
    (leads_program hx hlead).hb he.isTask_await
  have hsync : w.Earlier α (publishTask r (w.start r n' + m') p tok)
      (awaitTask p (w.start p n + i) r tok) := .sync (.mk he hj)
  exact ⟨n', y, publishTask r (w.start r n' + m') p tok, hy, heq,
    ⟨hj.isTask_publish, y, m', it', _, hy, hm', hmain, rfl⟩, hsync.trans hawait⟩

/-- What comes before a barrier on one member comes before what is behind it on another. -/
theorem earlier_of_tokens (hx : (w.parts p)[n]? = some x) (hy : (w.parts q)[n']? = some y)
    (heq : y.op = x.op) (hop : HasOp x.items m op) (hbefore : BeforeToken x.items m tok)
    (hafter : AfterToken y.items tok m') :
    w.Earlier α (w.task p n m op) (w.task q n' m' op') := by
  obtain ⟨i, htok, hlead⟩ := hbefore
  obtain ⟨j, htok', hlead'⟩ := hafter
  have hp : p ∈ y.op.ranks := heq ▸ (toPart hx).mem
  have hq : q ∈ x.op.ranks := heq ▸ (toPart hy).mem
  have he := onEdge_of_hasToken hx htok hq
  have he' := onEdge_of_hasToken hy htok' hp
  have hpublish : w.Earlier α (w.task p n m op) (publishTask p (w.start p n + i) q tok) :=
    (leads_program hx hlead).hb (isTask_task hx hop)
  have hawait : w.Earlier α (awaitTask q (w.start q n' + j) p tok) (w.task q n' m' op') :=
    (leads_program hy hlead').hb he'.isTask_await
  exact (hpublish.trans (.sync (.mk he' he))).trans hawait

/-! ## Tasks that touch a buffer -/

/-- A copy touches the buffers of members. -/
theorem mem_ranks_of_touches (hx : (w.parts p)[n]? = some x) (hop : HasOp x.items m op)
    (h : Touches r op.act) : r ∈ x.op.ranks := by
  obtain ⟨src, dst, b, hact, hcell⟩ := h
  have hp := (toPart hx).mem
  cases (toPart hx).copy_form m op hop src dst hact with
  | stage => rcases hcell with h | h <;> cases h; exact hp
  | own => rcases hcell with h | h <;> cases h
  | pull hq => rcases hcell with h | h <;> cases h; exact hq
  | put hq => rcases hcell with h | h <;> cases h; exacts [hp, hq]

/-- What touches the buffer of a rank comes before the end of its part. -/
theorem exists_exit (hx : (w.parts p)[n]? = some x) (hop : HasOp x.items m op)
    (h : Touches r op.act) : ∃ n' y e, (w.parts r)[n']? = some y ∧ y.op = x.op ∧
      w.MainTask r n' e ∧ (w.task p n m op = e ∨ w.Earlier α (w.task p n m op) e) := by
  by_cases hrp : r = p
  · subst hrp
    rcases (toPart hx).joined m op hop with hmain | ⟨i, hmain, hlead⟩
    · exact ⟨n, x, _, hx, rfl, mainTask_task hx hop hmain, Or.inl rfl⟩
    · obtain ⟨o, ho⟩ := OnMain.exists_mainTask hx hmain
      exact ⟨n, x, _, hx, rfl, ho, Or.inr ((leads_program hx hlead).hb (isTask_task hx hop))⟩
  · obtain ⟨-, tok, -, hbefore⟩ := (toPart hx).between m op hop r hrp h
    have hr := mem_ranks_of_touches hx hop h
    obtain ⟨it, ops, hm, hit, hmem⟩ := hop
    have ho : (⟨op.thread, op.phase, .data op.act⟩ : Op Act) ∈ it.cmd.ops := by
      rw [hit]
      exact List.mem_map_of_mem hmem
    obtain ⟨n', y, e, hy, heq, he, hearlier⟩ := exists_exit_of_token (α := α) hx hm ho hbefore hr
    exact ⟨n', y, e, hy, heq, he, Or.inr hearlier⟩

/-- What touches the buffer of a rank comes after the start of its part. -/
theorem exists_entry (hx : (w.parts p)[n]? = some x) (hop : HasOp x.items m op)
    (h : Touches r op.act) : ∃ n' y e, (w.parts r)[n']? = some y ∧ y.op = x.op ∧
      w.MainTask r n' e ∧ (e = w.task p n m op ∨ w.Earlier α e (w.task p n m op)) := by
  by_cases hrp : r = p
  · subst hrp
    rcases (toPart hx).forked m op hop with hmain | ⟨i, hmain, hlead⟩
    · exact ⟨n, x, _, hx, rfl, mainTask_task hx hop hmain, Or.inl rfl⟩
    · obtain ⟨o, ho⟩ := OnMain.exists_mainTask hx hmain
      exact ⟨n, x, _, hx, rfl, ho, Or.inr ((leads_program hx hlead).hb ho.task)⟩
  · obtain ⟨⟨tok, -, hafter⟩, -⟩ := (toPart hx).between m op hop r hrp h
    have hr := mem_ranks_of_touches hx hop h
    obtain ⟨n', y, e, hy, heq, he, hearlier⟩ := exists_entry_of_token (α := α) hx hafter hr
    exact ⟨n', y, e, hy, heq, he, Or.inr hearlier⟩

/-- **What touches a buffer in one operation happens before what touches it in a later
one**, in the order of the rank whose buffer it is. -/
theorem separated (hx : (w.parts p)[n]? = some x) (hop : HasOp x.items m op)
    (h : Touches r op.act) (hy : (w.parts q)[n']? = some y) (hop' : HasOp y.items m' op')
    (h' : Touches r op'.act) (hx' : (w.parts r)[k]? = some x') (hxx : x'.op = x.op)
    (hy' : (w.parts r)[k']? = some y') (hyy : y'.op = y.op) (hlt : k < k') :
    w.Earlier α (w.task p n m op) (w.task q n' m' op') := by
  obtain ⟨l, z, e, hz, hzx, he, hexit⟩ := exists_exit (α := α) hx hop h
  obtain ⟨l', z', e', hz', hzy, he', hentry⟩ := exists_entry (α := α) hy hop' h'
  obtain rfl := eq_of_op_eq hz hx' (hzx.trans hxx.symm)
  obtain rfl := eq_of_op_eq hz' hy' (hzy.trans hyy.symm)
  have hmid : w.Earlier α e e' := he.earlier he' hlt
  rcases hexit with rfl | hexit
  · rcases hentry with rfl | hentry
    · exact hmid
    · exact hmid.trans hentry
  · rcases hentry with rfl | hentry
    · exact hexit.trans hmid
    · exact (hexit.trans hmid).trans hentry

end World

end GroupFreeCollectives
