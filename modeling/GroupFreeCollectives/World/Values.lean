import GroupFreeCollectives.DataFlow
import GroupFreeCollectives.World.Order

/-!
# What the ranks of a world read

A copy that reads a communication buffer finds there the byte that was staged for the same
operation (`byte_of_read`), and nothing else stores to the outputs.  So a collective
delivers the inputs of its members (`StepsFresh.output_eq`), and a transfer the bytes of its
sender (`transfer_eq`).  A transfer needs nothing from the step values of the fused path.
-/

namespace GroupFreeCollectives

open TaskGraph FusedKernelArgs

namespace World

variable {cfg : Config} {nonce : ℤ} {W : ℕ} {w : World cfg nonce W} {α : Type}
  {m₀ : Memory α} {s : State Task (Memory α)} {p q r n n' m m' b : ℕ} {x y : Contribution}
  {op op' : Op DataAct} {src dst : Cell} {u : Task}

/-! ## Writers -/

/-- The task stores to the cell. -/
def Stores (c : Cell) (t : Task) : Prop := t.op.act.writesByte c

theorem stores_frame {c : Cell} (m : Memory α) (t : Task) (h : ¬ Stores c t) :
    ((device w.program α W).effect m t).byte c = m.byte c := byte_effect_of_not_writes h

theorem stores_task {c : Cell} (hact : op.act = .copy src c) : Stores c (w.task p n m op) := by
  show (Act.data op.act).writesByte c
  rw [hact]
  rfl

/-- What a copy leaves in its target. -/
theorem byte_effect_task {c : Cell} (mem : Memory α) (hact : op.act = .copy src c) :
    ((device w.program α W).effect mem (w.task p n m op)).byte c = mem.byte src := by
  show ((Act.data op.act).effect W p mem).byte c = _
  rw [hact, byte_effect_copy]

/-- What stores to a cell is a copy of a part. -/
theorem exists_of_stores {c : Cell} (hu : IsTask w.program u) (h : Stores c u) :
    ∃ n x m op src, (w.parts u.rank)[n]? = some x ∧ HasOp x.items m op ∧
      u = w.task u.rank n m op ∧ op.act = .copy src c ∧ CopyForm x.op u.rank x.call src c := by
  obtain ⟨src, hact⟩ := Act.exists_of_writesByte h
  obtain ⟨n, x, m, op, hx, hop, heq, hd⟩ := exists_of_isTask hu hact
  exact ⟨n, x, m, op, src, hx, hop, heq, hd, (toPart hx).copy_form m op hop src c hd⟩

theorem not_stores_input (hu : IsTask w.program u) (c : ℕ) :
    ¬ Stores (.input r c b) u := by
  intro h
  obtain ⟨n, x, m, op, src, -, -, -, -, hform⟩ := exists_of_stores hu h
  cases hform

variable (w α) in
/-- What an operation reads from a communication buffer was stored in the same operation,
before it in the order that `sync` gives. -/
def WritersBefore (sync : Task → Task → Prop) (o : Operation) : Prop :=
  ∀ {p n m r b : ℕ} {x : Contribution} {op : Op DataAct} {dst : Cell},
    (w.parts p)[n]? = some x → x.op = o → HasOp x.items m op →
    op.act = .copy (.comm r b) dst → ∃ q n' y m' op' src, (w.parts q)[n']? = some y ∧ y.op = o ∧
      HasOp y.items m' op' ∧ op'.act = .copy src (.comm r b) ∧
      HB (device w.program α W) sync (w.task q n' m' op') (w.task p n m op)

/-- On a path other than the fused one the barriers give the order. -/
theorem writersBefore_of_plain {o : Operation} (hempty : IsEmpty (FusedWork o)) :
    w.WritersBefore α (TokenEdge w.program) o := by
  rintro p n m r b x op dst hx rfl hop hact
  rcases (part hx).cases with ⟨-, h⟩ | ⟨F, -⟩
  · obtain ⟨k, -, q, hq, hann, hafter⟩ := h.reads m op hop r b dst hact
    obtain ⟨n', ⟨call, o, its⟩, hy, rfl⟩ := exists_partner hx hq
    rcases (part hy).cases with ⟨-, h'⟩ | ⟨F, -⟩
    · obtain ⟨m', op', src, hop', hact', hbefore⟩ := h'.writes k r b hann
      exact ⟨q, n', _, m', op', src, hy, rfl, hop', hact',
        earlier_of_tokens hy hx rfl hop' hbefore hafter⟩
    · exact hempty.elim F
  · exact hempty.elim F

/-- **What is read was stored in the same operation**, before. -/
theorem writersBefore (o : Operation) : w.WritersBefore α (SyncEdge w.program) o := by
  rintro p n m r b x op dst hx rfl hop hact
  rcases (part hx).cases with ⟨hempty, -⟩ | ⟨F, h⟩
  · obtain ⟨q, n', y, m', op', src, hy, hyx, hop', hact', hearlier⟩ :=
      writersBefore_of_plain (α := α) hempty hx rfl hop hact
    exact ⟨q, n', y, m', op', src, hy, hyx, hop', hact', hearlier.mono fun _ _ => .token⟩
  · -- a pull of the fused kernel waits for the step value of its chunk
    obtain ⟨ch, k, hch, hF⟩ := h.exists_fusedOp hop
    obtain ⟨θ, φ, d⟩ := op
    obtain ⟨rfl, rfl, hr, hne, l, hl, j, hj, rfl⟩ := FusedPart.of_pull h.mem hF hact
    obtain ⟨n', ⟨call, o, its⟩, hy, rfl⟩ := exists_partner hx hr
    rcases (part hy).cases with ⟨hempty, -⟩ | ⟨F', h'⟩
    · exact hempty.elim F
    obtain rfl := Subsingleton.elim F F'
    obtain ⟨m', hawait⟩ := h.exists_hasOp hch .await
    obtain rfl := h.eq_of_hasOp hop hawait
    obtain ⟨m', hpublish⟩ := h'.exists_hasOp hch (.publish h.mem hne.symm)
    obtain ⟨m'', hstage⟩ := h'.exists_hasOp hch (.stage hl hj)
    obtain rfl := h'.eq_of_hasOp hpublish hstage
    refine ⟨r, n', _, m', _, _, hy, rfl, hstage, rfl, ?_⟩
    have hpub := isTask_task hy hpublish
    have hcell : (F.geometry cfg nonce W).cellOff ch k r ∈ F.cells cfg nonce W p ch k :=
      (FusedPart.mem_cells h.nodup h.mem).mpr ⟨r, hr, hne, rfl⟩
    have hsync : HB (device w.program α W) (SyncEdge w.program) _
        (w.task p n m ⟨2 * ch + 1, 2 * k + 2,
          .stepAwait (F.cells cfg nonce W p ch k) (stepValue (x.op.token nonce 1) k)⟩) :=
      .sync (.step hpub rfl rfl hcell)
    have hstaged := isTask_task hy hstage
    have hawaited := isTask_task hx hawait
    exact (HB.trans (.before hstaged (Before.of_phase (Nat.lt_succ_self (2 * k)))) hsync).trans
      (.before hawaited (Before.of_phase (Nat.lt_succ_self (2 * k + 2))))

/-! ## What is read -/

/-- What reads or stores a byte of a buffer touches the buffer. -/
theorem touches_of_read (hact : op.act = .copy (.comm r b) dst) : Touches r op.act :=
  ⟨_, _, b, hact, Or.inl rfl⟩

theorem touches_of_write (hact : op.act = .copy src (.comm r b)) : Touches r op.act :=
  ⟨_, _, b, hact, Or.inr rfl⟩

section Reads

variable {sync : Task → Task → Prop}

/-- **The last writer of what is read is in the same operation.** -/
theorem exists_last_writer (hsync : SyncSound (device w.program α W) m₀ sync)
    (htoken : ∀ u t, TokenEdge w.program u t → sync u t)
    (hwriters : w.WritersBefore α sync x.op) (hs : Reachable (device w.program α W) m₀ s)
    (hx : (w.parts p)[n]? = some x) (hop : HasOp x.items m op)
    (hact : op.act = .copy (.comm r b) dst)
    (hen : Enabled (device w.program α W) s (w.task p n m op)) :
    ∃ q n' y m' op' src s', (w.parts q)[n']? = some y ∧ y.op = x.op ∧ HasOp y.items m' op' ∧
      op'.act = .copy src (.comm r b) ∧ Reachable (device w.program α W) m₀ s' ∧
      Enabled (device w.program α W) s' (w.task q n' m' op') ∧
      s.mem.byte (.comm r b) = s'.mem.byte src := by
  obtain ⟨q₀, n₀, y₀, l₀, op₀, src₀, hy₀, heq₀, hop₀, hact₀, hearlier⟩ :=
    hwriters hx rfl hop hact
  have hr := mem_ranks_of_touches hx hop (touches_of_read hact)
  obtain ⟨k, x', hx', hxx⟩ := exists_partner hx hr
  -- a writer of another operation is ordered with the two
  have hord : ∀ u, IsTask w.program u → Stores (.comm r b) u →
      (∃ n' y m' op' src, (w.parts u.rank)[n']? = some y ∧ y.op = x.op ∧ HasOp y.items m' op' ∧
        op'.act = .copy src (.comm r b) ∧ u = w.task u.rank n' m' op') ∨
      HB (device w.program α W) sync u (w.task q₀ n₀ l₀ op₀) ∨
      HB (device w.program α W) sync (w.task p n m op) u := by
    intro u hu hstores
    obtain ⟨n', y, m', op', src, hy, hop', heq, hact', -⟩ := exists_of_stores hu hstores
    obtain ⟨k', y', hy', hyy⟩ :=
      exists_partner hy (mem_ranks_of_touches hy hop' (touches_of_write hact'))
    rcases Nat.lt_trichotomy k' k with hlt | rfl | hlt
    · rw [heq]
      exact Or.inr (Or.inl ((separated hy hop' (touches_of_write hact') hy₀ hop₀
        (touches_of_write hact₀) hy' hyy hx' (hxx.trans heq₀.symm) hlt).mono htoken))
    · obtain rfl : x' = y' := Option.some_inj.mp (hx'.symm.trans hy')
      exact Or.inl ⟨n', y, m', op', src, hy, hyy.symm.trans hxx, hop', hact', heq⟩
    · rw [heq]
      exact Or.inr (Or.inr ((separated hx hop (touches_of_read hact) hy hop'
        (touches_of_write hact') hx' hxx hy' hyy hlt).mono htoken))
  obtain ⟨u, s', ⟨n', y, m', op', src, hy, heq, hop', hact', htask⟩, -, hs', hen', hval⟩ :=
    hs.good_writer (fun m => m.byte (.comm r b)) hsync stores_frame (stores_task hact₀)
      (hen.hb_mem hsync hs hearlier) hen.fresh hord
  rw [htask] at hen' hval
  exact ⟨u.rank, n', y, m', op', src, s', hy, heq, hop', hact', hs', hen',
    hval.trans (byte_effect_task s'.mem hact')⟩

/-- No run changes an input. -/
theorem input_eq {q c : ℕ} (hs : Reachable (device w.program α W) m₀ s) :
    s.mem.byte (.input q c b) = m₀.byte (.input q c b) :=
  byte_eq_of_not_written hs fun _ hu => not_stores_input hu _

/-- **A copy that reads a communication buffer finds what was staged for its operation**:
the byte of the input of the rank that the operation takes it from. -/
theorem byte_of_read (hsync : SyncSound (device w.program α W) m₀ sync)
    (htoken : ∀ u t, TokenEdge w.program u t → sync u t)
    (hwriters : w.WritersBefore α sync x.op) (hs : Reachable (device w.program α W) m₀ s)
    (hx : (w.parts p)[n]? = some x) (hop : HasOp x.items m op)
    (hact : op.act = .copy (.comm r b) dst)
    (hen : Enabled (device w.program α W) s (w.task p n m op)) :
    ∃ (n' : ℕ) (y : Contribution), (w.parts (x.op.work.origin r))[n']? = some y ∧ y.op = x.op ∧
      s.mem.byte (.comm r b) = m₀.byte (.input (x.op.work.origin r) y.call b) := by
  obtain ⟨q, n', y, m', op', src, s', hy, heq, hop', hact', hs', hen', hval⟩ :=
    exists_last_writer hsync htoken hwriters hs hx hop hact hen
  cases (toPart hy).copy_form m' op' hop' _ _ hact' with
  | stage horigin =>
    rw [heq] at horigin
    refine ⟨n', y, ?_, heq, ?_⟩
    · rw [horigin, hy]
    · rw [horigin, hval, input_eq hs']
  | put hq hne horigin hput =>
    -- what the sender copies it has staged itself
    rw [← heq] at hwriters
    rw [heq] at horigin hput
    obtain ⟨q', n'', z, m'', op'', src', s'', hz, hzeq, hop'', hact'', hs'', -, hval'⟩ :=
      exists_last_writer hsync htoken hwriters hs' hy hop' hact' hen'
    cases (toPart hz).copy_form m'' op'' hop'' _ _ hact'' with
    | stage horigin' =>
      refine ⟨n'', z, ?_, hzeq.trans heq, ?_⟩
      · rw [hput, hz]
      · rw [hput, hval, hval', input_eq hs'']
    | put hq' hne' horigin' hput' =>
      rw [hzeq, heq] at hput'
      exact absurd (horigin.symm.trans hput') hne'

end Reads

/-- Step values that are fresh make every read see its operation. -/
theorem StepsFresh.byte_of_read (hw : w.StepsFresh) (hm : m₀.Zeroed)
    (hs : Reachable (device w.program α W) m₀ s) (hx : (w.parts p)[n]? = some x)
    (hop : HasOp x.items m op) (hact : op.act = .copy (.comm r b) dst)
    (hen : Enabled (device w.program α W) s (w.task p n m op)) :
    ∃ (n' : ℕ) (y : Contribution), (w.parts (x.op.work.origin r))[n']? = some y ∧ y.op = x.op ∧
      s.mem.byte (.comm r b) = m₀.byte (.input (x.op.work.origin r) y.call b) :=
  World.byte_of_read (w.synchronized.sound hw.synchronized hm) (fun _ _ => .token)
    (writersBefore x.op) hs hx hop hact hen

/-! ## What an operation delivers -/

/-- The part has done all its copies. -/
def Copied (w : World cfg nonce W) (s : State Task (Memory α)) (p n : ℕ) (x : Contribution) :
    Prop := ∀ m op, HasOp x.items m op → w.task p n m op ∈ s.done

/-- An output is stored to by its own part only. -/
theorem exists_of_stores_output (hx : (w.parts p)[n]? = some x) (hu : IsTask w.program u)
    (h : Stores (.output p x.call b) u) : ∃ m op src, HasOp x.items m op ∧
      u = w.task p n m op ∧ op.act = .copy src (.output p x.call b) := by
  obtain ⟨n', x', m, op, src, hx', hop, heq, hact, hform⟩ := exists_of_stores hu h
  -- the call tells the part
  obtain ⟨hrank, hcall⟩ := hform.of_output
  rw [hrank] at hx' heq
  obtain rfl : x' = x := List.inj_on_of_nodup_map (w.calls_nodup p) (List.mem_of_getElem? hx')
    (List.mem_of_getElem? hx) hcall
  obtain rfl := eq_of_op_eq hx' hx rfl
  exact ⟨m, op, src, hop, heq, hact⟩

/-- **An output byte that has been stored** is what its last writer has read. -/
theorem exists_output_writer (hs : Reachable (device w.program α W) m₀ s)
    (hx : (w.parts p)[n]? = some x) (hact : op.act = .copy src (.output p x.call b))
    (hdone : w.task p n m op ∈ s.done) :
    ∃ m' op' src' s', HasOp x.items m' op' ∧ op'.act = .copy src' (.output p x.call b) ∧
      Reachable (device w.program α W) m₀ s' ∧
      Enabled (device w.program α W) s' (w.task p n m' op') ∧
      s.mem.byte (.output p x.call b) = s'.mem.byte src' := by
  rcases hs.last_writer (fun m => m.byte (.output p x.call b))
    (Stores (.output p x.call b)) stores_frame with
    ⟨-, hnone⟩ | ⟨u, s', hstores, hmem, hs', hen, hval, -⟩
  · exact absurd (stores_task hact) (hnone _ hdone)
  obtain ⟨m', op', src', hop', heq, hact'⟩ :=
    exists_of_stores_output hx (hs.task_of_mem hmem) hstores
  rw [heq] at hen hval
  exact ⟨m', op', src', s', hop', hact', hs', hen, hval.trans (byte_effect_task s'.mem hact')⟩

/-- **Every output byte of a collective is the input byte that the collective says.** -/
theorem StepsFresh.output_eq {kind : Collective} {N i : ℕ} {path : PathKind} (hw : w.StepsFresh)
    (hm : m₀.Zeroed) (hs : Reachable (device w.program α W) m₀ s)
    (hx : (w.parts p)[n]? = some x) (hwork : x.op.work = .collective kind N path)
    (hdone : w.Copied s p n x) (hq : x.op.ranks[i]? = some q) (hb : b < N) :
    ∃ (n' : ℕ) (y : Contribution), (w.parts q)[n']? = some y ∧ y.op = x.op ∧
      s.mem.byte (.output p x.call (i * N + b)) =
        m₀.byte (.input q y.call (kind.srcOffset (x.op.ranks.idxOf p) N + b)) := by
  have hdeliv := (part hx).delivers kind N path hwork
  obtain ⟨m, op, src, hop, hact⟩ := hdeliv.covers i q b hq hb
  obtain ⟨m', op', src', s', hop', hact', hs', hen, hval⟩ :=
    exists_output_writer hs hx hact (hdone m op hop)
  obtain ⟨i', q', b', hq', hb', hy, hsrc⟩ := hdeliv.outputs m' op' hop' src' _ hact'
  obtain ⟨rfl, rfl⟩ := Tiling.pair_inj hb hb' hy
  obtain rfl : q = q' := Option.some_inj.mp (hq.symm.trans hq')
  rcases hsrc with rfl | ⟨rfl, rfl⟩
  · obtain ⟨k, y, hy, hyx, hread⟩ := hw.byte_of_read hm hs' hx hop' hact' hen
    have horigin : x.op.work.origin q = q := by rw [hwork]; rfl
    rw [horigin] at hy hread
    exact ⟨k, y, hy, hyx, hval.trans hread⟩
  · exact ⟨n, x, hx, rfl, hval.trans (input_eq hs')⟩

/-- **What the receiver of a transfer gets**: the bytes of the sender, and nothing else.
The barriers alone give the order, whatever the step values are. -/
theorem transfer_eq {protocol : Protocol} {N r : ℕ} (hm : m₀.Fresh)
    (hs : Reachable (device w.program α W) m₀ s) (hx : (w.parts p)[n]? = some x)
    (hwork : x.op.work = .p2p protocol r p N) (hdone : w.Copied s p n x) :
    (∀ b < N, ∃ (n' : ℕ) (y : Contribution), (w.parts r)[n']? = some y ∧ y.op = x.op ∧
      s.mem.byte (.output p x.call b) = m₀.byte (.input r y.call b)) ∧
    ∀ b, N ≤ b → s.mem.byte (.output p x.call b) = m₀.byte (.output p x.call b) := by
  have htrans := (part hx).transfers protocol r N hwork
  have hempty : IsEmpty (FusedWork x.op) := by
    refine ⟨fun F => ?_⟩
    have hF := F.work_eq
    rw [hwork] at hF
    cases hF
  constructor
  · intro b hb
    obtain ⟨m, op, src, hop, hact⟩ := htrans.covers b hb
    obtain ⟨m', op', src', s', hop', hact', hs', hen, hval⟩ :=
      exists_output_writer hs hx hact (hdone m op hop)
    obtain ⟨-, q, rfl, horigin⟩ := htrans.outputs m' op' hop' src' _ hact'
    obtain ⟨k, y, hy, hyx, hread⟩ := byte_of_read (w.synchronized.tokenSound hm)
      (fun _ _ => id) (writersBefore_of_plain hempty) hs' hx hop' hact' hen
    rw [horigin] at hy hread
    exact ⟨k, y, hy, hyx, hval.trans hread⟩
  · intro b hb
    refine byte_eq_of_not_written hs fun u hu hstores => ?_
    obtain ⟨m, op, src, hop, -, hact⟩ := exists_of_stores_output hx hu hstores
    exact absurd (htrans.outputs m op hop src b hact).1 (Nat.not_lt.mpr hb)

end World

end GroupFreeCollectives
