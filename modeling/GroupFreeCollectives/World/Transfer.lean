import GroupFreeCollectives.World.Ordered

/-!
# What a transfer delivers

The two calls of a transfer are one operation: the request, and the epochs of the pair.
When the receiver's call has completed, its tensor starts with the sender's bytes, and
nothing else of it has changed (`transfer_delivers`).  This holds for `put` and for `get`,
for every engine and width of the copy between the barriers, and for every interleaving
with other calls, some of which use the same communication buffers.  The copy counts its tiles
exactly here.
-/

namespace GroupFreeCollectives

open TaskGraph

variable {cfg : Config} {nonce : ℤ} {W : ℕ} {J : Jobs cfg nonce W} {α : Type} {m₀ : Memory α}
  {s : State Task (Memory α)} {p n call N : ℕ} {current : StreamId} {a : P2pArgs} {gid : ℤ}
  {ks : List (List (Op DataAct))}

/-- The operation that call number `n` of a rank is in. -/
def Jobs.operation (J : Jobs cfg nonce W) (p n : ℕ) : Option Operation :=
  (J.parts p)[n]?.map Contribution.op

theorem Jobs.operation_eq {x : Contribution} (hx : (J.parts p)[n]? = some x) :
    J.operation p n = some x.op := by
  rw [operation, hx]
  rfl

/-- Calls whose parts are in one operation. -/
theorem Jobs.operation_eq_operation {q k : ℕ} {x y : Contribution}
    (hx : (J.parts p)[n]? = some x) (hy : (J.parts q)[k]? = some y) (h : y.op = x.op) :
    J.operation q k = J.operation p n := by
  rw [operation_eq hx, operation_eq hy, h]

/-- The output of rank `p`'s call starts with `N` bytes of the input of rank `q`'s call, and
nothing else of the two has changed. -/
structure Delivered (m₀ m : Memory α) (q call' p call N : ℕ) : Prop where
  bytes : ∀ b < N, m.byte (.output p call b) = m₀.byte (.input q call' b)
  rest : ∀ b, N ≤ b → m.byte (.output p call b) = m₀.byte (.output p call b)
  source : ∀ b, m.byte (.input q call' b) = m₀.byte (.input q call' b)

/-- Call number `k` of rank `q` is the sender's side of a transfer to rank `p`. -/
def SendsTo (J : Jobs cfg nonce W) (protocol : Protocol) (q k call p N : ℕ) : Prop :=
  ∃ current a gid ks, (J.jobs q)[k]? = some (.p2p call current a N gid ks) ∧ a.role = .sender ∧
    a.protocol = protocol ∧ a.srcRank.toNat = q ∧ a.dstRank.toNat = p

/-- The sender's part in the operation of a receiver. -/
theorem sendsTo_of_op_eq {q k : ℕ} {y : Contribution} {e : ℕ}
    (hy : (J.parts q)[k]? = some y) (hq : q = a.srcRank.toNat)
    (hyx : y.op = (Job.p2p call current a N gid ks).operation e) :
    SendsTo J a.protocol q k y.call a.dstRank.toNat N := by
  obtain ⟨j, e', hj, rfl⟩ := Jobs.exists_job hy
  have hvalid := J.valid q j (List.mem_of_getElem? hj)
  have hrank := J.isRank q (Jobs.lt_of_mem_jobs (List.mem_of_getElem? hj))
  have hreq : j.request = (Job.p2p call current a N gid ks).request :=
    congrArg Operation.toRequest hyx
  cases j with
  | barrier call' gid' ranks => cases congrArg Request.work hreq
  | collective current' a' path => cases congrArg Request.work hreq
  | p2p call' current' a' N' gid' ks' =>
    have hwork : Work.p2p a'.protocol a'.srcRank.toNat a'.dstRank.toNat N' =
        .p2p a.protocol a.srcRank.toNat a.dstRank.toNat N := congrArg Request.work hreq
    injection hwork with hprotocol hsrc hdst hN
    refine ⟨current', a', gid', ks', ?_, ?_, hprotocol, hsrc.trans hq.symm, hdst⟩
    · rw [hj, hN]
      rfl
    · cases hvalid with
      | p2p hmem hsender hreceiver _ =>
        refine (Runtime.role_eq_sender_iff hmem hsender hreceiver).mpr ?_
        rw [hrank.rank_eq, hsrc, hq]

/-- **A transfer delivers the sender's bytes**, with exact counts. -/
theorem transfer_delivers (htok : J.TokensDistinct) (hm : m₀.Fresh)
    (hs : Reachable (device J.program α W) m₀ s)
    (hj : (J.jobs p)[n]? = some (.p2p call current a N gid ks)) (hrole : a.role = .receiver)
    (hdone : Completed J.program s p call) :
    ∃ k call', SendsTo J a.protocol a.srcRank.toNat k call' p N ∧
      J.operation a.srcRank.toNat k = J.operation p n ∧
      Delivered m₀ s.mem a.srcRank.toNat call' p call N := by
  obtain ⟨e, hx⟩ := Jobs.exists_part hj
  have hrank := J.isRank p (Jobs.lt_of_mem_jobs (List.mem_of_getElem? hj))
  have hdst : a.dstRank.toNat = p := by
    cases J.valid p _ (List.mem_of_getElem? hj) with
    | p2p hmem hsender hreceiver _ => rw [← hreceiver hrole, hrank.rank_eq]
  have hwork : ((Job.p2p call current a N gid ks).operation e).work =
      .p2p a.protocol a.srcRank.toNat p N := by
    rw [← hdst]
    rfl
  obtain ⟨hbytes, hrest⟩ := World.transfer_eq (w := J.world htok) hm hs hx hwork
    (Completed.copied hdone hx)
  obtain ⟨k, y, hy, hyx⟩ := World.exists_partner (w := J.world htok) (q := a.srcRank.toNat) hx
    List.mem_cons_self
  refine ⟨k, y.call, ?_, ?_, fun b hb => ?_, hrest, fun b => ?_⟩
  · have hsends := sendsTo_of_op_eq hy rfl hyx
    rwa [hdst] at hsends
  · exact Jobs.operation_eq_operation hx hy hyx
  · obtain ⟨k', y', hy', hyx', hval⟩ := hbytes b hb
    obtain rfl := World.eq_of_op_eq hy' hy (hyx'.trans hyx.symm)
    obtain rfl : y' = y := Option.some_inj.mp (hy'.symm.trans hy)
    exact hval
  · exact World.input_eq (w := J.world htok) hs

/-- What has finished has completed every call. -/
theorem completed_of_finished {prog : Program} (h : Finished (device prog α W) s) :
    Completed prog s p call := fun i it o hit _ ho => h ⟨p, i, o⟩ ⟨it, hit, ho⟩

end GroupFreeCollectives
