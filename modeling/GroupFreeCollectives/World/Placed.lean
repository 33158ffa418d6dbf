import GroupFreeCollectives.World.Exchange
import GroupFreeCollectives.World.Serial

/-!
# Tensors in the memory of their rank

`device` gives every call tensors of its own.  A caller's tensors lie in the memory of its
rank instead, at the addresses that it passes (`Jobs.placement`), and those of two calls may
be the same or overlap: the output of a gather is the input of the next transfer.
`placedDevice` runs a program with its tensors placed so.  Within one call the bytes that are
read and the bytes that are stored have to be apart (`Job.Apart`).
-/

namespace GroupFreeCollectives

open TaskGraph

/-! ## The device with placed tensors -/

/-- Where the tensors of every rank's calls start. -/
structure Placement where
  input : ℕ → ℕ → ℕ
  output : ℕ → ℕ → ℕ

/-- The memory of all ranks.  The tensors are in `heap`; of `device`, only the communication
buffers, the grids and the counters are used. -/
structure PlacedMemory (α : Type) where
  device : Memory α
  heap : ℕ → ℕ → α

namespace PlacedMemory

variable {α : Type} (pl : Placement) (m : PlacedMemory α)

/-- Load one byte. -/
def load : Cell → α
  | .comm r a => m.device.byte (.comm r a)
  | .input r c a => m.heap r (pl.input r c + a)
  | .output r c a => m.heap r (pl.output r c + a)

/-- Store to one address of a rank's memory. -/
def storeHeap (r a : ℕ) (v : α) : PlacedMemory α :=
  { m with heap := Function.update m.heap r (Function.update (m.heap r) a v) }

/-- Store one byte. -/
def put (v : α) : Cell → PlacedMemory α
  | .comm r a => { m with device :=
      { m.device with byte := Function.update m.device.byte (.comm r a) v } }
  | .input r c a => m.storeHeap r (pl.input r c + a) v
  | .output r c a => m.storeHeap r (pl.output r c + a) v

end PlacedMemory

/-- What an operation of rank `r` does. -/
def Act.placedEffect {α : Type} (pl : Placement) (W r : ℕ) (m : PlacedMemory α) :
    Act → PlacedMemory α
  | .data (.copy src dst) => m.put pl (m.load pl src) dst
  | a => { m with device := a.effect W r m.device }

/-- The device, with the tensors of the calls in the memories of their ranks. -/
def placedDevice (pl : Placement) (prog : Program) (α : Type) (W : ℕ) :
    System Task (PlacedMemory α) where
  task := IsTask prog
  before := Before prog
  guard m t := t.op.act.guard W t.rank m.device
  effect m t := t.op.act.placedEffect pl W t.rank m

/-! ## The tensors of a job -/

namespace Job

/-- The tensor that a call reads. -/
def inputTensor : Job → Option Tensor
  | .barrier .. => none
  | .collective _ a _ => some a.input
  | .p2p _ _ a _ _ _ => if a.role = .sender then some a.localTensor else none

/-- The tensor that a call stores to. -/
def outputTensor : Job → Option Tensor
  | .barrier .. => none
  | .collective _ a _ => some a.output
  | .p2p _ _ a _ _ _ => if a.role = .receiver then some a.localTensor else none

/-- A call that reads one tensor and stores to another has them apart. -/
def Apart (j : Job) : Prop :=
  ∀ t ∈ j.inputTensor, ∀ t' ∈ j.outputTensor,
    t.dataPtr + t.nbytes ≤ t'.dataPtr ∨ t'.dataPtr + t'.nbytes ≤ t.dataPtr

instance : DecidablePred Apart := fun _ => inferInstanceAs (Decidable (∀ t ∈ _, ∀ t' ∈ _, _ ∨ _))

variable {rt : Runtime} {j : Job} {e m m' r r' c c' b y : ℕ} {op op' : Op DataAct}
  {src dst : Cell}

/-- The bytes of the input that a collective reads. -/
theorem Valid.collective_input_lt {current : StreamId} {a : CollectiveArgs} {path : DataPath}
    (h : (Job.collective current a path).Valid rt)
    (hop : HasOp ((Job.collective current a path).items rt e) m op)
    (hact : op.act = .copy (.input r c b) dst) : b < a.input.nbytes := by
  cases h with
  | collective hmem hrow hindex hchecked hready hlaunch =>
    rw [hchecked.input_nbytes, a.group.size_eq, ← hrow]
    have hself : a.row.idxOf rt.rank < a.row.length := List.idxOf_lt_length_of_mem hmem.mem
    by_cases hfused : ∃ k s, path = .fused k s
    · obtain ⟨k, s, rfl⟩ := hfused
      have hpart : FusedPart rt.config rt.sessionNonce rt.worldSize
          (Runtime.fusedWork a k s current e) rt.rank a.call
          ((Job.collective current a (.fused k s)).items rt e) :=
        Runtime.fusedPart hmem hindex hready hlaunch
      obtain ⟨ch, k', hch, hF⟩ := hpart.exists_fusedOp hop
      cases hF with
      | @stage l j hl hj =>
        cases hact
        have hlt := hpart.valid.chunk_lt hch hj
        cases hkind : a.kind with
        | allGather =>
          have hl : l < FusedKernelArgs.numSlices _ a.kind := hl
          rw [hkind] at hl
          obtain rfl : l = 0 := Nat.lt_one_iff.mp hl
          rw [Nat.zero_mul, Nat.zero_add]
          exact hlt
        | all2All =>
          have hl : l < FusedKernelArgs.numSlices _ a.kind := hl
          rw [hkind] at hl
          show Collective.all2All.srcOffset l a.sliceBytes + _ < _
          exact Runtime.srcOffset_add_lt hl hlt
      | own hj =>
        cases hact
        exact Runtime.srcOffset_add_lt hself (hpart.valid.chunk_lt hch hj)
      | publish hq hne => cases hact
      | await => cases hact
      | pull hq hne hj => cases hact
    · have hnot : ∀ k s, path ≠ .fused k s := fun k s heq => hfused ⟨k, s, heq⟩
      have hsplits : Runtime.Splits rt a (rt.pathPairs a path)
          (itemActs ((Job.collective current a path).items rt e)) := by
        show Runtime.Splits rt a _
          (itemActs (Runtime.ingestItems a.call current ++ rt.pathItems a e path))
        rw [Runtime.itemActs_append, Runtime.itemActs_ingestItems, List.nil_append]
        exact Runtime.splits_pathItems e hrow hready hnot
      have hstaging := hsplits.staging _ (mem_itemActs_iff.mpr ⟨m, op, hop, hact⟩) rfl
      obtain ⟨b', hb', heq⟩ := hstaging
      cases heq
      rwa [a.group.size_eq, ← hrow] at hb'

/-- The bytes of the output that a collective stores to. -/
theorem Valid.collective_output_lt {current : StreamId} {a : CollectiveArgs} {path : DataPath}
    (h : (Job.collective current a path).Valid rt)
    (hop : HasOp ((Job.collective current a path).items rt e) m op)
    (hact : op.act = .copy src (.output rt.rank a.call y)) : y < a.output.nbytes := by
  obtain ⟨i, q, b, hq, hb, rfl, -⟩ := ((h.isPart e).delivers a.kind a.sliceBytes path.pathKind
    rfl).outputs m op hop src y hact
  cases h with
  | collective hmem hrow hindex hchecked hready hlaunch =>
    rw [hchecked.output_nbytes, a.group.size_eq, ← hrow]
    have hi : i < a.row.length := (List.getElem?_eq_some_iff.mp hq).1
    calc i * a.sliceBytes + b < (i + 1) * a.sliceBytes := by
          rw [Nat.succ_mul]
          omega
      _ ≤ a.row.length * a.sliceBytes := Nat.mul_le_mul_right _ hi

/-- What a call reads of a tensor belongs to its input. -/
theorem Valid.exists_inputTensor (h : j.Valid rt) (hop : HasOp (j.items rt e) m op)
    (hact : op.act = .copy (.input r c b) dst) : ∃ t, j.inputTensor = some t := by
  cases h with
  | barrier hmem =>
    obtain ⟨it, ops, hm, hit, -⟩ := hop
    rw [List.mem_singleton.mp (List.mem_of_getElem? hm)] at hit
    cases hit
  | collective => exact ⟨_, rfl⟩
  | @p2p call current a n gid ks hmem hsender hreceiver hks =>
    rw [Runtime.p2p_items_eq] at hop
    obtain ⟨-, ⟨hop, -⟩ | ⟨hop, -⟩ | ⟨hop, -⟩⟩ :=
      Sandwich.hasOp_cases (plainly_ingestItems call current) hop
    · obtain ⟨hrole, -⟩ := Runtime.p2p_stage_cases hop
      exact ⟨_, if_pos hrole⟩
    · obtain ⟨b', -, ⟨-, -, heq⟩ | ⟨-, -, heq⟩⟩ := Runtime.p2p_copy_cases hks hop
      · rw [hact] at heq
        cases heq
      · rw [hact] at heq
        cases heq
    · obtain ⟨-, -, b', -, heq⟩ := Runtime.p2p_out_cases hop
      rw [hact] at heq
      cases heq

/-- What a call stores to a tensor belongs to its output. -/
theorem Valid.exists_outputTensor (h : j.Valid rt) (hop : HasOp (j.items rt e) m op)
    (hact : op.act = .copy src (.output r c y)) : ∃ t, j.outputTensor = some t := by
  cases h with
  | barrier hmem =>
    obtain ⟨it, ops, hm, hit, -⟩ := hop
    rw [List.mem_singleton.mp (List.mem_of_getElem? hm)] at hit
    cases hit
  | collective => exact ⟨_, rfl⟩
  | @p2p call current a n gid ks hmem hsender hreceiver hks =>
    rw [Runtime.p2p_items_eq] at hop
    obtain ⟨-, ⟨hop, -⟩ | ⟨hop, -⟩ | ⟨hop, -⟩⟩ :=
      Sandwich.hasOp_cases (plainly_ingestItems call current) hop
    · obtain ⟨-, b', -, heq⟩ := Runtime.p2p_stage_cases hop
      rw [hact] at heq
      cases heq
    · obtain ⟨b', -, ⟨-, -, heq⟩ | ⟨-, hrole, -⟩⟩ := Runtime.p2p_copy_cases hks hop
      · rw [hact] at heq
        cases heq
      · exact ⟨_, if_pos hrole⟩
    · obtain ⟨-, hrole, -⟩ := Runtime.p2p_out_cases hop
      exact ⟨_, if_pos hrole⟩

/-- The sender of a transfer has an input, and so has a member of a collective. -/
theorem Valid.inputTensor_of_work (h : j.Valid rt)
    (hwork : (∃ kind n path, j.request.work = .collective kind n path) ∨
      ∃ protocol dst n, j.request.work = .p2p protocol rt.rank dst n) :
    ∃ t, j.inputTensor = some t := by
  cases h with
  | barrier => rcases hwork with ⟨_, _, _, hwork⟩ | ⟨_, _, _, hwork⟩ <;> cases hwork
  | collective => exact ⟨_, rfl⟩
  | p2p hmem hsender hreceiver hks =>
    rcases hwork with ⟨_, _, _, hwork⟩ | ⟨_, _, _, hwork⟩
    · cases hwork
    · injection hwork with _ hsrc
      exact ⟨_, if_pos ((Runtime.role_eq_sender_iff hmem hsender hreceiver).mpr hsrc.symm)⟩

/-- The receiver of a transfer has an output, and so has a member of a collective. -/
theorem Valid.outputTensor_of_work (h : j.Valid rt)
    (hwork : (∃ kind n path, j.request.work = .collective kind n path) ∨
      ∃ protocol src n, j.request.work = .p2p protocol src rt.rank n) :
    ∃ t, j.outputTensor = some t := by
  cases h with
  | barrier => rcases hwork with ⟨_, _, _, hwork⟩ | ⟨_, _, _, hwork⟩ <;> cases hwork
  | collective => exact ⟨_, rfl⟩
  | @p2p call current a n gid ks hmem hsender hreceiver hks =>
    rcases hwork with ⟨_, _, _, hwork⟩ | ⟨_, _, _, hwork⟩
    · cases hwork
    · injection hwork with _ _ hdst
      have hne : a.srcRank.toNat ≠ a.dstRank.toNat := by simpa using hmem.nodup
      cases hrole : a.role with
      | receiver => exact ⟨a.localTensor, if_pos hrole⟩
      | sender => exact absurd ((hsender hrole).symm.trans hdst.symm) hne

/-- **What a call reads of its input it does not store to.** -/
theorem Valid.addr_ne (h : j.Valid rt) (hapart : j.Apart) {t t' : Tensor}
    (ht : j.inputTensor = some t) (ht' : j.outputTensor = some t')
    (hop : HasOp (j.items rt e) m op) (hact : op.act = .copy (.input r c b) dst)
    (hop' : HasOp (j.items rt e) m' op')
    (hact' : op'.act = .copy src (.output rt.rank j.call y)) :
    t.dataPtr + b ≠ t'.dataPtr + y := by
  have hdisj := hapart t ht t' ht'
  cases j with
  | barrier => cases ht
  | collective current a path =>
    cases ht
    cases ht'
    have hb := h.collective_input_lt hop hact
    have hy := h.collective_output_lt hop' hact'
    omega
  | p2p call current a n gid ks =>
    cases hrole : a.role <;> simp [inputTensor, outputTensor, hrole] at ht ht'

end Job

/-! ## Where the tensors of a world are -/

namespace Jobs

variable {cfg : Config} {nonce : ℤ} {W : ℕ} (J : Jobs cfg nonce W)

/-- The address of a tensor of call `c` of rank `p`. -/
def addr (tensor : Job → Option Tensor) (p c : ℕ) : ℕ :=
  (((J.jobs p).find? (·.call = c)).bind tensor).elim 0 Tensor.dataPtr

/-- The tensors are where the callers have them. -/
def placement : Placement := ⟨J.addr Job.inputTensor, J.addr Job.outputTensor⟩

variable {J} {p n : ℕ} {j : Job} {t : Tensor}

theorem placement_input (hj : (J.jobs p)[n]? = some j) (ht : j.inputTensor = some t) :
    J.placement.input p j.call = t.dataPtr := by
  show J.addr Job.inputTensor p j.call = _
  rw [addr, Positions.find?_eq_of_nodup_map (J.calls_nodup p) hj, Option.bind_some, ht]
  rfl

theorem placement_output (hj : (J.jobs p)[n]? = some j) (ht : j.outputTensor = some t) :
    J.placement.output p j.call = t.dataPtr := by
  show J.addr Job.outputTensor p j.call = _
  rw [addr, Positions.find?_eq_of_nodup_map (J.calls_nodup p) hj, Option.bind_some, ht]
  rfl

end Jobs

end GroupFreeCollectives
