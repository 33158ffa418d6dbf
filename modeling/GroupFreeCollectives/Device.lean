import GroupFreeCollectives.Group
import GroupFreeCollectives.Lib.TaskGraph
import Mathlib.Logic.Function.Basic
import Mathlib.Data.List.Basic
import Mathlib.Tactic.Linarith

/-!
# Streams, kernels and symmetric memory

What a rank's calls enqueue is a list of items, each on a CUDA stream.  An item is a
kernel (or a memory copy, which is a kernel with one thread here), an event record or
a wait.  A kernel is a list of atomic operations, each with the program (thread) that
executes it and its phase in that program: operations of one program are ordered by
phase, operations of one phase are lanes of one tile statement and are unordered, and
operations of different programs are unordered.

Items on one stream execute in order.  Across streams only the edges the runtime
creates order them: `wait_stream`, and `record_event` with `wait_event`.

The shared memory has the three symmetric regions of `gfc/buffer.py` (the
communication buffer, the signal grid and the step pad of every rank), the local
`edge_seq` counters, and the tensors of the calls.  Every call has tensors of its own:
byte `a` of the input of rank `r`'s call number `c` is the cell `input r c a`.  Bytes
have any type, so a theorem can take them to be names of where they came from.

`barrierKernel` is `gfc/kernels/barrier.py`, one program for each member of the group.
A wait is one operation whose guard is the exit condition of the spin loop; the loop
itself and the watchdog that traps on a timeout are added in `World/Polled`.  Counters are
natural numbers: only the parity of `edge_seq` is used, which wrapping at `2 ^ 64` keeps.
-/

namespace GroupFreeCollectives

open TaskGraph

/-! ## Memory -/

/-- The bytes of the communication buffers and of the tensors of the calls. -/
inductive Cell where
  | comm (rank addr : ℕ)
  | input (rank call addr : ℕ)
  | output (rank call addr : ℕ)
  deriving DecidableEq, Repr

/-- The memory of all ranks. -/
structure Memory (α : Type) where
  byte : Cell → α
  /-- the signal grid of a rank: flat index `slot * world_size + src` -/
  signal : ℕ → ℕ → ℕ
  /-- the step pad of a rank, by flat index -/
  stepPad : ℕ → ℕ → ℕ
  /-- `edge_seq` of a rank, by peer -/
  edgeSeq : ℕ → ℕ → ℕ
  /-- the local variable `slot` of the barrier program of a rank for a peer -/
  slot : ℕ → ℕ → ℕ

/-- Store to one cell of a grid indexed by rank and index. -/
def store (f : ℕ → ℕ → ℕ) (a b v : ℕ) : ℕ → ℕ → ℕ :=
  fun x y => if x = a ∧ y = b then v else f x y

@[simp] theorem store_self (f : ℕ → ℕ → ℕ) (a b v : ℕ) : store f a b v a b = v := by
  simp [store]

theorem store_of_ne (f : ℕ → ℕ → ℕ) {a b x y : ℕ} (v : ℕ) (h : ¬ (x = a ∧ y = b)) :
    store f a b v x y = f x y := by
  simp [store, h]

/-! ## Operations -/

/-- The operations of the data kernels. -/
inductive DataAct where
  /-- load and store of one byte -/
  | copy (src dst : Cell)
  /-- `st.release` of a step value to a cell of `dst`'s step pad -/
  | stepPublish (dst cell value : ℕ)
  /-- the acquire spin of all lanes on cells of this rank's step pad -/
  | stepAwait (cells : List ℕ) (value : ℕ)
  deriving DecidableEq, Repr

/-- The atomic operations of items. -/
inductive Act where
  /-- `slot = edge_seq[peer] & 1; edge_seq[peer] += 1` -/
  | bump (peer : ℕ)
  /-- `st.release` of the token to the peer's cell for this rank -/
  | publish (peer token : ℕ)
  /-- the acquire spin on this rank's cell for the peer -/
  | await (peer token : ℕ)
  | data (d : DataAct)
  /-- what an event record or a stream wait does when it executes -/
  | nop
  deriving DecidableEq, Repr

/-- An operation, with the program that executes it and its phase. -/
structure Op (A : Type) where
  thread : ℕ
  phase : ℕ
  act : A
  deriving DecidableEq, Repr

/-- What an operation of a data kernel does. -/
def DataAct.effect {α : Type} (m : Memory α) : DataAct → Memory α
  | .copy src dst => { m with byte := Function.update m.byte dst (m.byte src) }
  | .stepPublish q cell v => { m with stepPad := store m.stepPad q cell v }
  | .stepAwait _ _ => m

/-- What an operation of rank `r` does. -/
def Act.effect {α : Type} (worldSize r : ℕ) (m : Memory α) : Act → Memory α
  | .bump q =>
      { m with
        slot := store m.slot r q (m.edgeSeq r q &&& 1)
        edgeSeq := store m.edgeSeq r q (m.edgeSeq r q + 1) }
  | .publish q tok => { m with signal := store m.signal q (m.slot r q * worldSize + r) tok }
  | .data d => d.effect m
  | .await _ _ | .nop => m

/-- When an operation of rank `r` can execute. -/
def Act.guard {α : Type} (worldSize r : ℕ) (m : Memory α) : Act → Prop
  | .await q tok => m.signal r (m.slot r q * worldSize + q) = tok
  | .data (.stepAwait cells v) => ∀ c ∈ cells, m.stepPad r c = v
  | _ => True

/-! ## Items -/

/-- The streams of a rank: the runtime's two, and those of its callers. -/
inductive StreamId where
  | main
  | copy
  | user (k : ℕ)
  deriving DecidableEq, Repr

/-- What an item on a stream does. -/
inductive Cmd where
  | barrier (ranks : List ℕ) (token : ℕ)
  | kernel (ops : List (Op DataAct))
  /-- `record_event`; events are local to a call -/
  | record (event : ℕ)
  /-- `wait_event` -/
  | wait (event : ℕ)
  /-- `wait_stream`: wait for everything on that stream so far -/
  | waitStream (s : StreamId)
  deriving DecidableEq, Repr

/-- An enqueued item, with the call that enqueued it. -/
structure Item where
  call : ℕ
  stream : StreamId
  cmd : Cmd
  deriving DecidableEq, Repr

/-- `barrier_kernel`: one program for each member of the group, which bumps the
counter of the edge, publishes the token to the peer and waits for the peer's.  A
program is named by the peer it loads from the rank list. -/
def barrierKernel (ranks : List ℕ) (token : ℕ) : List (Op Act) :=
  ranks.flatMap fun peer =>
    [⟨peer, 0, .bump peer⟩, ⟨peer, 1, .publish peer token⟩, ⟨peer, 2, .await peer token⟩]

/-- The operations of an item. -/
def Cmd.ops : Cmd → List (Op Act)
  | .barrier ranks token => barrierKernel ranks token
  | .kernel ops => ops.map fun o => ⟨o.thread, o.phase, .data o.act⟩
  | .record _ | .wait _ | .waitStream _ => [⟨0, 0, .nop⟩]

/-- What every rank has enqueued. -/
abbrev Program := ℕ → List Item

/-- One execution of an operation: the rank, the position of its item, the
operation. -/
structure Task where
  rank : ℕ
  idx : ℕ
  op : Op Act
  deriving DecidableEq, Repr

/-- The stream edges from an item to a later one. -/
def Item.precedes (x y : Item) : Prop :=
  x.stream = y.stream ∨ y.cmd = .waitStream x.stream ∨
    x.call = y.call ∧ ∃ e, x.cmd = .record e ∧ y.cmd = .wait e

variable (prog : Program)

/-- The tasks of a program. -/
def IsTask (t : Task) : Prop :=
  ∃ it, (prog t.rank)[t.idx]? = some it ∧ t.op ∈ it.cmd.ops

/-- Program order: phases of one program of a kernel, and stream order of items. -/
def Before (u t : Task) : Prop :=
  u.rank = t.rank ∧
    (u.idx = t.idx ∧ u.op.thread = t.op.thread ∧ u.op.phase < t.op.phase ∨
      u.idx < t.idx ∧ ∃ x y, (prog u.rank)[u.idx]? = some x ∧ (prog t.rank)[t.idx]? = some y ∧
        x.precedes y)

/-- The device: all ranks' tasks over their common memory. -/
def device (α : Type) (worldSize : ℕ) : System Task (Memory α) where
  task := IsTask prog
  before := Before prog
  guard m t := t.op.act.guard worldSize t.rank m
  effect m t := t.op.act.effect worldSize t.rank m

/-- Memory as the runtime allocates it: zeroed grids and counters, any bytes. -/
structure Memory.Fresh {α : Type} (m : Memory α) : Prop where
  signal : ∀ r i, m.signal r i = 0
  edgeSeq : ∀ r q, m.edgeSeq r q = 0

/-- Every byte is the name of its cell. -/
def cellNames : Memory Cell where
  byte := id
  signal _ _ := 0
  stepPad _ _ := 0
  edgeSeq _ _ := 0
  slot _ _ := 0

variable {prog} {α : Type} {worldSize : ℕ}

@[simp] theorem device_task {t : Task} : (device prog α worldSize).task t ↔ IsTask prog t := Iff.rfl

@[simp] theorem device_before {u t : Task} :
    (device prog α worldSize).before u t ↔ Before prog u t := Iff.rfl

@[simp] theorem device_effect (m : Memory α) (t : Task) :
    (device prog α worldSize).effect m t = t.op.act.effect worldSize t.rank m := rfl

@[simp] theorem device_guard (m : Memory α) (t : Task) :
    (device prog α worldSize).guard m t ↔ t.op.act.guard worldSize t.rank m := Iff.rfl

/-! ## Which operation changes what -/

/-- The operation stores to the byte. -/
def Act.writesByte (c : Cell) : Act → Prop
  | .data (.copy _ dst) => dst = c
  | _ => False

theorem Act.exists_of_writesByte {a : Act} {c : Cell} (h : a.writesByte c) :
    ∃ src, a = .data (.copy src c) := by
  rcases a with _ | _ | _ | ⟨src, dst⟩ | _
  case data.copy =>
    obtain rfl : dst = c := h
    exact ⟨src, rfl⟩
  case data d => cases d <;> cases h
  all_goals cases h

theorem byte_effect_of_not_writes {m : Memory α} {r : ℕ} {a : Act} {c : Cell}
    (h : ¬ a.writesByte c) : (a.effect worldSize r m).byte c = m.byte c := by
  rcases a with _ | _ | _ | ⟨src, dst⟩ | _
  case data.copy =>
    have hne : c ≠ dst := fun hc => h hc.symm
    exact Function.update_of_ne hne _ _
  case data d => cases d <;> rfl
  all_goals rfl

theorem byte_effect_copy (m : Memory α) (r : ℕ) (src dst : Cell) :
    ((Act.data (.copy src dst)).effect worldSize r m).byte dst = m.byte src :=
  Function.update_self ..

theorem edgeSeq_effect_of_ne {m : Memory α} {r p q : ℕ} {a : Act}
    (h : ¬ (r = p ∧ a = .bump q)) : (a.effect worldSize r m).edgeSeq p q = m.edgeSeq p q ∧
      (a.effect worldSize r m).slot p q = m.slot p q := by
  cases a with
  | bump q' =>
    have hne : ¬ (p = r ∧ q = q') := fun hc => h ⟨hc.1.symm, by rw [hc.2]⟩
    exact ⟨store_of_ne _ _ hne, store_of_ne _ _ hne⟩
  | data d => cases d <;> exact ⟨rfl, rfl⟩
  | _ => exact ⟨rfl, rfl⟩

theorem stepPad_effect_of_ne {m : Memory α} {r q c : ℕ} {a : Act}
    (h : ∀ v, a ≠ .data (.stepPublish q c v)) :
    (a.effect worldSize r m).stepPad q c = m.stepPad q c := by
  rcases a with _ | _ | _ | ⟨_ | ⟨q', c', v⟩ | _⟩ | _
  case data.stepPublish =>
    have hne : ¬ (q = q' ∧ c = c') := fun hc => h v (by rw [hc.1, hc.2])
    exact store_of_ne _ _ hne
  all_goals rfl

theorem signal_effect_of_ne {m : Memory α} {r q i : ℕ} {a : Act}
    (h : ∀ tok, a = .publish q tok → m.slot r q * worldSize + r ≠ i) :
    (a.effect worldSize r m).signal q i = m.signal q i := by
  cases a with
  | publish q' tok =>
    refine store_of_ne _ _ fun hc => ?_
    obtain ⟨rfl, hi⟩ := hc
    exact h tok rfl hi.symm
  | data d => cases d <;> rfl
  | _ => rfl

/-! ## Program order -/

theorem mem_barrierKernel {ranks : List ℕ} {token : ℕ} {o : Op Act} :
    o ∈ barrierKernel ranks token ↔ ∃ peer ∈ ranks,
      o = ⟨peer, 0, .bump peer⟩ ∨ o = ⟨peer, 1, .publish peer token⟩ ∨
        o = ⟨peer, 2, .await peer token⟩ := by
  simp [barrierKernel]

theorem Before.of_phase {r i θ a b : ℕ} {x y : Act} (h : a < b) :
    Before prog ⟨r, i, ⟨θ, a, x⟩⟩ ⟨r, i, ⟨θ, b, y⟩⟩ := ⟨rfl, Or.inl ⟨rfl, rfl, h⟩⟩

theorem Before.of_precedes {r i j : ℕ} {x y : Item} {o o' : Op Act} (hij : i < j)
    (hi : (prog r)[i]? = some x) (hj : (prog r)[j]? = some y) (h : x.precedes y) :
    Before prog ⟨r, i, o⟩ ⟨r, j, o'⟩ := ⟨rfl, Or.inr ⟨hij, x, y, hi, hj, h⟩⟩

theorem Before.of_stream {r i j : ℕ} {x y : Item} {o o' : Op Act} (hij : i < j)
    (hi : (prog r)[i]? = some x) (hj : (prog r)[j]? = some y) (h : x.stream = y.stream) :
    Before prog ⟨r, i, o⟩ ⟨r, j, o'⟩ := .of_precedes hij hi hj (Or.inl h)

end GroupFreeCollectives
