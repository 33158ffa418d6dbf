import GroupFreeCollectives.Sync
import GroupFreeCollectives.World.Operation

/-!
# A member's part in an operation

What a rank enqueues for an operation is its part in it.  The rest of the development
knows a part by what `Part` says: its barriers have the tokens of the operation, its
kernels copy between its tensors and communication buffers, those that touch the buffer
of another rank stand between two barriers, and the copy stream is forked off the main
stream and joined again.  `Plain` adds, for all paths but the fused one, that what a copy
reads was announced by a barrier before it.

Most parts are a `sandwich`: kernels of the main stream around two barriers.
-/

namespace GroupFreeCollectives

open Tiling

/-! ## Items of a part -/

/-- Item `m` is a kernel with this operation. -/
def HasOp (its : List Item) (m : ℕ) (op : Op DataAct) : Prop :=
  ∃ it ops, its[m]? = some it ∧ it.cmd = .kernel ops ∧ op ∈ ops

/-- Item `m` is on the main stream, with something to execute. -/
def OnMain (its : List Item) (m : ℕ) : Prop :=
  ∃ it, its[m]? = some it ∧ it.stream = .main ∧ it.cmd.ops ≠ []

/-- Item `m` is a barrier with this token. -/
def HasToken (its : List Item) (m tok : ℕ) : Prop :=
  ∃ it row, its[m]? = some it ∧ it.cmd = .barrier row tok

/-- Item `m` comes after a barrier with this token. -/
def AfterToken (its : List Item) (tok m : ℕ) : Prop := ∃ i, HasToken its i tok ∧ Leads its i m

/-- Item `m` comes before a barrier with this token. -/
def BeforeToken (its : List Item) (m tok : ℕ) : Prop := ∃ i, HasToken its i tok ∧ Leads its m i

/-- What a copy of rank `p` does in an operation, with the tensors of its call `c`. -/
inductive CopyForm (o : Operation) (p c : ℕ) : Cell → Cell → Prop
  | stage {x : ℕ} (h : o.work.origin p = p) : CopyForm o p c (.input p c x) (.comm p x)
  | own {x y : ℕ} : CopyForm o p c (.input p c x) (.output p c y)
  | pull {q x y : ℕ} (hq : q ∈ o.ranks) : CopyForm o p c (.comm q x) (.output p c y)
  /-- the copy of a `put` to its receiver -/
  | put {q x : ℕ} (hq : q ∈ o.ranks) (hne : q ≠ p) (hp : o.work.origin p = p)
      (horig : o.work.origin q = p) : CopyForm o p c (.comm p x) (.comm q x)

/-- An output is stored to by its own rank, in its own call. -/
theorem CopyForm.of_output {o : Operation} {p c p' c' y : ℕ} {src : Cell}
    (h : CopyForm o p c src (.output p' c' y)) : p = p' ∧ c = c' := by
  cases h <;> exact ⟨rfl, rfl⟩

/-- The copy reads or stores a byte of the communication buffer of rank `q`. -/
def Touches (q : ℕ) (d : DataAct) : Prop :=
  ∃ src dst x, d = .copy src dst ∧ (src = .comm q x ∨ dst = .comm q x)

section Structures

variable (cfg : Config) (nonce : ℤ)

/-- The token of barrier `k` of an operation. -/
def Operation.token (o : Operation) (k : ℕ) : ℕ := computeToken nonce o.groupId (o.epoch + k)

/-- What holds of the items of rank `p`'s part in an operation. -/
structure Part (p c : ℕ) (o : Operation) (its : List Item) : Prop where
  mem : p ∈ o.ranks
  barrier_main : ∀ it ∈ its, ∀ row tok, it.cmd = .barrier row tok →
    it.stream = .main ∧ row = o.ranks
  tokens_eq : Runtime.barrierTokens its = o.tokens nonce cfg.alignment
  /-- the copy stream is forked off the main stream, and joined again -/
  forked : ∀ m op, HasOp its m op → OnMain its m ∨ ∃ i, OnMain its i ∧ Leads its i m
  joined : ∀ m op, HasOp its m op → OnMain its m ∨ ∃ i, OnMain its i ∧ Leads its m i
  copy_form : ∀ m op, HasOp its m op → ∀ src dst, op.act = .copy src dst → CopyForm o p c src dst
  between : ∀ m op, HasOp its m op → ∀ q, q ≠ p → Touches q op.act →
    (∃ tok ∈ o.tokens nonce cfg.alignment, AfterToken its tok m) ∧
      ∃ tok ∈ o.tokens nonce cfg.alignment, BeforeToken its m tok

/-- What holds of a part on a path other than the fused one. -/
structure Plain (p c : ℕ) (o : Operation) (its : List Item) : Prop extends
    Part cfg nonce p c o its where
  /-- what is read from a communication buffer was announced -/
  reads : ∀ m op, HasOp its m op → ∀ q x dst, op.act = .copy (.comm q x) dst →
    ∃ k ∈ (o.work.shape cfg.alignment).offsets, ∃ w ∈ o.ranks,
      o.work.Announces cfg.alignment o.ranks.length k q x w ∧ AfterToken its (o.token nonce k) m
  /-- what is announced was stored -/
  writes : ∀ k q x, o.work.Announces cfg.alignment o.ranks.length k q x p →
    ∃ m op src, HasOp its m op ∧ op.act = .copy src (.comm q x) ∧
      BeforeToken its m (o.token nonce k)
  act_eq_copy : ∀ m op, HasOp its m op → ∃ src dst, op.act = .copy src dst

end Structures

/-- What the copies of a part in a collective store to the output. -/
structure Delivers (p c : ℕ) (ranks : List ℕ) (kind : Collective) (n : ℕ) (its : List Item) :
    Prop where
  outputs : ∀ m op, HasOp its m op → ∀ src y, op.act = .copy src (.output p c y) → ∃ i q b,
    ranks[i]? = some q ∧ b < n ∧ y = i * n + b ∧
      (src = .comm q (kind.srcOffset (ranks.idxOf p) n + b) ∨
        q = p ∧ src = .input p c (kind.srcOffset (ranks.idxOf p) n + b))
  covers : ∀ i q b, ranks[i]? = some q → b < n →
    ∃ m op src, HasOp its m op ∧ op.act = .copy src (.output p c (i * n + b))

/-- What the copies of the receiver's part in a transfer from rank `w` store to the output. -/
structure Transfers (p c w n : ℕ) (o : Operation) (its : List Item) : Prop where
  outputs : ∀ m op, HasOp its m op → ∀ src y, op.act = .copy src (.output p c y) →
    y < n ∧ ∃ q, src = .comm q y ∧ o.work.origin q = w
  covers : ∀ b < n, ∃ m op src, HasOp its m op ∧ op.act = .copy src (.output p c b)

/-! ## Order from positions -/

section Positions

variable {its : List Item} {i m q tok : ℕ} {op : Op DataAct} {it it' : Item} {row : List ℕ}
  {ops : List (Op DataAct)}

theorem ops_kernel_ne_nil (hop : op ∈ ops) : (Cmd.kernel ops).ops ≠ [] := by
  intro h
  have hnil : ops = [] := by simpa [Cmd.ops] using h
  simp [hnil] at hop

theorem ops_barrier_ne_nil (hq : q ∈ row) : (Cmd.barrier row tok).ops ≠ [] := by
  intro h
  have hmem : (⟨q, 0, .bump q⟩ : Op Act) ∈ (Cmd.barrier row tok).ops :=
    mem_barrierKernel.mpr ⟨q, hq, Or.inl rfl⟩
  simp [h] at hmem

/-- A barrier before an item of the main stream. -/
theorem AfterToken.of_stream (him : i < m) (hi : its[i]? = some it)
    (hit : it.cmd = .barrier row tok) (hq : q ∈ row) (hm : its[m]? = some it')
    (h : it.stream = it'.stream) : AfterToken its tok m := by
  refine ⟨i, ⟨it, row, hi, hit⟩, Leads.of_stream him hi hm h ?_⟩
  rw [hit]
  exact ops_barrier_ne_nil hq

/-- A barrier after an item of the main stream. -/
theorem BeforeToken.of_stream (hmi : m < i) (hi : its[i]? = some it)
    (hit : it.cmd = .barrier row tok) (hm : its[m]? = some it') (hops : it'.cmd.ops ≠ [])
    (h : it'.stream = it.stream) : BeforeToken its m tok :=
  ⟨i, ⟨it, row, hi, hit⟩, Leads.of_stream hmi hm hi h hops⟩

end Positions

/-! ## Sandwiches -/

/-- Kernels of a call on the main stream. -/
def mains (c : ℕ) (ks : List (List (Op DataAct))) : List Item :=
  ks.map fun ops => ⟨c, .main, .kernel ops⟩

/-- Kernels around two barriers, behind the waits for the caller's stream. -/
def sandwich (A : List Item) (c : ℕ) (row : List ℕ) (t t' : ℕ)
    (P M Q : List (List (Op DataAct))) : List Item :=
  A ++ mains c P ++ ⟨c, .main, .barrier row t⟩ ::
    (mains c M ++ ⟨c, .main, .barrier row t'⟩ :: mains c Q)

namespace Sandwich

variable {A : List Item} {c q t t' m tok : ℕ} {row : List ℕ} {P M Q : List (List (Op DataAct))}
  {op : Op DataAct} {it : Item} {ops : List (Op DataAct)}

/-- Where the two barriers stand. -/
def first (A : List Item) (P : List (List (Op DataAct))) : ℕ := A.length + P.length

def last (A : List Item) (P M : List (List (Op DataAct))) : ℕ := first A P + 1 + M.length

theorem getElem?_first :
    (sandwich A c row t t' P M Q)[first A P]? = some ⟨c, .main, .barrier row t⟩ := by
  have hlen : (A ++ mains c P).length = first A P := by simp [mains, first]
  unfold sandwich
  rw [List.getElem?_append_right (by omega), hlen, Nat.sub_self]
  rfl

theorem getElem?_last :
    (sandwich A c row t t' P M Q)[last A P M]? = some ⟨c, .main, .barrier row t'⟩ := by
  have hlen : (A ++ mains c P).length = first A P := by simp [mains, first]
  have hM : (mains c M).length = M.length := by simp [mains]
  unfold sandwich
  rw [List.getElem?_append_right (by unfold last; omega), hlen,
    show last A P M - first A P = M.length + 1 by unfold last; omega, List.getElem?_cons_succ,
    List.getElem?_append_right (by omega), hM, Nat.sub_self]
  rfl

/-- The items of a sandwich. -/
theorem getElem?_cases (h : (sandwich A c row t t' P M Q)[m]? = some it) :
    it ∈ A ∨ (m < first A P ∧ it ∈ mains c P) ∨ (m = first A P ∧ it = ⟨c, .main, .barrier row t⟩) ∨
      (first A P < m ∧ m < last A P M ∧ it ∈ mains c M) ∨
      (m = last A P M ∧ it = ⟨c, .main, .barrier row t'⟩) ∨
      last A P M < m ∧ it ∈ mains c Q := by
  have hP : (mains c P).length = P.length := by simp [mains]
  have hM : (mains c M).length = M.length := by simp [mains]
  unfold last
  unfold first
  unfold sandwich at h
  rw [List.append_assoc] at h
  by_cases h1 : m < A.length
  · rw [List.getElem?_append_left h1] at h
    exact Or.inl (List.mem_of_getElem? h)
  rw [List.getElem?_append_right (by omega)] at h
  by_cases h2 : m - A.length < P.length
  · rw [List.getElem?_append_left (by omega)] at h
    exact Or.inr (Or.inl ⟨by omega, List.mem_of_getElem? h⟩)
  rw [List.getElem?_append_right (by omega), hP] at h
  cases hk : m - A.length - P.length with
  | zero =>
    rw [hk] at h
    exact Or.inr (Or.inr (Or.inl ⟨by omega, (Option.some_inj.mp h).symm⟩))
  | succ k =>
    rw [hk, List.getElem?_cons_succ] at h
    by_cases h3 : k < M.length
    · rw [List.getElem?_append_left (by omega)] at h
      exact Or.inr (Or.inr (Or.inr (Or.inl ⟨by omega, by omega, List.mem_of_getElem? h⟩)))
    rw [List.getElem?_append_right (by omega), hM] at h
    cases hk' : k - M.length with
    | zero =>
      rw [hk'] at h
      exact Or.inr (Or.inr (Or.inr (Or.inr (Or.inl ⟨by omega, (Option.some_inj.mp h).symm⟩))))
    | succ k' =>
      rw [hk', List.getElem?_cons_succ] at h
      exact Or.inr (Or.inr (Or.inr (Or.inr (Or.inr ⟨by omega, List.mem_of_getElem? h⟩))))

/-- The waits for the caller's stream are neither kernels nor barriers. -/
def Plainly (A : List Item) : Prop := ∀ it ∈ A, ∃ s, it.cmd = .waitStream s

/-- An operation of a sandwich stands before, between or after its barriers. -/
theorem hasOp_cases (hA : Plainly A) (h : HasOp (sandwich A c row t t' P M Q) m op) :
    (∃ it, (sandwich A c row t t' P M Q)[m]? = some it ∧ it.stream = .main ∧ it.cmd.ops ≠ []) ∧
      (op ∈ P.flatten ∧ m < first A P ∨ op ∈ M.flatten ∧ first A P < m ∧ m < last A P M ∨
        op ∈ Q.flatten ∧ last A P M < m) := by
  obtain ⟨it, ops, hm, hit, hop⟩ := h
  have hmains : ∀ {ks : List (List (Op DataAct))}, it ∈ mains c ks →
      it.stream = .main ∧ op ∈ ks.flatten := by
    intro ks hks
    obtain ⟨ops', hops', rfl⟩ := List.mem_map.mp hks
    cases hit
    exact ⟨rfl, List.mem_flatten.mpr ⟨ops, hops', hop⟩⟩
  have hne : it.cmd.ops ≠ [] := by
    rw [hit]
    exact ops_kernel_ne_nil hop
  rcases getElem?_cases hm with hmem | ⟨hlt, hmem⟩ | ⟨-, rfl⟩ | ⟨hlt, hlt', hmem⟩ | ⟨-, rfl⟩ |
    ⟨hlt, hmem⟩
  · obtain ⟨s, hs⟩ := hA it hmem
    rw [hs] at hit
    cases hit
  · exact ⟨⟨it, hm, (hmains hmem).1, hne⟩, Or.inl ⟨(hmains hmem).2, hlt⟩⟩
  · cases hit
  · exact ⟨⟨it, hm, (hmains hmem).1, hne⟩, Or.inr (Or.inl ⟨(hmains hmem).2, hlt, hlt'⟩)⟩
  · cases hit
  · exact ⟨⟨it, hm, (hmains hmem).1, hne⟩, Or.inr (Or.inr ⟨(hmains hmem).2, hlt⟩)⟩

/-- An operation of the first part stands before the barriers. -/
theorem exists_hasOp_first (hop : op ∈ P.flatten) :
    ∃ m < first A P, HasOp (sandwich A c row t t' P M Q) m op := by
  obtain ⟨ops, hops, hop⟩ := List.mem_flatten.mp hop
  obtain ⟨i, hi⟩ := List.mem_iff_getElem?.mp hops
  have hlt := (List.getElem?_eq_some_iff.mp hi).1
  refine ⟨A.length + i, Nat.add_lt_add_left hlt _, ⟨c, .main, .kernel ops⟩, ops, ?_, rfl, hop⟩
  have hlen : (mains c P).length = P.length := by simp [mains]
  unfold sandwich
  rw [List.append_assoc, List.getElem?_append_right (Nat.le_add_right _ _),
    Nat.add_sub_cancel_left, List.getElem?_append_left (by omega)]
  simp [mains, hi]

/-- An operation of the middle part stands between the barriers. -/
theorem exists_hasOp_middle (hop : op ∈ M.flatten) : ∃ m, first A P < m ∧ m < last A P M ∧
    HasOp (sandwich A c row t t' P M Q) m op := by
  obtain ⟨ops, hops, hop⟩ := List.mem_flatten.mp hop
  obtain ⟨i, hi⟩ := List.mem_iff_getElem?.mp hops
  have hlt := (List.getElem?_eq_some_iff.mp hi).1
  refine ⟨first A P + 1 + i, by omega, by unfold last; omega, ⟨c, .main, .kernel ops⟩, ops, ?_, rfl,
    hop⟩
  have hlen : (A ++ mains c P).length = first A P := by simp [mains, first]
  have hM : (mains c M).length = M.length := by simp [mains]
  unfold sandwich
  rw [List.getElem?_append_right (by omega), hlen,
    show first A P + 1 + i - first A P = i + 1 by omega, List.getElem?_cons_succ,
    List.getElem?_append_left (by omega)]
  simp [mains, hi]

/-- An operation of the last part stands behind the barriers. -/
theorem exists_hasOp_end (hop : op ∈ Q.flatten) :
    ∃ m, HasOp (sandwich A c row t t' P M Q) m op := by
  obtain ⟨ops, hops, hop⟩ := List.mem_flatten.mp hop
  have hmem : (⟨c, .main, .kernel ops⟩ : Item) ∈ sandwich A c row t t' P M Q := by
    unfold sandwich
    simp only [List.mem_append, List.mem_cons]
    exact Or.inr (Or.inr (Or.inr (Or.inr (List.mem_map_of_mem hops))))
  obtain ⟨m, hm⟩ := List.mem_iff_getElem?.mp hmem
  exact ⟨m, _, ops, hm, rfl, hop⟩

section Tokens

variable (hq : q ∈ row) (hA : Plainly A) (h : HasOp (sandwich A c row t t' P M Q) m op)
include h hA

theorem beforeToken_first (hm : m < first A P) :
    BeforeToken (sandwich A c row t t' P M Q) m t := by
  obtain ⟨⟨it, hit, hmain, hne⟩, -⟩ := hasOp_cases hA h
  exact .of_stream hm getElem?_first rfl hit hne hmain

theorem beforeToken_last (hm : m < last A P M) :
    BeforeToken (sandwich A c row t t' P M Q) m t' := by
  obtain ⟨⟨it, hit, hmain, hne⟩, -⟩ := hasOp_cases hA h
  exact .of_stream hm getElem?_last rfl hit hne hmain

include hq

theorem afterToken_first (hm : first A P < m) :
    AfterToken (sandwich A c row t t' P M Q) t m := by
  obtain ⟨⟨it, hit, hmain, -⟩, -⟩ := hasOp_cases hA h
  exact .of_stream hm getElem?_first rfl hq hit hmain.symm

theorem afterToken_last (hm : last A P M < m) :
    AfterToken (sandwich A c row t t' P M Q) t' m := by
  obtain ⟨⟨it, hit, hmain, -⟩, -⟩ := hasOp_cases hA h
  exact .of_stream hm getElem?_last rfl hq hit hmain.symm

end Tokens

/-! ### Parts -/

variable {cfg : Config} {nonce : ℤ} {p : ℕ} {o : Operation}

theorem barrierTokens_mains (ks : List (List (Op DataAct))) :
    Runtime.barrierTokens (mains c ks) = [] := by
  refine Runtime.barrierTokens_eq_nil fun it hit row tok => ?_
  obtain ⟨ops, -, rfl⟩ := List.mem_map.mp hit
  simp

theorem barrierTokens_plainly (hA : Plainly A) : Runtime.barrierTokens A = [] := by
  refine Runtime.barrierTokens_eq_nil fun it hit row tok => ?_
  obtain ⟨s, hs⟩ := hA it hit
  simp [hs]

theorem barrierTokens_sandwich (hA : Plainly A) :
    Runtime.barrierTokens (sandwich A c row t t' P M Q) = [t, t'] := by
  simp [sandwich, barrierTokens_mains, barrierTokens_plainly hA]

/-- **A sandwich is a part**, if only its middle touches the buffers of other ranks. -/
theorem part (hA : Plainly A) (hp : p ∈ row) (hrow : o.ranks = row)
    (htok : o.tokens nonce cfg.alignment = [t, t'])
    (hform : ∀ op, op ∈ P.flatten ∨ op ∈ M.flatten ∨ op ∈ Q.flatten → ∀ src dst,
      op.act = .copy src dst → CopyForm o p c src dst)
    (hbetween : ∀ op, op ∈ P.flatten ∨ op ∈ Q.flatten → ∀ q, q ≠ p → ¬ Touches q op.act) :
    Part cfg nonce p c o (sandwich A c row t t' P M Q) where
  mem := hrow ▸ hp
  barrier_main := by
    intro it hit row' tok hcmd
    obtain ⟨m, hm⟩ := List.mem_iff_getElem?.mp hit
    rcases getElem?_cases hm with hmem | ⟨-, hmem⟩ | ⟨-, rfl⟩ | ⟨-, -, hmem⟩ | ⟨-, rfl⟩ | ⟨-, hmem⟩
    · obtain ⟨s, hs⟩ := hA it hmem
      simp [hs] at hcmd
    · obtain ⟨ops, -, rfl⟩ := List.mem_map.mp hmem
      cases hcmd
    · cases hcmd
      exact ⟨rfl, hrow.symm⟩
    · obtain ⟨ops, -, rfl⟩ := List.mem_map.mp hmem
      cases hcmd
    · cases hcmd
      exact ⟨rfl, hrow.symm⟩
    · obtain ⟨ops, -, rfl⟩ := List.mem_map.mp hmem
      cases hcmd
  tokens_eq := by rw [barrierTokens_sandwich hA, htok]
  forked m op h := Or.inl (hasOp_cases hA h).1
  joined m op h := Or.inl (hasOp_cases hA h).1
  copy_form := by
    intro m op h src dst hact
    refine hform op ?_ src dst hact
    rcases (hasOp_cases hA h).2 with ⟨hop, -⟩ | ⟨hop, -⟩ | ⟨hop, -⟩
    · exact Or.inl hop
    · exact Or.inr (Or.inl hop)
    · exact Or.inr (Or.inr hop)
  between := by
    intro m op h q hq htouch
    rcases (hasOp_cases hA h).2 with ⟨hop, -⟩ | ⟨-, hlt, hlt'⟩ | ⟨hop, -⟩
    · exact absurd htouch (hbetween op (Or.inl hop) q hq)
    · rw [htok]
      exact ⟨⟨t, by simp, afterToken_first hp hA h hlt⟩, ⟨t', by simp, beforeToken_last hA h hlt'⟩⟩
    · exact absurd htouch (hbetween op (Or.inr hop) q hq)

/-- **A sandwich of a transfer is plain**: what the middle reads was stored before the
first barrier, and what the end reads before the second. -/
theorem plain (hA : Plainly A) (hp : p ∈ row) (hrow : o.ranks = row)
    (hshape : o.work.shape cfg.alignment = .pair)
    (hform : ∀ op, op ∈ P.flatten ∨ op ∈ M.flatten ∨ op ∈ Q.flatten → ∃ src dst,
      op.act = .copy src dst ∧ CopyForm o p c src dst)
    (hbetween : ∀ op, op ∈ P.flatten ∨ op ∈ Q.flatten → ∀ q, q ≠ p → ¬ Touches q op.act)
    (hP : ∀ op ∈ P.flatten, ∀ q x dst, op.act ≠ .copy (.comm q x) dst)
    (hM : ∀ op ∈ M.flatten, ∀ q x dst, op.act = .copy (.comm q x) dst → ∃ w ∈ o.ranks,
      o.work.Announces cfg.alignment o.ranks.length 0 q x w)
    (hQ : ∀ op ∈ Q.flatten, ∀ q x dst, op.act = .copy (.comm q x) dst → ∃ w ∈ o.ranks,
      o.work.Announces cfg.alignment o.ranks.length 1 q x w)
    (hwrites : ∀ k q x, o.work.Announces cfg.alignment o.ranks.length k q x p →
      (k = 0 ∧ ∃ op ∈ P.flatten, ∃ src, op.act = .copy src (.comm q x)) ∨
        k = 1 ∧ ∃ op ∈ M.flatten, ∃ src, op.act = .copy src (.comm q x)) :
    Plain cfg nonce p c o
      (sandwich A c row (o.token nonce 0) (o.token nonce 1) P M Q) where
  toPart := by
    refine part hA hp hrow ?_ (fun op hop src dst hact => ?_) hbetween
    · unfold Operation.tokens
      rw [hshape]
      rfl
    · obtain ⟨src', dst', hact', hform'⟩ := hform op hop
      rw [hact] at hact'
      cases hact'
      exact hform'
  reads := by
    intro m op h q x dst hact
    rw [hshape]
    rcases (hasOp_cases hA h).2 with ⟨hop, -⟩ | ⟨hop, hlt, -⟩ | ⟨hop, hlt⟩
    · exact absurd hact (hP op hop q x dst)
    · obtain ⟨w, hw, hann⟩ := hM op hop q x dst hact
      exact ⟨0, by simp [Runtime.Shape.offsets], w, hw, hann, afterToken_first hp hA h hlt⟩
    · obtain ⟨w, hw, hann⟩ := hQ op hop q x dst hact
      exact ⟨1, by simp [Runtime.Shape.offsets], w, hw, hann, afterToken_last hp hA h hlt⟩
  writes := by
    intro k q x hann
    rcases hwrites k q x hann with ⟨rfl, op, hop, src, hact⟩ | ⟨rfl, op, hop, src, hact⟩
    · obtain ⟨m, hm, h⟩ := exists_hasOp_first hop
      exact ⟨m, op, src, h, hact, beforeToken_first hA h hm⟩
    · obtain ⟨m, -, hm, h⟩ := exists_hasOp_middle hop
      exact ⟨m, op, src, h, hact, beforeToken_last hA h hm⟩
  act_eq_copy := by
    intro m op h
    have hop : op ∈ P.flatten ∨ op ∈ M.flatten ∨ op ∈ Q.flatten := by
      rcases (hasOp_cases hA h).2 with ⟨hop, -⟩ | ⟨hop, -⟩ | ⟨hop, -⟩
      · exact Or.inl hop
      · exact Or.inr (Or.inl hop)
      · exact Or.inr (Or.inr hop)
    obtain ⟨src, dst, hact, -⟩ := hform op hop
    exact ⟨src, dst, hact⟩

end Sandwich

/-! ## Behind the waits for the caller's stream -/

section Behind

variable {A its : List Item} {i m tok p c : ℕ} {op : Op DataAct} {cfg : Config} {nonce : ℤ}
  {o : Operation}

theorem HasOp.behind (h : HasOp its m op) : HasOp (A ++ its) (A.length + m) op := by
  obtain ⟨it, ops, hm, hit⟩ := h
  exact ⟨it, ops, getElem?_behind hm, hit⟩

theorem HasOp.of_behind (hA : Sandwich.Plainly A) (h : HasOp (A ++ its) m op) :
    ∃ i, m = A.length + i ∧ HasOp its i op := by
  obtain ⟨it, ops, hm, hit, hop⟩ := h
  by_cases hlt : m < A.length
  · rw [List.getElem?_append_left hlt] at hm
    obtain ⟨s, hs⟩ := hA it (List.mem_of_getElem? hm)
    rw [hs] at hit
    cases hit
  · rw [List.getElem?_append_right (Nat.le_of_not_lt hlt)] at hm
    exact ⟨m - A.length, by omega, it, ops, hm, hit, hop⟩

theorem OnMain.behind (h : OnMain its m) : OnMain (A ++ its) (A.length + m) := by
  obtain ⟨it, hm, hit⟩ := h
  exact ⟨it, getElem?_behind hm, hit⟩

theorem HasToken.behind (h : HasToken its m tok) : HasToken (A ++ its) (A.length + m) tok := by
  obtain ⟨it, row, hm, hit⟩ := h
  exact ⟨it, row, getElem?_behind hm, hit⟩

theorem Leads.behind (h : Leads its i m) : Leads (A ++ its) (A.length + i) (A.length + m) := by
  simpa using h.append A []

theorem AfterToken.behind (h : AfterToken its tok m) : AfterToken (A ++ its) tok (A.length + m) :=
  let ⟨i, htok, hlead⟩ := h
  ⟨A.length + i, htok.behind, hlead.behind⟩

theorem BeforeToken.behind (h : BeforeToken its m tok) :
    BeforeToken (A ++ its) (A.length + m) tok :=
  let ⟨i, htok, hlead⟩ := h
  ⟨A.length + i, htok.behind, hlead.behind⟩

/-- **The waits in front of a part change nothing.** -/
theorem Plain.behind (hA : Sandwich.Plainly A) (h : Plain cfg nonce p c o its) :
    Plain cfg nonce p c o (A ++ its) where
  mem := h.mem
  barrier_main := by
    intro it hit row tok hcmd
    rcases List.mem_append.mp hit with hit | hit
    · obtain ⟨s, hs⟩ := hA it hit
      simp [hs] at hcmd
    · exact h.barrier_main it hit row tok hcmd
  tokens_eq := by
    rw [Runtime.barrierTokens_append, Sandwich.barrierTokens_plainly hA, List.nil_append,
      h.tokens_eq]
  forked := by
    intro m op hop
    obtain ⟨i, rfl, hop'⟩ := hop.of_behind hA
    rcases h.forked i op hop' with hmain | ⟨j, hmain, hlead⟩
    · exact Or.inl hmain.behind
    · exact Or.inr ⟨_, hmain.behind, hlead.behind⟩
  joined := by
    intro m op hop
    obtain ⟨i, rfl, hop'⟩ := hop.of_behind hA
    rcases h.joined i op hop' with hmain | ⟨j, hmain, hlead⟩
    · exact Or.inl hmain.behind
    · exact Or.inr ⟨_, hmain.behind, hlead.behind⟩
  copy_form := by
    intro m op hop
    obtain ⟨i, rfl, hop'⟩ := hop.of_behind hA
    exact h.copy_form i op hop'
  between := by
    intro m op hop q hq htouch
    obtain ⟨i, rfl, hop'⟩ := hop.of_behind hA
    obtain ⟨⟨tok, htok, hafter⟩, tok', htok', hbefore⟩ := h.between i op hop' q hq htouch
    exact ⟨⟨tok, htok, hafter.behind⟩, tok', htok', hbefore.behind⟩
  reads := by
    intro m op hop q x dst hact
    obtain ⟨i, rfl, hop'⟩ := hop.of_behind hA
    obtain ⟨k, hk, w, hw, hann, hafter⟩ := h.reads i op hop' q x dst hact
    exact ⟨k, hk, w, hw, hann, hafter.behind⟩
  writes := by
    intro k q x hann
    obtain ⟨m, op, src, hop, hact, hbefore⟩ := h.writes k q x hann
    exact ⟨_, op, src, hop.behind, hact, hbefore.behind⟩
  act_eq_copy := by
    intro m op hop
    obtain ⟨i, rfl, hop'⟩ := hop.of_behind hA
    exact h.act_eq_copy i op hop'

end Behind

end GroupFreeCollectives
