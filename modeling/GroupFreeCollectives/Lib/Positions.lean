import Mathlib.Data.List.Basic
import Mathlib.Data.List.Nodup
import Mathlib.Tactic.Common

/-!
# Positions in filtered and in concatenated lists

Two lists can agree on the entries that a selection picks out without agreeing on
anything else.  Here a selection is a partial function `f : α → Option β`, and
`posIn f l i` is how many entries before index `i` it selects, which is the index in
`l.filterMap f` of a selected entry `l[i]`.  Every entry of `l.filterMap f` is that of a
selected entry (`exists_of_filterMap_getElem?`), so two lists that agree after their
selections have the same entries at the same positions, and positions keep the order of
selected entries (`posIn_lt_iff`).

Two lists that differ at one position only are equal before it and behind it
(`exists_split_of_differ`).  In a concatenation `l.flatMap g`, entry `q` of the part that
`l[n]` makes stands at `partStart g l n + q`, and every entry is one of these.
-/

namespace Positions

variable {α β : Type*} {f : α → Option β} {l : List α}
  {i j n : ℕ} {x y : α} {b c : β}

/-- How many entries before index `i` are selected. -/
def posIn (f : α → Option β) (l : List α) (i : ℕ) : ℕ := ((l.take i).filterMap f).length

@[simp] theorem posIn_zero : posIn f l 0 = 0 := by simp [posIn]

theorem posIn_succ_of_some (hi : l[i]? = some x) (hx : f x = some b) :
    posIn f l (i + 1) = posIn f l i + 1 := by
  have htake : l.take (i + 1) = l.take i ++ [x] := by
    rw [List.take_add_one, hi]; rfl
  simp [posIn, htake, hx]

theorem posIn_succ_of_none (hi : l[i]? = some x) (hx : f x = none) :
    posIn f l (i + 1) = posIn f l i := by
  have htake : l.take (i + 1) = l.take i ++ [x] := by
    rw [List.take_add_one, hi]; rfl
  simp [posIn, htake, hx]

theorem posIn_mono (hij : i ≤ j) : posIn f l i ≤ posIn f l j := by
  have hpre : l.take i <+: l.take j := List.take_prefix_take_left hij
  exact (hpre.filterMap f).length_le

/-- Positions of selected entries keep the order of the list. -/
theorem posIn_lt (hi : l[i]? = some x) (hx : f x = some b) (hij : i < j) :
    posIn f l i < posIn f l j := by
  have hsucc := posIn_succ_of_some hi hx
  have hle : posIn f l (i + 1) ≤ posIn f l j := posIn_mono hij
  omega

theorem posIn_lt_iff (hi : l[i]? = some x) (hx : f x = some b) :
    posIn f l i < posIn f l j ↔ i < j := by
  refine ⟨fun h => ?_, posIn_lt hi hx⟩
  by_contra hji
  have hle : posIn f l j ≤ posIn f l i := posIn_mono (by omega)
  omega

theorem posIn_inj (hi : l[i]? = some x) (hx : f x = some b) (hj : l[j]? = some y)
    (hy : f y = some c) (h : posIn f l i = posIn f l j) : i = j := by
  have h₁ := posIn_lt_iff (j := j) hi hx
  have h₂ := posIn_lt_iff (j := i) hj hy
  omega

/-- What a selected entry becomes stands at its position. -/
theorem filterMap_getElem?_posIn (hi : l[i]? = some x) (hx : f x = some b) :
    (l.filterMap f)[posIn f l i]? = some b := by
  have hlt : i < l.length := (List.getElem?_eq_some_iff.mp hi).1
  have hsplit : l = l.take i ++ x :: l.drop (i + 1) := by
    have hx' : l[i] = x := (List.getElem?_eq_some_iff.mp hi).2
    rw [← hx', List.getElem_cons_drop, List.take_append_drop]
  have hmap : l.filterMap f =
      (l.take i).filterMap f ++ b :: (l.drop (i + 1)).filterMap f := by
    conv_lhs => rw [hsplit]
    simp [hx]
  rw [hmap, posIn, List.getElem?_append_right (Nat.le_refl _)]
  simp

/-- Every entry of the selection comes from a selected entry at that position. -/
theorem exists_of_filterMap_getElem? (hn : (l.filterMap f)[n]? = some b) :
    ∃ i x, l[i]? = some x ∧ f x = some b ∧ posIn f l i = n := by
  induction l generalizing n with
  | nil => simp at hn
  | cons y l ih =>
    cases hy : f y with
    | none =>
      rw [List.filterMap_cons_none hy] at hn
      obtain ⟨i, x, hi, hx, hpos⟩ := ih hn
      exact ⟨i + 1, x, by simpa using hi, hx, by simpa [posIn, hy] using hpos⟩
    | some c =>
      rw [List.filterMap_cons_some hy] at hn
      cases n with
      | zero =>
        have hcb : c = b := by simpa using hn
        exact ⟨0, y, rfl, by rw [hy, hcb], rfl⟩
      | succ n =>
        obtain ⟨i, x, hi, hx, hpos⟩ := ih (by simpa using hn)
        exact ⟨i + 1, x, by simpa using hi, hx, by simpa [posIn, hy] using hpos⟩

theorem posIn_lt_length (hi : l[i]? = some x) (hx : f x = some b) :
    posIn f l i < (l.filterMap f).length :=
  (List.getElem?_eq_some_iff.mp (filterMap_getElem?_posIn hi hx)).1

/-- Every smaller position is that of an earlier selected entry. -/
theorem exists_of_lt_posIn (h : n < posIn f l i) :
    ∃ j x b, j < i ∧ l[j]? = some x ∧ f x = some b ∧ posIn f l j = n := by
  have hlen : n < ((l.take i).filterMap f).length := h
  obtain ⟨j, x, hj, hx, hpos⟩ := exists_of_filterMap_getElem?
    (List.getElem?_eq_getElem hlen)
  have hji : j < i := by
    have := (List.getElem?_eq_some_iff.mp hj).1
    rw [List.length_take] at this
    omega
  refine ⟨j, x, _, hji, ?_, hx, ?_⟩
  · rwa [List.getElem?_take_of_lt hji] at hj
  · rw [posIn, List.take_take, Nat.min_eq_left (Nat.le_of_lt hji)] at hpos
    exact hpos

/-- How many entries directly before index `i` are not selected. -/
def sinceLast (f : α → Option β) (l : List α) (i : ℕ) : ℕ :=
  ((l.take i).reverse.takeWhile fun x => (f x).isNone).length

theorem sinceLast_succ_of_some (hi : l[i]? = some x) (hx : f x = some b) :
    sinceLast f l (i + 1) = 0 := by
  have htake : l.take (i + 1) = l.take i ++ [x] := by
    rw [List.take_add_one, hi]; rfl
  simp [sinceLast, htake, hx]

theorem sinceLast_succ_of_none (hi : l[i]? = some x) (hx : f x = none) :
    sinceLast f l (i + 1) = sinceLast f l i + 1 := by
  have htake : l.take (i + 1) = l.take i ++ [x] := by
    rw [List.take_add_one, hi]; rfl
  simp [sinceLast, htake, hx]

/-- Between two indices at one position there is nothing selected. -/
theorem sinceLast_lt (hj : j ≤ l.length) (hij : i < j) (h : posIn f l i = posIn f l j) :
    sinceLast f l i < sinceLast f l j := by
  induction j with
  | zero => omega
  | succ j ih =>
    have hget : l[j]? = some l[j] := List.getElem?_eq_getElem (by omega)
    have hle : posIn f l i ≤ posIn f l j := posIn_mono (by omega)
    cases hx : f l[j] with
    | some b =>
      have hsucc := posIn_succ_of_some hget hx
      omega
    | none =>
      rw [sinceLast_succ_of_none hget hx]
      rcases Nat.lt_succ_iff_lt_or_eq.mp hij with hlt | rfl
      · have hmono : posIn f l j ≤ posIn f l (j + 1) := posIn_mono (Nat.le_succ j)
        have hlt' := ih (by omega) hlt (by omega)
        omega
      · omega

/-- Entries that become the same stand at one index, if nothing comes up twice. -/
theorem eq_of_nodup_filterMap (h : (l.filterMap f).Nodup) (hi : l[i]? = some x)
    (hx : f x = some b) (hj : l[j]? = some y) (hy : f y = some b) : i = j := by
  have hgi := filterMap_getElem?_posIn hi hx
  have hgj := filterMap_getElem?_posIn hj hy
  have hpos := (List.getElem?_inj (List.getElem?_eq_some_iff.mp hgi).1 h).mp (hgi.trans hgj.symm)
  exact posIn_inj hi hx hj hy hpos

/-- Lists that agree after their selections have the selected entries in one order. -/
theorem lt_of_filter_eq {l l' : List α} {f f' : α → Bool} {i' j' : ℕ} (hl' : l'.Nodup)
    (h : l.filter f = l'.filter f') (hi : l[i]? = some x) (hj : l[j]? = some y)
    (hx : f x = true) (hy : f y = true) (hij : i < j) (hi' : l'[i']? = some x)
    (hj' : l'[j']? = some y) : i' < j' := by
  have hpair : [x, y].Sublist l := by
    have hxmem : x ∈ l.take j := by
      refine List.mem_of_getElem? (i := i) ?_
      rw [List.getElem?_take_of_lt hij, hi]
    have hymem : y ∈ l.drop j := by
      refine List.mem_of_getElem? (i := 0) ?_
      rw [List.getElem?_drop, Nat.add_zero, hj]
    have happ := (List.singleton_sublist.mpr hxmem).append (List.singleton_sublist.mpr hymem)
    rwa [List.take_append_drop] at happ
  have hsub : [x, y].Sublist l' := by
    have hfilter := hpair.filter f
    rw [List.filter_cons_of_pos hx, List.filter_cons_of_pos hy, List.filter_nil, h] at hfilter
    exact hfilter.trans List.filter_sublist
  -- in `l'` an entry has one index
  have hpw : l'.Pairwise fun a b => ∀ m n : ℕ, l'[m]? = some a → l'[n]? = some b → m < n := by
    refine List.pairwise_iff_getElem.mpr fun a b ha hb hab m n hm hn => ?_
    have hma := (List.getElem?_inj ha hl').mp ((List.getElem?_eq_getElem ha).trans hm.symm)
    have hnb := (List.getElem?_inj hb hl').mp ((List.getElem?_eq_getElem hb).trans hn.symm)
    omega
  have htwo := hpw.sublist hsub
  exact (List.rel_of_pairwise_cons htwo List.mem_cons_self) _ _ hi' hj'

/-! ## Lists that differ in one entry -/

/-- A list is what stands before an entry, the entry, and what stands behind it. -/
theorem eq_take_append_of_getElem? (hn : l[n]? = some x) :
    l = l.take n ++ x :: l.drop (n + 1) := by
  obtain ⟨hlt, rfl⟩ := List.getElem?_eq_some_iff.mp hn
  rw [List.getElem_cons_drop, List.take_append_drop]

/-- An entry that one of its values tells is found by that value. -/
theorem find?_eq_of_nodup_map [DecidableEq β] {g : α → β} (h : (l.map g).Nodup)
    (hi : l[i]? = some x) : l.find? (fun y => g y = g x) = some x := by
  have hmem := List.mem_of_getElem? hi
  obtain ⟨y, hy⟩ := Option.isSome_iff_exists.mp
    (List.find?_isSome.mpr ⟨x, hmem, by simp⟩ : (l.find? (fun y => g y = g x)).isSome)
  have hval : g y = g x := by simpa using List.find?_some hy
  obtain rfl := List.inj_on_of_nodup_map h (List.mem_of_find?_eq_some hy) hmem hval
  exact hy

/-- An entry that a filter keeps stands behind those before it that it keeps. -/
theorem getElem?_filter_countP {P : α → Bool} (hi : l[i]? = some x) (hx : P x = true) :
    (l.filter P)[(l.take i).countP P]? = some x := by
  rw [eq_take_append_of_getElem? hi, List.filter_append, List.filter_cons_of_pos hx,
    List.countP_eq_length_filter]
  have htake : (l.take i ++ x :: l.drop (i + 1)).take i = l.take i := by
    rw [← eq_take_append_of_getElem? hi]
  rw [htake, List.getElem?_append_right (Nat.le_refl _), Nat.sub_self, List.getElem?_cons_zero]

/-- Two lists of one length that differ at one position have the same entries before it and
behind it. -/
theorem exists_split_of_differ {l' : List α} (hlen : l.length = l'.length)
    (h : ∃! i : ℕ, l[i]? ≠ l'[i]?) :
    ∃ us x y vs, l = us ++ x :: vs ∧ l' = us ++ y :: vs ∧ x ≠ y := by
  obtain ⟨i, hne, hunique⟩ := h
  have hsame : ∀ j, j ≠ i → l[j]? = l'[j]? := fun j hj => not_not.mp fun hdiff =>
    hj (hunique j hdiff)
  have hi : i < l.length := by
    by_contra hi
    refine hne ?_
    rw [List.getElem?_eq_none (Nat.le_of_not_lt hi),
      List.getElem?_eq_none (hlen ▸ Nat.le_of_not_lt hi)]
  have hx := List.getElem?_eq_getElem hi
  have hy := List.getElem?_eq_getElem (hlen ▸ hi)
  have htake : l.take i = l'.take i := by
    ext1 j
    simp only [List.getElem?_take]
    split
    case isTrue hj => exact hsame j (Nat.ne_of_lt hj)
    case isFalse => rfl
  have hdrop : l.drop (i + 1) = l'.drop (i + 1) := by
    ext1 j
    simp only [List.getElem?_drop]
    exact hsame _ (by omega)
  refine ⟨l.take i, l[i], l'[i], l.drop (i + 1), eq_take_append_of_getElem? hx, ?_, ?_⟩
  · rw [htake, hdrop]
    exact eq_take_append_of_getElem? hy
  · intro heq
    exact hne (by rw [hx, hy, heq])

/-! ## Positions in a concatenation -/

section FlatMap

variable {g : α → List β} {q : ℕ}

/-- Where the part of entry `n` starts in a concatenation. -/
def partStart (g : α → List β) (l : List α) (n : ℕ) : ℕ := ((l.take n).flatMap g).length

theorem flatMap_eq_of_getElem? (hn : l[n]? = some x) :
    l.flatMap g = (l.take n).flatMap g ++ (g x ++ (l.drop (n + 1)).flatMap g) := by
  conv_lhs => rw [eq_take_append_of_getElem? hn]
  rw [List.flatMap_append, List.flatMap_cons]

/-- Entry `q` of part `n` stands that far behind its start. -/
theorem getElem?_flatMap (hn : l[n]? = some x) (hq : (g x)[q]? = some b) :
    (l.flatMap g)[partStart g l n + q]? = some b := by
  rw [flatMap_eq_of_getElem? hn, partStart, List.getElem?_append_right (Nat.le_add_right _ _),
    Nat.add_sub_cancel_left, List.getElem?_append_left (List.getElem?_eq_some_iff.mp hq).1, hq]

/-- What stands before entry `q` of part `n`. -/
theorem take_flatMap (hn : l[n]? = some x) (hq : q ≤ (g x).length) :
    (l.flatMap g).take (partStart g l n + q) = (l.take n).flatMap g ++ (g x).take q := by
  rw [flatMap_eq_of_getElem? hn, partStart, List.take_length_add_append,
    List.take_append_of_le_length hq]

/-- Every entry of a concatenation is an entry of some part. -/
theorem exists_of_getElem?_flatMap (h : (l.flatMap g)[i]? = some b) :
    ∃ n x q, l[n]? = some x ∧ (g x)[q]? = some b ∧ i = partStart g l n + q := by
  induction l generalizing i with
  | nil => simp at h
  | cons y l ih =>
    rw [List.flatMap_cons] at h
    by_cases hi : i < (g y).length
    · rw [List.getElem?_append_left hi] at h
      exact ⟨0, y, i, rfl, h, by simp [partStart]⟩
    · rw [List.getElem?_append_right (Nat.le_of_not_lt hi)] at h
      obtain ⟨n, x, q, hn, hq, heq⟩ := ih h
      refine ⟨n + 1, x, q, by simpa using hn, hq, ?_⟩
      rw [partStart, List.take_succ_cons, List.flatMap_cons, List.length_append]
      rw [partStart] at heq
      omega

/-- The part that an index of a concatenation falls into, and the place in it. -/
def locate (g : α → List β) : List α → ℕ → ℕ × ℕ
  | [], i => (0, i)
  | x :: l, i =>
    if i < (g x).length then (0, i)
    else ((locate g l (i - (g x).length)).1 + 1, (locate g l (i - (g x).length)).2)

theorem locate_partStart_add (hn : l[n]? = some x) (hq : q < (g x).length) :
    locate g l (partStart g l n + q) = (n, q) := by
  induction l generalizing n with
  | nil => simp at hn
  | cons y l ih =>
    cases n with
    | zero =>
      obtain rfl : y = x := by simpa using hn
      simp [locate, partStart, hq]
    | succ n =>
      have hstart : partStart g (y :: l) (n + 1) = (g y).length + partStart g l n := by
        simp [partStart]
      have hsub : (g y).length + partStart g l n + q - (g y).length = partStart g l n + q := by
        omega
      rw [hstart, locate, if_neg (by omega), hsub, ih (by simpa using hn)]

/-- Parts with a common entry are one part, if nothing comes up twice. -/
theorem eq_of_nodup_flatMap (h : (l.flatMap g).Nodup) (hi : l[i]? = some x) (hb : b ∈ g x)
    (hj : l[j]? = some y) (hb' : b ∈ g y) : i = j := by
  have hpw := List.pairwise_iff_getElem.mp (List.nodup_flatMap.mp h).2
  obtain ⟨hlt, rfl⟩ := List.getElem?_eq_some_iff.mp hi
  obtain ⟨hlt', rfl⟩ := List.getElem?_eq_some_iff.mp hj
  rcases Nat.lt_trichotomy i j with hij | hij | hij
  · exact absurd hb' (hpw i j hlt hlt' hij hb)
  · exact hij
  · exact absurd hb (hpw j i hlt' hlt hij hb')

theorem partStart_succ (hi : l[i]? = some x) :
    partStart g l (i + 1) = partStart g l i + (g x).length := by
  unfold partStart
  rw [List.take_add_one, hi, Option.toList_some, List.flatMap_append, List.length_append,
    List.flatMap_singleton]

/-- Where the parts have one length. -/
theorem partStart_eq_mul {c : ℕ} (h : ∀ k < n, ∃ x, l[k]? = some x ∧ (g x).length = c) :
    partStart g l n = n * c := by
  induction n with
  | zero => simp [partStart]
  | succ n ih =>
    obtain ⟨x, hx, hc⟩ := h n (Nat.lt_succ_self n)
    rw [partStart_succ hx, hc, ih fun k hk => h k (Nat.lt_succ_of_lt hk), Nat.succ_mul]

/-- A map that depends on the part is one that depends on the index. -/
theorem flatten_mapIdx_map_eq (φ : ℕ → β → β) : (l.mapIdx fun n x => (g x).map (φ n)).flatten =
    (l.flatMap g).mapIdx fun i => φ (locate g l i).1 := by
  induction l generalizing φ with
  | nil => rfl
  | cons y l ih =>
    have hhead : ((g y).mapIdx fun i => φ (locate g (y :: l) i).1) = (g y).map (φ 0) := by
      apply List.ext_getElem?
      intro i
      rw [List.getElem?_mapIdx, List.getElem?_map]
      cases hi : (g y)[i]? with
      | none => rfl
      | some b => rw [locate, if_pos (List.getElem?_eq_some_iff.mp hi).1]
    have htail : ∀ i, locate g (y :: l) (i + (g y).length) =
        ((locate g l i).1 + 1, (locate g l i).2) := by
      intro i
      rw [locate, if_neg (by omega), Nat.add_sub_cancel]
    rw [List.mapIdx_cons, List.flatten_cons, List.flatMap_cons, List.mapIdx_append, hhead,
      ih fun n => φ (n + 1)]
    simp only [htail]

/-- Parts keep the order of their entries. -/
theorem partStart_add_lt {q' : ℕ} (hi : l[i]? = some x) (hq : q < (g x).length) (hij : i < j) :
    partStart g l i + q < partStart g l j + q' := by
  have hle : partStart g l i + (g x).length ≤ partStart g l j := by
    have hpre : (l.take (i + 1)).flatMap g <+: (l.take j).flatMap g := by
      obtain ⟨r, hr⟩ := List.take_prefix_take_left hij (l := l)
      rw [← hr, List.flatMap_append]
      exact List.prefix_append _ _
    rw [← partStart_succ hi]
    exact hpre.length_le
  omega

end FlatMap

end Positions
