import GroupFreeCollectives.Hash
import GroupFreeCollectives.Lib.Positions
import GroupFreeCollectives.Runtime.Session

/-!
# Ids of groups that are registered without one

`register_group` hashes the rank list of a group to its default id.  The hash is a bijection
in every single word, so rank lists that differ in one rank have different ids
(`hash_bijective_in_every_word`), and `register_group` never takes one of the groups for the
other (`groupId_ne_of_registerGroup`).
-/

namespace GroupFreeCollectives

open Set Positions

namespace Runtime

variable {ranks ranks' : List ℤ}

/-! ## One rank makes a difference -/

/-- Ranks are words, so the rank at a position can be told from the id and the other ranks. -/
theorem defaultGroupId_append_ne {us vs : List ℤ} {r r' : ℕ} (hr : r < 2 ^ 64)
    (hr' : r' < 2 ^ 64) (hne : r ≠ r') :
    defaultGroupId (us ++ (r : ℤ) :: vs) ≠ defaultGroupId (us ++ (r' : ℤ) :: vs) := by
  intro heq
  have hinj := (bijOn_stableHash64_tuple [.bytes "gfc-group-v1".toUTF8.toList] [] us vs).injOn
  exact hne (hinj hr hr' (Int.ofNat_inj.mp heq))

/-- **Rank lists that differ in one rank have different default ids.** -/
theorem defaultGroupId_ne (hlen : ranks.length = ranks'.length)
    (hranks : ∀ r ∈ ranks, 0 ≤ r ∧ r < 2 ^ 64) (hranks' : ∀ r ∈ ranks', 0 ≤ r ∧ r < 2 ^ 64)
    (hdiffer : ∃! i : ℕ, ranks[i]? ≠ ranks'[i]?) :
    defaultGroupId ranks ≠ defaultGroupId ranks' := by
  obtain ⟨us, r, r', vs, rfl, rfl, hne⟩ := exists_split_of_differ hlen hdiffer
  obtain ⟨hr, hlt⟩ := hranks r (by simp)
  obtain ⟨hr', hlt'⟩ := hranks' r' (by simp)
  lift r to ℕ using hr
  lift r' to ℕ using hr'
  exact defaultGroupId_append_ne (by exact_mod_cast hlt) (by exact_mod_cast hlt')
    (by exact_mod_cast hne)

/-- **The hash is a bijection in every single word**, whether the word is an argument of its
own or an entry of a tuple, and whatever is hashed before it and behind it.  So is the mixer,
and rank lists of one length that differ at one position have different default ids. -/
theorem hash_bijective_in_every_word :
    BijOn splitmix64 (Iio (2 ^ 64)) (Iio (2 ^ 64)) ∧
    (∀ pre post : List Chunk,
      BijOn (fun x : ℕ => stableHash64 (pre ++ .int x :: post)) (Iio (2 ^ 64)) (Iio (2 ^ 64)) ∧
      ∀ us vs : List ℤ,
        BijOn (fun x : ℕ => stableHash64 (pre ++ .tuple (us ++ (x : ℤ) :: vs) :: post))
          (Iio (2 ^ 64)) (Iio (2 ^ 64))) ∧
    ∀ ranks ranks' : List ℤ, ranks.length = ranks'.length →
      (∀ r ∈ ranks, 0 ≤ r ∧ r < 2 ^ 64) → (∀ r ∈ ranks', 0 ≤ r ∧ r < 2 ^ 64) →
      (∃! i : ℕ, ranks[i]? ≠ ranks'[i]?) → defaultGroupId ranks ≠ defaultGroupId ranks' := by
  refine ⟨wordInverse_splitmix64.bijOn, fun pre post => ⟨?_, fun us vs => ?_⟩, ?_⟩
  · exact bijOn_stableHash64_int pre post
  · exact bijOn_stableHash64_tuple pre post us vs
  · intro ranks ranks' hlen hranks hranks' hdiffer
    exact defaultGroupId_ne hlen hranks hranks' hdiffer

/-- The theorem for two groups of rank 0. -/
theorem hash_bijective_in_every_word_witness : defaultGroupId [0, 1] ≠ defaultGroupId [0, 2] := by
  obtain ⟨-, -, hids⟩ := hash_bijective_in_every_word
  refine hids [0, 1] [0, 2] rfl (by decide) (by decide) ⟨1, by decide, fun i hi => ?_⟩
  rcases i with _ | _ | n
  · exact absurd rfl hi
  · rfl
  · exact absurd rfl hi

/-! ## Registrations -/

section Register

variable {rt : Runtime} {s s' t t' : RuntimeState rt.rank rt.worldSize} {g g' : GroupDescriptor}
  {groupId : Option ℤ} {gathered gathered' : List (ℤ × List ℤ)}

/-- **Groups that differ in one member are told apart by their default ids**, in whatever
states they are registered. -/
theorem groupId_ne_of_registerGroup (hworld : rt.worldSize ≤ 2 ^ 64)
    (h : (rt.registerGroup ranks none gathered).run s = .ok g s')
    (h' : (rt.registerGroup ranks' none gathered').run t = .ok g' t')
    (hlen : ranks.length = ranks'.length) (hdiffer : ∃! i : ℕ, ranks[i]? ≠ ranks'[i]?) :
    g.groupId ≠ g'.groupId := by
  obtain ⟨-, -, hgid, -⟩ := registerGroup_ok h
  obtain ⟨-, -, hgid', -⟩ := registerGroup_ok h'
  have hwords : ∀ {l : List ℤ}, (∀ r ∈ l, 0 ≤ r ∧ r < rt.worldSize) →
      ∀ r ∈ l, 0 ≤ r ∧ r < 2 ^ 64 := by
    intro l hl r hr
    have := hl r hr
    omega
  rw [hgid, hgid']
  exact defaultGroupId_ne hlen (hwords (lt_worldSize_of_registerGroup h))
    (hwords (lt_worldSize_of_registerGroup h')) hdiffer

end Register

end Runtime

end GroupFreeCollectives
