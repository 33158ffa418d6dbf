import GroupFreeCollectives.Group

/-!
# The group registry of a runtime

The registry part of `gfc/runtime.py`: the descriptors `register_group` has returned,
the map from ids to live descriptors, and the device rank list of each handle.  The
invariants of `register_group` and `unregister_group` are fields, so a registry that
breaks them cannot be built.

A handle is an index into the descriptors returned so far.  `ranksDev h` is the slot
`ranks_dev` of handle `h`.
-/

namespace GroupFreeCollectives

/-- What `register_group` has checked of a rank list. -/
structure RankList (worldSize : ℕ) where
  ranks : List ℕ
  nodup : ranks.Nodup
  lt : ∀ q ∈ ranks, q < worldSize

/-- The descriptor `register_group` makes on a rank. -/
def GroupDescriptor.make {worldSize : ℕ} (rank handle : ℕ) (gid : ℤ) (l : RankList worldSize) :
    GroupDescriptor where
  handle := handle
  groupId := gid
  ranks := l.ranks
  localIndex := if rank ∈ l.ranks then (l.ranks.idxOf rank : ℤ) else -1
  size := l.ranks.length
  size_eq := rfl
  localIndex_ge := by
    split
    · exact le_trans (by decide) (Int.natCast_nonneg _)
    · exact le_refl _
  localIndex_lt := by
    split
    case isTrue h => exact_mod_cast List.idxOf_lt_length_of_mem h
    case isFalse => exact lt_of_lt_of_le (by decide) (Int.natCast_nonneg _)

/-- What holds of every descriptor that `register_group` returns on a rank. -/
structure GroupDescriptor.Describes (g : GroupDescriptor) (rank worldSize : ℕ) : Prop where
  nodup : g.ranks.Nodup
  lt : ∀ q ∈ g.ranks, q < worldSize
  localIndex_eq : g.localIndex = if rank ∈ g.ranks then (g.ranks.idxOf rank : ℤ) else -1

variable {rank worldSize : ℕ}

theorem GroupDescriptor.describes_make {handle : ℕ} {gid : ℤ} (l : RankList worldSize) :
    (GroupDescriptor.make rank handle gid l).Describes rank worldSize := ⟨l.nodup, l.lt, rfl⟩

theorem GroupDescriptor.Describes.localIndex_nonneg_iff {g : GroupDescriptor}
    (h : g.Describes rank worldSize) : 0 ≤ g.localIndex ↔ rank ∈ g.ranks := by
  rw [h.localIndex_eq]
  split
  case isTrue hr => exact iff_of_true (Int.natCast_nonneg _) hr
  case isFalse hr => exact iff_of_false (by decide) hr

/-- The local index of a member is its position in the rank list. -/
theorem GroupDescriptor.Describes.localIndex_toNat {g : GroupDescriptor}
    (h : g.Describes rank worldSize) (hr : rank ∈ g.ranks) :
    g.localIndex.toNat = g.ranks.idxOf rank := by
  rw [h.localIndex_eq, if_pos hr, Int.toNat_natCast]

variable (rank worldSize)

/-- The registry of a rank. -/
structure Registry where
  /-- the descriptors returned so far -/
  descs : List GroupDescriptor
  registered : ℤ → Option GroupDescriptor
  ranksDev : ℕ → Option (List ℕ)
  handle_eq : ∀ (h : ℕ) (g : GroupDescriptor), descs[h]? = some g → g.handle = h
  describes : ∀ g ∈ descs, g.Describes rank worldSize
  mem_of_registered : ∀ (gid : ℤ) (g : GroupDescriptor), registered gid = some g →
    g ∈ descs ∧ g.groupId = gid
  /-- the device rank list is there exactly while the registry holds the descriptor -/
  ranksDev_iff : ∀ (h : ℕ) (row : List ℕ), ranksDev h = some row ↔ ∃ g, descs[h]? = some g ∧
    registered g.groupId = some g ∧ 0 ≤ g.localIndex ∧ row = g.ranks

variable {rank worldSize}

namespace Registry

/-- No group registered. -/
def empty : Registry rank worldSize where
  descs := []
  registered _ := none
  ranksDev _ := none
  handle_eq := by simp
  describes := by simp
  mem_of_registered := by simp
  ranksDev_iff := by simp

variable (reg : Registry rank worldSize)

/-- The registry holds this very descriptor. -/
def Holds (g : GroupDescriptor) : Prop := reg.registered g.groupId = some g

theorem getElem?_handle {g : GroupDescriptor} (hg : g ∈ reg.descs) :
    reg.descs[g.handle]? = some g := by
  obtain ⟨h, hh⟩ := List.mem_iff_getElem?.mp hg
  rw [reg.handle_eq h g hh]
  exact hh

/-- A handle is live on a member exactly while the registry holds it. -/
theorem ranksDev_eq_some_iff {g : GroupDescriptor} (hg : g ∈ reg.descs) {row : List ℕ} :
    reg.ranksDev g.handle = some row ↔ reg.Holds g ∧ 0 ≤ g.localIndex ∧ row = g.ranks := by
  rw [reg.ranksDev_iff, reg.getElem?_handle hg]
  constructor
  · rintro ⟨g', hg', h⟩
    obtain rfl := Option.some_inj.mp hg'
    exact h
  · intro h
    exact ⟨g, rfl, h⟩

/-- The descriptor that registering a new id returns. -/
def newDesc (gid : ℤ) (l : RankList worldSize) : GroupDescriptor :=
  .make rank reg.descs.length gid l

theorem newDesc_not_mem (gid : ℤ) (l : RankList worldSize) : reg.newDesc gid l ∉ reg.descs := by
  intro h
  have hget := reg.getElem?_handle h
  rw [show (reg.newDesc gid l).handle = reg.descs.length from rfl,
    List.getElem?_eq_none (le_refl _)] at hget
  cases hget

theorem getElem?_append_newDesc {gid : ℤ} {l : RankList worldSize} {h : ℕ} {g : GroupDescriptor} :
    (reg.descs ++ [reg.newDesc gid l])[h]? = some g ↔
      reg.descs[h]? = some g ∨ h = reg.descs.length ∧ g = reg.newDesc gid l := by
  rcases Nat.lt_trichotomy h reg.descs.length with hlt | rfl | hlt
  · rw [List.getElem?_append_left hlt]
    exact ⟨Or.inl, fun h' => h'.resolve_right fun h'' => hlt.ne h''.1⟩
  · simp [eq_comm]
  · rw [List.getElem?_eq_none (by simp; omega), List.getElem?_eq_none (by omega)]
    simp [hlt.ne']

/-- A new descriptor of a free id changes nothing about the older descriptors. -/
theorem update_registered_eq_some_iff {gid : ℤ} (l : RankList worldSize)
    (hnew : reg.registered gid = none) {g : GroupDescriptor} (hg : g ∈ reg.descs) :
    Function.update reg.registered gid (some (reg.newDesc gid l)) g.groupId = some g ↔
      reg.registered g.groupId = some g := by
  by_cases hgid : g.groupId = gid
  · -- an older descriptor of the id is not live, before or after
    rw [hgid, Function.update_self, hnew]
    refine iff_of_false (fun h => ?_) (by simp)
    exact reg.newDesc_not_mem gid l (Option.some_inj.mp h ▸ hg)
  · rw [Function.update_of_ne hgid]

/-- Register a new id. -/
def add (gid : ℤ) (l : RankList worldSize) (hnew : reg.registered gid = none) :
    Registry rank worldSize where
  descs := reg.descs ++ [reg.newDesc gid l]
  registered := Function.update reg.registered gid (some (reg.newDesc gid l))
  ranksDev :=
    if 0 ≤ (reg.newDesc gid l).localIndex then
      Function.update reg.ranksDev reg.descs.length (some l.ranks)
    else reg.ranksDev
  handle_eq h g hg := by
    rcases reg.getElem?_append_newDesc.mp hg with hg | ⟨rfl, rfl⟩
    · exact reg.handle_eq h g hg
    · rfl
  describes g hg := by
    rcases List.mem_append.mp hg with hg | hg
    · exact reg.describes g hg
    · rw [List.mem_singleton.mp hg]
      exact GroupDescriptor.describes_make l
  mem_of_registered gid' g hg := by
    by_cases hgid : gid' = gid
    · subst hgid
      rw [Function.update_self] at hg
      obtain rfl := Option.some_inj.mp hg
      exact ⟨List.mem_append_right _ (List.mem_singleton_self _), rfl⟩
    · rw [Function.update_of_ne hgid] at hg
      obtain ⟨hmem, heq⟩ := reg.mem_of_registered gid' g hg
      exact ⟨List.mem_append_left _ hmem, heq⟩
  ranksDev_iff h row := by
    have hold : ∀ g, reg.descs[h]? = some g →
        (Function.update reg.registered gid (some (reg.newDesc gid l)) g.groupId = some g ↔
          reg.registered g.groupId = some g) := by
      intro g hg
      exact reg.update_registered_eq_some_iff l hnew (List.mem_of_getElem? hg)
    have hlt : ∀ g, reg.descs[h]? = some g → h ≠ reg.descs.length := by
      intro g hg
      exact ((List.getElem?_eq_some_iff.mp hg).1).ne
    simp only [reg.getElem?_append_newDesc]
    constructor
    · intro hrow
      by_cases hh : h = reg.descs.length ∧ 0 ≤ (reg.newDesc gid l).localIndex
      · obtain ⟨rfl, hli⟩ := hh
        rw [if_pos hli, Function.update_self] at hrow
        refine ⟨_, Or.inr ⟨rfl, rfl⟩, Function.update_self .., hli, ?_⟩
        exact (Option.some_inj.mp hrow).symm
      · have hrow' : reg.ranksDev h = some row := by
          split at hrow
          case isTrue hli =>
            rwa [Function.update_of_ne fun heq => hh ⟨heq, hli⟩] at hrow
          case isFalse => exact hrow
        obtain ⟨g, hg, hreg, hli, rfl⟩ := (reg.ranksDev_iff h row).mp hrow'
        exact ⟨g, Or.inl hg, (hold g hg).mpr hreg, hli, rfl⟩
    · rintro ⟨g, hg | ⟨rfl, rfl⟩, hreg, hli, rfl⟩
      · have hrow := (reg.ranksDev_iff h g.ranks).mpr ⟨g, hg, (hold g hg).mp hreg, hli, rfl⟩
        split
        · rw [Function.update_of_ne (hlt g hg), hrow]
        · exact hrow
      · rw [if_pos hli, Function.update_self]
        rfl

/-- Registering a new id keeps the life of the older handles. -/
theorem holds_add_iff {gid : ℤ} {l : RankList worldSize} {hnew : reg.registered gid = none}
    {g : GroupDescriptor} (hg : g ∈ reg.descs) : (reg.add gid l hnew).Holds g ↔ reg.Holds g :=
  reg.update_registered_eq_some_iff l hnew hg

/-- Release a descriptor the registry holds. -/
def release (g : GroupDescriptor) (hg : reg.Holds g) : Registry rank worldSize where
  descs := reg.descs
  registered := Function.update reg.registered g.groupId none
  ranksDev := Function.update reg.ranksDev g.handle none
  handle_eq := reg.handle_eq
  describes := reg.describes
  mem_of_registered gid g' h := by
    by_cases hgid : gid = g.groupId
    · rw [hgid, Function.update_self] at h
      cases h
    · rw [Function.update_of_ne hgid] at h
      exact reg.mem_of_registered gid g' h
  ranksDev_iff h row := by
    have hget := reg.getElem?_handle (reg.mem_of_registered _ _ hg).1
    by_cases hh : h = g.handle
    · subst hh
      rw [Function.update_self]
      refine iff_of_false (by simp) ?_
      rintro ⟨g', hg', hreg, -⟩
      rw [hget] at hg'
      obtain rfl := Option.some_inj.mp hg'
      rw [Function.update_self] at hreg
      cases hreg
    · rw [Function.update_of_ne hh, reg.ranksDev_iff]
      refine exists_congr fun g' => and_congr_right fun hg' => and_congr_left fun _ => ?_
      by_cases hgid : g'.groupId = g.groupId
      · -- the registry holds one descriptor of the id
        rw [hgid, Function.update_self]
        refine iff_of_false (fun h' => hh ?_) (by simp)
        have hsame : g = g' := Option.some_inj.mp (hg.symm.trans h')
        rw [hsame]
        exact (reg.handle_eq h g' hg').symm
      · rw [Function.update_of_ne hgid]

end Registry

end GroupFreeCollectives
