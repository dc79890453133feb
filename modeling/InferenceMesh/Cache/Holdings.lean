-- What the cache keeps for one request (parallax/server/cache_manager.py): its
-- blocks, its context length and its slot. Calls for other requests leave them
-- as they are, and each call for the request itself changes them in one way.
import InferenceMesh.Cache.Residents
import InferenceMesh.Server.SlotMapping

open ordered_dict python
open parallax.server.mlx_executor

namespace parallax.server.cache_manager

namespace CacheManager

variable {id id' : String} {m m' m'' : CacheManager} {c n : Nat}

/-! ## Other requests -/

/-- What is kept for the request is as it was. -/
structure Leaves (id : String) (m m' : CacheManager) : Prop where
  config : m'.config = m.config
  table : m'.block_tables.get? id = m.block_tables.get? id
  context : m'.context_lengths.get? id = m.context_lengths.get? id
  slot : m'.request_slots.get? id = m.request_slots.get? id

namespace Leaves

theorem refl (id : String) (m : CacheManager) : Leaves id m m := ⟨rfl, rfl, rfl, rfl⟩

theorem trans (h : Leaves id m m') (h' : Leaves id m' m'') : Leaves id m m'' :=
  ⟨h'.config.trans h.config, h'.table.trans h.table, h'.context.trans h.context,
    h'.slot.trans h.slot⟩

theorem of_only_for (h : OnlyFor id' m m') (hne : id ≠ id')
    (hcontext : m'.context_lengths.get? id = m.context_lengths.get? id) : Leaves id m m' :=
  ⟨h.config, h.tables id hne, hcontext, h.slots id hne⟩

theorem needs_blocks (h : Leaves id m m') : m'.needs_blocks = m.needs_blocks := by
  unfold CacheManager.needs_blocks
  rw [h.config]

theorem needs_slots (h : Leaves id m m') : m'.needs_slots = m.needs_slots := by
  unfold CacheManager.needs_slots
  rw [h.config]

theorem has_request (h : Leaves id m m') : m'.has_request id = m.has_request id := by
  unfold CacheManager.has_request Dict.has
  rw [h.needs_blocks, h.needs_slots, h.table, h.slot]

theorem resident (h : Leaves id m m') : m'.resident id = m.resident id := by
  unfold CacheManager.resident Dict.has
  rw [h.needs_blocks, h.needs_slots, h.table, h.slot]

end Leaves

theorem allocate_request_leaves (m : CacheManager) (n : Nat) (hne : id ≠ id') :
    Leaves id m (m.allocate_request id' n).2 := by
  refine .of_only_for (allocate_request_only_for m id' n) hne ?_
  unfold allocate_request
  split
  · rfl
  · split
    · rfl
    · split
      · rfl
      · unfold commit
        dsimp only
        split
        · exact Dict.get?_insert_ne _ _ (Ne.symm hne)
        · rfl

theorem append_slot_leaves {ok : Bool} (hne : id ≠ id') (h : m.append_slot id' = .ok (ok, m')) :
    Leaves id m m' :=
  .of_only_for (append_slot_only_for h) hne (append_other (Ne.symm hne) h).1

theorem release_request_leaves (m : CacheManager) (hne : id ≠ id') :
    Leaves id m (m.release_request id') := by
  refine .of_only_for (release_request_only_for m id') hne ?_
  unfold release_request free_request
  rw [(free_slot_of_blocks _ _).2.2.1]
  unfold free_blocks_of
  split
  · split
    · exact Dict.get?_erase_ne _ (Ne.symm hne)
    · rfl
  · rfl

/-! ## The request itself -/

/-- Nothing is kept for the request. -/
structure Vacant (id : String) (m : CacheManager) : Prop where
  table : m.block_tables.get? id = none
  resident : m.resident id = false

/-- The request has blocks, for a context of this length. -/
structure Kept (id : String) (c : Nat) (m : CacheManager) : Prop where
  blocks : m.needs_blocks = true
  table : m.block_tables.has id = true
  context : m.context_lengths.get? id = some c

/-- The request is in the cache, and where there are blocks it has a context of this length. -/
structure Booked (id : String) (c : Nat) (m : CacheManager) : Prop where
  has : m.has_request id = true
  kept : m.needs_blocks = true → Kept id c m

theorem Vacant.leaves (h : Vacant id m) (hl : Leaves id m m') : Vacant id m' :=
  ⟨hl.table.trans h.table, hl.resident.trans h.resident⟩

theorem Kept.leaves (h : Kept id c m) (hl : Leaves id m m') : Kept id c m' := by
  refine ⟨hl.needs_blocks.trans h.blocks, ?_, hl.context.trans h.context⟩
  unfold Dict.has
  rw [hl.table]
  exact h.table

theorem Booked.leaves (h : Booked id c m) (hl : Leaves id m m') : Booked id c m' :=
  ⟨hl.has_request.trans h.has, fun hb => (h.kept (hl.needs_blocks.symm.trans hb)).leaves hl⟩

theorem Kept.has_request (h : Kept id c m) : m.has_request id = true := by
  unfold CacheManager.has_request
  rw [if_pos h.blocks]
  exact h.table

theorem Kept.booked (h : Kept id c m) : Booked id c m := ⟨h.has_request, fun _ => h⟩

/-- A request that has its blocks already gets no more. -/
theorem Kept.allocate_request (h : Kept id c m) (n : Nat) : m.allocate_request id n = (true, m) := by
  unfold CacheManager.allocate_request
  rw [if_pos h.table]

theorem Vacant.allocate_request (h : Vacant id m) (htidy : Tidy m)
    (hrun : m.allocate_request id n = (true, m')) : Booked id n m' := by
  refine ⟨allocate_request_has htidy hrun, ?_⟩
  intro hb
  have honly := allocate_request_only_for m id n
  rw [hrun] at honly
  have hb' : m.needs_blocks = true := honly.needs_blocks.symm.trans hb
  have hhas := allocate_request_has htidy hrun
  unfold CacheManager.has_request at hhas
  rw [if_pos hb] at hhas
  refine ⟨hb, hhas, ?_⟩
  unfold CacheManager.allocate_request Dict.has at hrun
  rw [h.table, if_neg (by decide)] at hrun
  split at hrun
  · cases hrun
  · split at hrun
    · cases hrun
    · cases hrun
      unfold commit
      simp [hb']

/-- An allocation that fails leaves nothing behind. -/
theorem Vacant.refused (h : Vacant id m) (hrun : m.allocate_request id n = (false, m')) :
    Vacant id m' := by
  refine ⟨?_, (allocate_request_refused hrun id).trans h.resident⟩
  unfold CacheManager.allocate_request at hrun
  split at hrun
  · cases hrun
  · split at hrun
    · cases hrun
      exact h.table
    · split at hrun
      · cases hrun
        exact h.table
      · cases hrun

theorem Kept.append_slot {ok : Bool} (h : Kept id c m) (hrun : m.append_slot id = .ok (ok, m')) :
    ok = false ∧ m' = m ∨ ok = true ∧ Kept id (c + 1) m' := by
  cases ok with
  | false => exact Or.inl ⟨rfl, append_slot_false hrun⟩
  | true =>
    refine Or.inr ⟨rfl, ?_⟩
    have hblocks : m'.needs_blocks = true := by
      rw [(append_slot_only_for hrun).needs_blocks]
      exact h.blocks
    obtain ⟨t, c', ht, hc', ⟨_, _, rfl⟩ | ⟨_, rfl⟩⟩ := append_slot_cases h.blocks hrun
    · rw [h.context] at hc'
      cases hc'
      exact ⟨hblocks, has_insert _ _ _, Dict.get?_insert_self _ _ _⟩
    · rw [h.context] at hc'
      cases hc'
      exact ⟨hblocks, h.table, Dict.get?_insert_self _ _ _⟩

theorem release_request_vacant (htidy : Tidy m) (id : String) : Vacant id (m.release_request id) := by
  refine ⟨?_, m.release_request_resident id⟩
  obtain ⟨_, htable, _, _⟩ := free_slot_of_blocks (m.free_blocks_of id) id
  unfold release_request free_request
  rw [htable]
  cases hb : m.needs_blocks with
  | true => rw [free_blocks_of_tables m id id hb, if_pos rfl]
  | false =>
    unfold free_blocks_of
    rw [if_neg (by simp [hb])]
    exact htidy.tables hb id

end CacheManager

end parallax.server.cache_manager
