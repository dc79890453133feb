-- The exits of the cache manager (parallax/server/cache_manager.py): a call
-- that fails gives back all that it took, and a release right after an
-- allocation undoes it. A second allocation for a request is recognised by the
-- block tables, which stay empty when no layer is an attention layer.
import InferenceMesh.Cache.Ownership
import InferenceMesh.Server.Admission

open ordered_dict python
open parallax.server.cache

namespace parallax.server.cache_manager

namespace CacheManager

variable {m : CacheManager} {id : String} {n : Nat}

/-! ## All or nothing -/

/-- The exit with too few free blocks gives the slot back. -/
theorem give_back_same {slot : Option Nat} {slots : SlotAllocator}
    (hslot : m.take_slot = some (slot, slots)) (hblocks : m.take_blocks n = none) :
    m.give_back n slot slots = m := by
  have hshort := take_blocks_none hblocks
  unfold give_back
  rw [hshort]
  rcases take_slot_some hslot with ⟨_, rfl, rfl⟩ | ⟨s, _, rfl, htaken⟩
  · simp
  · have hback := m.slot_allocator.free_allocate (s := s) (by rw [htaken])
    rw [htaken] at hback
    simp only [ne_eq, not_true_eq_false, if_false]
    rw [hback]

theorem allocate_request_failed (h : (m.allocate_request id n).1 = false) :
    (m.allocate_request id n).2 = m := by
  unfold allocate_request at *
  split
  · rfl
  · rename_i hnew
    rw [if_neg hnew] at h
    split
    · rfl
    · rename_i slot slots hslot
      rw [hslot] at h
      dsimp only at h ⊢
      split
      · rename_i hblocks
        exact give_back_same hslot hblocks
      · rename_i blocks hblocks
        rw [hblocks] at h
        cases h

/-- A call of `append_slot` that does not return `True` changes nothing. -/
theorem append_slot_failed (h : ∀ m', m.append_slot id ≠ .ok (true, m')) :
    m.after (.append_slot id) = m := by
  unfold after
  dsimp only
  rcases hrun : m.append_slot id with err | ⟨_ | _, m'⟩
  · rfl
  · exact append_slot_false hrun
  · exact absurd hrun (h m')

theorem has_request_tables (hb : m.needs_blocks = true) :
    m.has_request id = m.block_tables.has id := by
  unfold has_request
  rw [if_pos hb]

theorem can_allocate_exact (hb : m.needs_blocks = true) (hnew : m.has_request id = false) :
    m.can_allocate n = true ↔ (m.allocate_request id n).1 = true := by
  rw [has_request_tables hb] at hnew
  rcases scheduler.allocate_request.spec m n hnew with ⟨hno, hfail⟩ | ⟨hyes, m', hrun, _⟩
  · rw [hfail]
    simpa using hno
  · rw [hrun]
    simpa using hyes

/-- What a new request is given goes back with it, and its entries with it. -/
theorem free_commit {slot : Option Nat} {slots : SlotAllocator} {blocks : List Nat × BlockAllocator}
    (hm : BlocksOwned m) (hs : SlotsOwned m) (hb : m.needs_blocks = true)
    (hnew : m.block_tables.get? id = none) (hslot : m.take_slot = some (slot, slots))
    (hblocks : m.take_blocks n = some blocks) :
    (m.commit id n slot slots blocks).free_request id = m := by
  obtain ⟨hroom, rfl⟩ := take_blocks_some hb hblocks
  have hfree := m.allocator.free_allocate hroom
  have hlen : m.context_lengths.get? id = none := by
    cases hc : m.context_lengths.get? id with
    | none => rfl
    | some c =>
      obtain ⟨t, ht⟩ := (hm.live id).mpr ⟨c, hc⟩
      rw [hnew] at ht
      cases ht
  have htables := Dict.erase_insert (m.allocator.allocate (m.num_blocks n)).1 hnew
  have hlengths := Dict.erase_insert n hlen
  have hrest : (m.commit id n slot slots (m.allocator.allocate (m.num_blocks n))).free_blocks_of id =
      { m with
        slot_allocator := slots
        request_slots := (m.commit id n slot slots (m.allocator.allocate
          (m.num_blocks n))).request_slots } := by
    have hb' : (m.commit id n slot slots
        (m.allocator.allocate (m.num_blocks n))).needs_blocks = true := hb
    unfold free_blocks_of
    rw [if_pos hb']
    have hget : (m.commit id n slot slots (m.allocator.allocate
        (m.num_blocks n))).block_tables.get? id =
          some (m.allocator.allocate (m.num_blocks n)).1 := by
      simp [commit, hb]
    rw [hget]
    simp only [commit, hb, if_true, htables, hlengths, hfree]
  unfold free_request
  rw [hrest]
  rcases take_slot_some hslot with ⟨hn, rfl, rfl⟩ | ⟨s, hn, rfl, htaken⟩
  · unfold free_slot_of
    rw [if_neg (by simpa [needs_slots] using hn)]
    rfl
  · have hback := m.slot_allocator.free_allocate (s := s) (by rw [htaken])
    rw [htaken] at hback
    have hnone : m.request_slots.get? id = none := by
      cases hx : m.request_slots.get? id with
      | none => rfl
      | some x =>
        obtain ⟨t, ht⟩ := (hs.live hn id).mpr ⟨x, hx⟩
        rw [hnew] at ht
        cases ht
    have hslots := Dict.erase_insert s hnone
    unfold free_slot_of
    rw [if_pos (by simpa [needs_slots] using hn)]
    simp only [commit, Dict.get?_insert, if_true, hback, hslots]

theorem free_allocate_request (hm : BlocksOwned m) (hs : SlotsOwned m) (hb : m.needs_blocks = true)
    (hnew : m.has_request id = false) (h : (m.allocate_request id n).1 = true) :
    (m.allocate_request id n).2.free_request id = m := by
  rw [has_request_tables hb] at hnew
  have hnone : m.block_tables.get? id = none := Dict.has_eq_false.mp hnew
  unfold allocate_request at *
  rw [if_neg (by simp [hnew])] at *
  rcases hslot : m.take_slot with _ | ⟨slot, slots⟩
  · rw [hslot] at h
    cases h
  · rcases hblocks : m.take_blocks n with _ | blocks
    · rw [hslot, hblocks] at h
      cases h
    · exact free_commit hm hs hb hnone hslot hblocks

end CacheManager

open CacheManager

/-- With attention layers, in every state that calls lead to: `can_allocate` tells what a new
request gets, a call that fails changes nothing, and the release of a request right after it came
in restores the state. -/
theorem calls_are_all_or_nothing (c : Config) (calls : List Call) (hb : c.needs_blocks = true) :
    let m := (init c).run calls
    (∀ id n, m.has_request id = false →
      (m.can_allocate n = true ↔ (m.allocate_request id n).1 = true)) ∧
    (∀ id n, (m.allocate_request id n).1 = false → (m.allocate_request id n).2 = m) ∧
    (∀ id, (∀ m', m.append_slot id ≠ .ok (true, m')) → m.after (.append_slot id) = m) ∧
    (∀ id n, m.has_request id = false → (m.allocate_request id n).1 = true →
      (m.allocate_request id n).2.free_request id = m) := by
  intro m
  have hneeds : m.needs_blocks = true := by
    unfold CacheManager.needs_blocks
    rw [run_config]
    exact hb
  obtain ⟨hm, hs⟩ := owned_run (init c) calls hb (blocksOwned_init c hb) (slotsOwned_init c)
  refine ⟨?_, ?_, ?_, ?_⟩
  · exact fun id n hnew => can_allocate_exact hneeds hnew
  · exact fun id n h => allocate_request_failed h
  · exact fun id h => append_slot_failed h
  · exact fun id n hnew h => free_allocate_request hm hs hneeds hnew h

/-- In a cache with one running request, a second one comes in and goes again. -/
theorem new_request_is_undone :
    let m := (init hybrid).run [.allocate_request "a" 4, .append_slot "a"]
    (m.allocate_request "b" 7).2.free_request "b" = m :=
  (calls_are_all_or_nothing hybrid [.allocate_request "a" 4, .append_slot "a"] (by decide)).2.2.2
    "b" 7 (by decide) (by decide)

/-- The second allocation for a request takes nothing, and the release after it gives back what
the request had. -/
theorem held_request_is_not_undone :
    ¬ ∀ (c : Config) (calls : List Call) (id : String) (n : Nat), c.needs_blocks = true →
      (((init c).run calls).allocate_request id n).1 = true →
      ((((init c).run calls).allocate_request id n).2.free_request id).allocator.get_num_free_blocks =
        ((init c).run calls).allocator.get_num_free_blocks := by
  intro hall
  have hcount := hall hybrid [.allocate_request "a" 4] "a" 4 (by decide) (by decide)
  revert hcount
  decide

end parallax.server.cache_manager
