-- A second allocation for a request that has its memory (cache_manager.py,
-- `allocate_request`). The admission and the preparation of a prefill both
-- allocate. The source looks for the request in the block tables, and a model
-- of linear layers only has none, so there the second call takes a second slot.
import InferenceMesh.Cache.Rollback

open ordered_dict python
open parallax.server.cache

namespace parallax.server.cache_manager

namespace CacheManager

/-- A second allocation for a request that has its memory returns `True` and changes nothing. -/
def Idempotent (m : CacheManager) : Prop :=
  ∀ id n, m.has_request id = true → m.allocate_request id n = (true, m)

/-- As many slots are used as requests own one. -/
def SlotsBalanced (m : CacheManager) : Prop :=
  m.slot_allocator.used_slots.card = m.request_slots.size

/-- Second allocations change nothing and no slot is lost, whatever the calls. -/
def RecognisesItsRequests (c : Config) : Prop :=
  ∀ calls, Idempotent ((init c).run calls) ∧ SlotsBalanced ((init c).run calls)

/-! ## Attention layers -/

theorem idempotent_of_blocks {m : CacheManager} (hb : m.needs_blocks = true) : Idempotent m := by
  intro id n hhas
  rw [has_request_tables hb] at hhas
  unfold allocate_request
  rw [if_pos hhas]

theorem slotsBalanced_of_owned {m : CacheManager} (h : SlotsOwned m) : SlotsBalanced m := by
  have hvalues : m.slot_allocator.used_slots = m.request_slots.values.toFinset := by
    ext s
    rw [h.used, List.mem_toFinset, Dict.mem_values]
  unfold SlotsBalanced
  rw [hvalues, List.toFinset_card_of_nodup (Dict.nodup_values h.apart)]
  exact List.length_map _

/-! ## No slots to hand out -/

/-- No slot is handed out, and none is owned. -/
structure NoSlots (m : CacheManager) : Prop where
  nothing_free : m.needs_slots = true → m.slot_allocator.free_slots = []
  nothing_used : m.slot_allocator.used_slots = ∅
  nothing_owned : m.request_slots = .empty

variable {m : CacheManager}

theorem noSlots_init {c : Config} (h : c.needs_slots = true → c.max_num_seqs = 0) :
    NoSlots (init c) := by
  refine ⟨?_, rfl, rfl⟩
  intro hs
  have hs' : c.needs_slots = true := hs
  unfold init SlotAllocator.init
  simp [hs', h hs']

theorem noSlots_allocate (h : NoSlots m) (id : String) (n : Nat) :
    NoSlots (m.allocate_request id n).2 := by
  unfold allocate_request
  split
  · exact h
  · split
    · exact h
    · rename_i slot slots hslot
      rcases take_slot_some hslot with ⟨hn, rfl, rfl⟩ | ⟨s, hn, rfl, htaken⟩
      · split
        · exact ⟨fun hs => h.nothing_free hs, h.nothing_used, h.nothing_owned⟩
        · exact ⟨fun hs => h.nothing_free hs, h.nothing_used, h.nothing_owned⟩
      · have hnone := m.slot_allocator.allocate_none.mpr (h.nothing_free hn)
        rw [htaken] at hnone
        cases hnone

theorem noSlots_free (h : NoSlots m) (id : String) : NoSlots (m.free_request id) := by
  obtain ⟨hslots, hrequests, hconfig⟩ := free_blocks_of_slots m id
  unfold free_request free_slot_of
  rw [hrequests, h.nothing_owned]
  simp only [Dict.get?_empty]
  have hkept : NoSlots (m.free_blocks_of id) := by
    refine ⟨?_, ?_, ?_⟩
    · intro hs
      rw [hslots]
      refine h.nothing_free ?_
      unfold needs_slots at *
      rw [← hconfig]
      exact hs
    · rw [hslots]
      exact h.nothing_used
    · rw [hrequests]
      exact h.nothing_owned
  split <;> exact hkept

theorem noSlots_append (h : NoSlots m) (id : String) : NoSlots (m.after (.append_slot id)) := by
  unfold after
  dsimp only
  rcases hrun : m.append_slot id with err | ⟨_ | _, m'⟩
  · exact h
  · rw [append_slot_false hrun]
    exact h
  · by_cases hb : m.needs_blocks = true
    · obtain ⟨t, c, _, _, ⟨_, _, rfl⟩ | ⟨_, rfl⟩⟩ := append_slot_cases hb hrun
      · exact ⟨h.nothing_free, h.nothing_used, h.nothing_owned⟩
      · exact ⟨h.nothing_free, h.nothing_used, h.nothing_owned⟩
    · unfold append_slot at hrun
      rw [if_pos (by simp [hb])] at hrun
      cases hrun
      exact h

theorem noSlots_run (h : NoSlots m) (calls : List Call) : NoSlots (m.run calls) := by
  induction calls generalizing m with
  | nil => exact h
  | cons call rest ih =>
    refine ih ?_
    cases call with
    | allocate_request id n => exact noSlots_allocate h id n
    | append_slot id => exact noSlots_append h id
    | free_request id => exact noSlots_free h id

theorem balanced_of_noSlots (h : NoSlots m) : SlotsBalanced m := by
  unfold SlotsBalanced
  rw [h.nothing_used, h.nothing_owned]
  rfl

theorem idempotent_of_noSlots (h : NoSlots m) (hb : m.needs_blocks = false) : Idempotent m := by
  intro id n hhas
  unfold has_request at hhas
  rw [h.nothing_owned, hb] at hhas
  split at hhas
  · contradiction
  · split at hhas <;> cases hhas

/-! ## Linear layers only -/

/-- Without attention layers a second allocation takes another slot, or finds none. -/
theorem second_allocation_differs {id : String} (hb : m.block_tables.has id = false) (hs : m.needs_slots = true)
    (n : Nat) : m.allocate_request id n ≠ (true, m) := by
  intro hsame
  unfold allocate_request at hsame
  rw [if_neg (by simp [hb])] at hsame
  rcases hslot : m.take_slot with _ | ⟨slot, slots⟩
  · rw [hslot] at hsame
    cases hsame
  · rcases take_slot_some hslot with ⟨hn, _, _⟩ | ⟨s, _, rfl, htaken⟩
    · rw [hs] at hn
      cases hn
    · rcases hblocks : m.take_blocks n with _ | blocks
      · rw [hslot, hblocks] at hsame
        cases hsame
      · rw [hslot, hblocks] at hsame
        -- The slot that was handed out is missing in the free stack.
        have hallocator : slots = m.slot_allocator :=
          congrArg (fun x : Bool × CacheManager => x.2.slot_allocator) hsame
        have hfirst : m.slot_allocator.allocate.1 = some s := by rw [htaken]
        have hcount := scheduler.allocate_free_slots hfirst
        rw [htaken, hallocator] at hcount
        dsimp only at hcount
        omega

/-- The first request of a model with linear layers only gets its slot. -/
theorem first_slot {c : Config} (hb : c.needs_blocks = false) (hs : c.needs_slots = true)
    (hmax : c.max_num_seqs ≠ 0) (id : String) :
    ((init c).run [.allocate_request id 0]).has_request id = true ∧
      ((init c).run [.allocate_request id 0]).block_tables.has id = false := by
  have hb' : (init c).needs_blocks = false := hb
  have hs' : (init c).needs_slots = true := hs
  show ((init c).allocate_request id 0).2.has_request id = true ∧
    ((init c).allocate_request id 0).2.block_tables.has id = false
  unfold allocate_request
  rw [if_neg (by simp [init])]
  rcases hslot : (init c).take_slot with _ | ⟨slot, slots⟩
  · unfold take_slot at hslot
    rw [if_pos hs'] at hslot
    have hfree : (init c).slot_allocator.free_slots = [] := by
      rw [← SlotAllocator.allocate_none]
      rcases htaken : (init c).slot_allocator.allocate with ⟨_ | s, rest⟩
      · rfl
      · rw [htaken] at hslot
        cases hslot
    unfold init SlotAllocator.init at hfree
    simp [hs, hmax] at hfree
  · rcases take_slot_some hslot with ⟨hn, _, _⟩ | ⟨s, _, rfl, htaken⟩
    · rw [hs'] at hn
      cases hn
    · have hblocks : (init c).take_blocks 0 = some ([], (init c).allocator) := by
        unfold take_blocks
        rw [if_neg (by simp [hb'])]
      rw [hblocks]
      dsimp only
      unfold has_request commit
      simp [needs_blocks, needs_slots, init, hb, hs, Dict.has]

end CacheManager

open CacheManager

/-- Second allocations change nothing, and the used slots are those of the live requests, just
when a model with linear layers has attention layers as well, or no slots at all. -/
theorem recognises_its_requests_iff (c : Config) : RecognisesItsRequests c ↔
    (c.needs_slots = true → c.needs_blocks = true ∨ c.max_num_seqs = 0) := by
  constructor
  · intro h hs
    by_contra hcon
    obtain ⟨hb, hmax⟩ := not_or.mp hcon
    obtain ⟨hhas, hnot⟩ := first_slot (by simpa using hb) hs hmax "a"
    have hneeds : ((init c).run [.allocate_request "a" 0]).needs_slots = true := by
      unfold CacheManager.needs_slots
      rw [run_config]
      exact hs
    exact second_allocation_differs hnot hneeds 0 ((h [.allocate_request "a" 0]).1 "a" 0 hhas)
  · intro h calls
    have hconfig := run_config (init c) calls
    by_cases hb : c.needs_blocks = true
    · obtain ⟨_, hs⟩ := owned_run (init c) calls hb (blocksOwned_init c hb) (slotsOwned_init c)
      refine ⟨idempotent_of_blocks ?_, slotsBalanced_of_owned hs⟩
      unfold CacheManager.needs_blocks
      rw [hconfig]
      exact hb
    · have hno : NoSlots ((init c).run calls) :=
        noSlots_run (noSlots_init (fun hs => (h hs).resolve_left hb)) calls
      refine ⟨idempotent_of_noSlots hno ?_, balanced_of_noSlots hno⟩
      unfold CacheManager.needs_blocks
      rw [hconfig]
      exact eq_false_of_ne_true hb

/-- A model with one linear layer and room for two requests. -/
def linear_only : Config where
  layer_types := [.linear]
  block_size := 4
  num_gpu_blocks := 8
  max_num_seqs := 2
  block_size_pos := Nat.succ_pos 3

/-- The admission and the preparation of the prefill allocate for the same request: its first slot
is never given back. -/
theorem second_slot_is_lost : ¬ ∀ c : Config, RecognisesItsRequests c := by
  intro hall
  have hbalanced := (hall linear_only [.allocate_request "a" 4, .allocate_request "a" 4,
    .free_request "a"]).2
  revert hbalanced
  unfold SlotsBalanced
  decide

end parallax.server.cache_manager
