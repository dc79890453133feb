-- Which requests have memory in the cache: a call for one request leaves the
-- memory of the others alone, an allocation that succeeds makes its request
-- resident, and a release takes all that it has.
import InferenceMesh.Cache.Ownership

open ordered_dict python
open parallax.server.cache

namespace parallax.server.cache_manager

namespace CacheManager

/-- The request has blocks or a slot of its own. -/
def resident (m : CacheManager) (request_id : String) : Bool :=
  (m.needs_blocks && m.block_tables.has request_id) ||
    (m.needs_slots && m.request_slots.has request_id)

/-! ## The other requests -/

/-- The two caches differ in what belongs to one request, and in the allocators. -/
structure OnlyFor (id : String) (m m' : CacheManager) : Prop where
  config : m'.config = m.config
  tables : ∀ id', id' ≠ id → m'.block_tables.get? id' = m.block_tables.get? id'
  slots : ∀ id', id' ≠ id → m'.request_slots.get? id' = m.request_slots.get? id'

namespace OnlyFor

variable {id id' : String} {m m' m'' : CacheManager}

theorem refl (id : String) (m : CacheManager) : OnlyFor id m m :=
  ⟨rfl, fun _ _ => rfl, fun _ _ => rfl⟩

theorem trans (h : OnlyFor id m m') (h' : OnlyFor id m' m'') : OnlyFor id m m'' :=
  ⟨h'.config.trans h.config, fun x hx => (h'.tables x hx).trans (h.tables x hx),
    fun x hx => (h'.slots x hx).trans (h.slots x hx)⟩

theorem needs_blocks (h : OnlyFor id m m') : m'.needs_blocks = m.needs_blocks := by
  unfold CacheManager.needs_blocks
  rw [h.config]

theorem needs_slots (h : OnlyFor id m m') : m'.needs_slots = m.needs_slots := by
  unfold CacheManager.needs_slots
  rw [h.config]

theorem has_request (h : OnlyFor id m m') (hne : id' ≠ id) :
    m'.has_request id' = m.has_request id' := by
  unfold CacheManager.has_request Dict.has
  rw [h.needs_blocks, h.needs_slots, h.tables id' hne, h.slots id' hne]

theorem resident (h : OnlyFor id m m') (hne : id' ≠ id) : m'.resident id' = m.resident id' := by
  unfold CacheManager.resident Dict.has
  rw [h.needs_blocks, h.needs_slots, h.tables id' hne, h.slots id' hne]

end OnlyFor

theorem commit_only_for (m : CacheManager) (id : String) (n : Nat) (slot : Option Nat)
    (slots : SlotAllocator) (blocks : List Nat × BlockAllocator) :
    OnlyFor id m (m.commit id n slot slots blocks) := by
  unfold commit
  refine ⟨rfl, ?_, ?_⟩
  · intro id' hne
    dsimp only
    split
    · exact Dict.get?_insert_ne _ _ (Ne.symm hne)
    · rfl
  · intro id' hne
    dsimp only
    split
    · exact Dict.get?_insert_ne _ _ (Ne.symm hne)
    · rfl

theorem allocate_request_only_for (m : CacheManager) (id : String) (n : Nat) :
    OnlyFor id m (m.allocate_request id n).2 := by
  unfold allocate_request
  split
  · exact .refl id m
  · split
    · exact .refl id m
    · split
      · exact ⟨rfl, fun _ _ => rfl, fun _ _ => rfl⟩
      · exact commit_only_for m id n _ _ _

theorem append_slot_only_for {m m' : CacheManager} {id : String} {ok : Bool}
    (h : m.append_slot id = .ok (ok, m')) : OnlyFor id m m' := by
  cases ok with
  | false => rw [append_slot_false h]; exact .refl id m
  | true =>
    by_cases hb : m.needs_blocks = true
    · obtain ⟨t, c, _, _, ⟨_, _, rfl⟩ | ⟨_, rfl⟩⟩ := append_slot_cases hb h
      · exact ⟨rfl, fun id' hne => Dict.get?_insert_ne _ _ (Ne.symm hne), fun _ _ => rfl⟩
      · exact ⟨rfl, fun _ _ => rfl, fun _ _ => rfl⟩
    · unfold append_slot at h
      rw [if_pos (by simp [hb])] at h
      cases h
      exact .refl id m

theorem release_request_only_for (m : CacheManager) (id : String) :
    OnlyFor id m (m.release_request id) := by
  obtain ⟨_, hslots, hconfig⟩ := free_blocks_of_slots m id
  obtain ⟨_, htables, _, hconfig'⟩ := free_slot_of_blocks (m.free_blocks_of id) id
  unfold release_request free_request
  refine ⟨hconfig'.trans hconfig, ?_, ?_⟩
  · intro id' hne
    rw [htables]
    unfold free_blocks_of
    split
    · split
      · exact Dict.get?_erase_ne _ (Ne.symm hne)
      · rfl
    · rfl
  · intro id' hne
    rw [free_slot_of_slots, if_neg (fun h => hne h.2.symm), hslots]

/-! ## The request itself -/

theorem release_request_resident (m : CacheManager) (id : String) :
    (m.release_request id).resident id = false := by
  have honly := release_request_only_for m id
  obtain ⟨_, hslots, hconfig⟩ := free_blocks_of_slots m id
  obtain ⟨_, htables, _, _⟩ := free_slot_of_blocks (m.free_blocks_of id) id
  have hblocks : m.needs_blocks = true → (m.release_request id).block_tables.get? id = none := by
    intro hb
    unfold release_request free_request
    rw [htables, free_blocks_of_tables m id id hb, if_pos rfl]
  have hslot : m.needs_slots = true → (m.release_request id).request_slots.get? id = none := by
    intro hs
    have hs' : (m.free_blocks_of id).needs_slots = true := by
      unfold needs_slots at *
      rw [hconfig, hs]
    unfold release_request free_request
    rw [free_slot_of_slots, if_pos ⟨hs', rfl⟩]
  unfold resident Dict.has
  rw [honly.needs_blocks, honly.needs_slots]
  cases hb : m.needs_blocks <;> cases hs : m.needs_slots <;> simp [hblocks, hslot, hb, hs]

/-- What `has_request` finds is resident. -/
theorem resident_of_has_request {m : CacheManager} {id : String} (h : m.has_request id = true) :
    m.resident id = true := by
  unfold has_request at h
  unfold resident
  split at h
  · rename_i hb
    simp [hb, h]
  · split at h
    · rename_i hs
      simp [hs, h]
    · cases h

/-- Every layer needs blocks or a slot. -/
theorem needs_memory {m : CacheManager} (h : m.config.layer_types ≠ []) :
    m.needs_blocks = true ∨ m.needs_slots = true := by
  obtain ⟨t, ht⟩ := List.exists_mem_of_ne_nil _ h
  cases t with
  | attention => exact Or.inl (List.any_eq_true.mpr ⟨_, ht, by decide⟩)
  | linear => exact Or.inr (List.any_eq_true.mpr ⟨_, ht, by decide⟩)

/-- A cache with layers, and with block tables only where a layer needs blocks. -/
structure Tidy (m : CacheManager) : Prop where
  layers : m.config.layer_types ≠ []
  tables : m.needs_blocks = false → ∀ id, m.block_tables.get? id = none

theorem init_tidy {c : Config} (h : c.layer_types ≠ []) : Tidy (init c) :=
  ⟨h, fun _ _ => rfl⟩

/-- Without attention layers no call touches the block tables. -/
theorem Tidy.of_only_for {m m' : CacheManager} {id : String} (h : Tidy m) (honly : OnlyFor id m m')
    (hself : m.needs_blocks = false → m'.block_tables.get? id = m.block_tables.get? id) :
    Tidy m' := by
  constructor
  · rw [honly.config]
    exact h.layers
  · intro hb id'
    rw [honly.needs_blocks] at hb
    by_cases hid : id' = id
    · rw [hid, hself hb, h.tables hb]
    · rw [honly.tables id' hid, h.tables hb]

theorem Tidy.allocate_request {m : CacheManager} (h : Tidy m) (id : String) (n : Nat) :
    Tidy (m.allocate_request id n).2 := by
  apply h.of_only_for (allocate_request_only_for m id n)
  intro hb
  unfold CacheManager.allocate_request
  split
  · rfl
  · split
    · rfl
    · split
      · rfl
      · unfold commit
        dsimp only
        rw [if_neg (by simp [hb])]

theorem Tidy.release_request {m : CacheManager} (h : Tidy m) (id : String) :
    Tidy (m.release_request id) := by
  apply h.of_only_for (release_request_only_for m id)
  intro hb
  obtain ⟨_, htables, _, _⟩ := free_slot_of_blocks (m.free_blocks_of id) id
  unfold CacheManager.release_request free_request
  rw [htables]
  unfold free_blocks_of
  rw [if_neg (by simp [hb])]

theorem Tidy.append_slot {m m' : CacheManager} {id : String} {ok : Bool} (h : Tidy m)
    (hrun : m.append_slot id = .ok (ok, m')) : Tidy m' := by
  apply h.of_only_for (append_slot_only_for hrun)
  intro hb
  unfold CacheManager.append_slot at hrun
  rw [if_pos (by simp [hb])] at hrun
  cases hrun
  rfl

/-- A request that gets memory is in the cache. -/
theorem allocate_request_has {m m' : CacheManager} {id : String} {n : Nat} (htidy : Tidy m)
    (h : m.allocate_request id n = (true, m')) : m'.has_request id = true := by
  unfold CacheManager.allocate_request at h
  split at h
  · rename_i hhas
    cases h
    cases hb : m.needs_blocks with
    | false =>
      unfold Dict.has at hhas
      rw [htidy.tables hb] at hhas
      cases hhas
    | true =>
      unfold has_request
      rw [hb, if_pos rfl, hhas]
  · split at h
    · cases h
    · rename_i slot slots hslot
      split at h
      · cases h
      · rename_i blocks hblocks
        cases h
        have honly := commit_only_for m id n slot slots blocks
        unfold has_request Dict.has
        rw [honly.needs_blocks, honly.needs_slots]
        cases hb : m.needs_blocks with
        | true =>
          unfold commit
          simp [hb]
        | false =>
          have hs : m.needs_slots = true := by simpa [hb] using needs_memory htidy.layers
          rcases take_slot_some hslot with ⟨hno, _⟩ | ⟨x, _, rfl, _⟩
          · rw [hs] at hno
            cases hno
          · unfold commit
            simp [hs]

/-- A request that gets none leaves the dictionaries as they were. -/
theorem allocate_request_refused {m m' : CacheManager} {id : String} {n : Nat}
    (h : m.allocate_request id n = (false, m')) (id' : String) :
    m'.resident id' = m.resident id' := by
  unfold CacheManager.allocate_request at h
  split at h
  · cases h
  · split at h
    · cases h
      rfl
    · split at h
      · cases h
        rfl
      · cases h

/-- A request stays in the cache while its dictionaries grow. -/
theorem has_request_mono {m m' : CacheManager} {id : String} (h : m.has_request id = true)
    (hconfig : m'.config = m.config)
    (htables : m.block_tables.has id = true → m'.block_tables.has id = true)
    (hslots : m.request_slots.has id = true → m'.request_slots.has id = true) :
    m'.has_request id = true := by
  unfold has_request needs_blocks needs_slots at *
  rw [hconfig]
  split at h
  · rename_i hb
    rw [if_pos hb]
    exact htables h
  · rename_i hb
    rw [if_neg hb]
    split at h
    · rename_i hs
      rw [if_pos hs]
      exact hslots h
    · cases h

theorem has_insert {α : Type} (d : Dict String α) (id : String) (v : α) :
    (d.insert id v).has id = true := by
  unfold Dict.has
  rw [Dict.get?_insert_self]
  rfl

theorem allocate_request_keeps {m : CacheManager} {id : String} (n : Nat)
    (h : m.has_request id = true) : (m.allocate_request id n).2.has_request id = true := by
  unfold CacheManager.allocate_request
  split
  · exact h
  · split
    · exact h
    · split
      · exact has_request_mono h rfl (fun h => h) (fun h => h)
      · refine has_request_mono h rfl ?_ ?_
        · intro hhas
          unfold commit
          dsimp only
          split
          · exact has_insert _ _ _
          · exact hhas
        · intro hhas
          unfold commit
          dsimp only
          split
          · exact has_insert _ _ _
          · exact hhas

theorem append_slot_keeps {m m' : CacheManager} {id : String} {ok : Bool}
    (hrun : m.append_slot id = .ok (ok, m')) (h : m.has_request id = true) :
    m'.has_request id = true := by
  have honly := append_slot_only_for hrun
  cases ok with
  | false => rwa [append_slot_false hrun]
  | true =>
    by_cases hb : m.needs_blocks = true
    · obtain ⟨t, c, _, _, ⟨_, _, rfl⟩ | ⟨_, rfl⟩⟩ := append_slot_cases hb hrun
      · exact has_request_mono h rfl (fun _ => has_insert _ _ _) (fun h => h)
      · exact has_request_mono h rfl (fun h => h) (fun h => h)
    · unfold CacheManager.append_slot at hrun
      rw [if_pos (by simp [hb])] at hrun
      cases hrun
      exact h

end CacheManager

end parallax.server.cache_manager
