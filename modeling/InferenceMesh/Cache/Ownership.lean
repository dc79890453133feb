-- The laws of block and slot ownership: after any run of calls on the cache
-- manager, the live requests share out exactly the used blocks and the used
-- slots, and each of them has as many blocks as its context needs.
import InferenceMesh.Cache.CacheManager
import Mathlib.Algebra.Order.Floor.Div

open ordered_dict
open parallax.server.cache

namespace parallax.server.cache_manager

open CacheManager

/-! ## The invariant -/

/-- The block tables, the context lengths and the block allocator agree. -/
structure BlocksOwned (m : CacheManager) : Prop where
  total : m.allocator.num_blocks = m.config.num_gpu_blocks
  table_nodup : ∀ id t, m.block_tables.get? id = some t → t.Nodup
  apart : ∀ id id' t t', m.block_tables.get? id = some t → m.block_tables.get? id' = some t' →
    id ≠ id' → ∀ b ∈ t, b ∉ t'
  used : ∀ b, b ∈ m.allocator.used_blocks ↔ ∃ id t, m.block_tables.get? id = some t ∧ b ∈ t
  live : ∀ id, (∃ t, m.block_tables.get? id = some t) ↔ ∃ c, m.context_lengths.get? id = some c
  fits : ∀ id t c, m.block_tables.get? id = some t → m.context_lengths.get? id = some c →
    t.length = m.num_blocks c

/-- The slots of the requests and the slot allocator agree. -/
structure SlotsOwned (m : CacheManager) : Prop where
  live : m.needs_slots = true → ∀ id,
    (∃ t, m.block_tables.get? id = some t) ↔ ∃ s, m.request_slots.get? id = some s
  apart : ∀ id id' s, m.request_slots.get? id = some s → m.request_slots.get? id' = some s →
    id = id'
  used : ∀ s, s ∈ m.slot_allocator.used_slots ↔ ∃ id, m.request_slots.get? id = some s

theorem blocksOwned_init (c : Config) (h : c.needs_blocks = true) : BlocksOwned (init c) := by
  refine ⟨by simp [init, h, BlockAllocator.init], ?_, ?_, ?_, ?_, ?_⟩ <;>
    simp [init, BlockAllocator.init]

theorem slotsOwned_init (c : Config) : SlotsOwned (init c) := by
  refine ⟨?_, ?_, ?_⟩ <;> simp [init, SlotAllocator.init]

/-! ## A request comes in -/

theorem take_blocks_some {m : CacheManager} {n : Nat} {bl : List Nat × BlockAllocator}
    (hb : m.needs_blocks = true) (h : m.take_blocks n = some bl) :
    m.num_blocks n ≤ m.allocator.free_blocks.length ∧ bl = m.allocator.allocate (m.num_blocks n) := by
  simp only [take_blocks, hb, if_true] at h
  split at h
  · cases h
  · rename_i hlen
    refine ⟨?_, by cases h; rfl⟩
    by_contra hshort
    have hnil := BlockAllocator.allocate_short m.allocator (m.num_blocks n) (by omega)
    rw [hnil, List.length_nil] at hlen
    omega

/-- The exit with too few free blocks changes nothing in the block allocator. -/
theorem take_blocks_none {m : CacheManager} {n : Nat} (h : m.take_blocks n = none) :
    m.allocator.allocate (m.num_blocks n) = ([], m.allocator) := by
  unfold take_blocks at h
  split at h
  · simp only at h
    split at h
    · rename_i hlen
      by_cases hshort : m.allocator.free_blocks.length < m.num_blocks n
      · exact BlockAllocator.allocate_short _ _ hshort
      · have hfull := (BlockAllocator.allocate.spec m.allocator (m.num_blocks n) (by omega)).1
        omega
    · cases h
  · cases h

theorem blocksOwned_commit {m : CacheManager} {id : String} {n : Nat} {slot : Option Nat}
    {slots : SlotAllocator} {bl : List Nat × BlockAllocator} (h : BlocksOwned m)
    (hb : m.needs_blocks = true) (hnew : m.block_tables.get? id = none)
    (ht : m.take_blocks n = some bl) : BlocksOwned (m.commit id n slot slots bl) := by
  obtain ⟨hroom, rfl⟩ := take_blocks_some hb ht
  obtain ⟨hlen, hnodup, hfresh, hused, htotal⟩ := BlockAllocator.allocate.spec m.allocator _ hroom
  generalize m.allocator.allocate (m.num_blocks n) = bl at *
  have htab : ∀ id', (m.commit id n slot slots bl).block_tables.get? id' =
      if id = id' then some bl.1 else m.block_tables.get? id' := by
    intro id'; simp [commit, hb]
  have hctx : ∀ id', (m.commit id n slot slots bl).context_lengths.get? id' =
      if id = id' then some n else m.context_lengths.get? id' := by
    intro id'; simp [commit, hb]
  -- A block of another table is used, so it is not among the fresh ones.
  have hother : ∀ id' t, m.block_tables.get? id' = some t → ∀ b ∈ t, b ∉ bl.1 := by
    intro id' t hid' b hbt hbl
    exact hfresh b hbl ((h.used b).mpr ⟨id', t, hid', hbt⟩)
  refine ⟨htotal.trans h.total, ?_, ?_, ?_, ?_, ?_⟩
  · intro id' t
    rw [htab]
    split
    · rintro ⟨⟩; exact hnodup
    · exact h.table_nodup id' t
  · intro id₁ id₂ t₁ t₂
    rw [htab, htab]
    split <;> split
    · rename_i h1 h2
      intro _ _ hne
      exact absurd (h1.symm.trans h2) hne
    · rintro ⟨⟩ h2 _ b hb1 hb2
      exact hother id₂ t₂ h2 b hb2 hb1
    · rintro h1 ⟨⟩ _ b hb1
      exact hother id₁ t₁ h1 b hb1
    · exact h.apart id₁ id₂ t₁ t₂
  · intro b
    have hal : (m.commit id n slot slots bl).allocator = bl.2 := rfl
    rw [hal, hused, h.used]
    constructor
    · rintro (hbl | ⟨id', t, hid', hbt⟩)
      · exact ⟨id, bl.1, by rw [htab]; simp, hbl⟩
      · refine ⟨id', t, ?_, hbt⟩
        rw [htab, if_neg (fun he => by rw [← he, hnew] at hid'; cases hid')]
        exact hid'
    · rintro ⟨id', t, hid', hbt⟩
      rw [htab] at hid'
      split at hid'
      · cases hid'; exact Or.inl hbt
      · exact Or.inr ⟨id', t, hid', hbt⟩
  · intro id'
    rw [htab, hctx]
    split
    · simp
    · exact h.live id'
  · intro id' t c
    rw [htab, hctx]
    split
    · rintro ⟨⟩ ⟨⟩; exact hlen
    · exact h.fits id' t c

theorem take_slot_none {m : CacheManager} (h : m.take_slot = none) : m.needs_slots = true := by
  unfold take_slot at h
  split at h
  · assumption
  · cases h

theorem take_slot_some {m : CacheManager} {slot : Option Nat} {slots : SlotAllocator}
    (h : m.take_slot = some (slot, slots)) :
    (m.needs_slots = false ∧ slot = none ∧ slots = m.slot_allocator) ∨
      ∃ s, m.needs_slots = true ∧ slot = some s ∧ m.slot_allocator.allocate = (some s, slots) := by
  unfold take_slot at h
  split at h
  · rename_i hn
    split at h
    · rename_i s a ha
      cases h
      exact Or.inr ⟨s, hn, rfl, ha⟩
    · cases h
  · rename_i hn
    cases h
    exact Or.inl ⟨by simpa using hn, rfl, rfl⟩

theorem slotsOwned_commit {m : CacheManager} {id : String} {n : Nat} {slot : Option Nat}
    {slots : SlotAllocator} {bl : List Nat × BlockAllocator} (h : SlotsOwned m)
    (hb : m.needs_blocks = true) (hnew : m.block_tables.get? id = none)
    (hs : m.take_slot = some (slot, slots)) : SlotsOwned (m.commit id n slot slots bl) := by
  have htab : ∀ id', (m.commit id n slot slots bl).block_tables.get? id' =
      if id = id' then some bl.1 else m.block_tables.get? id' := by
    intro id'; simp [commit, hb]
  rcases take_slot_some hs with ⟨hn, rfl, rfl⟩ | ⟨s, hn, rfl, ha⟩
  · refine ⟨?_, h.apart, h.used⟩
    intro hn'
    rw [show (m.commit id n none m.slot_allocator bl).needs_slots = m.needs_slots from rfl, hn] at hn'
    cases hn'
  · have hreq : ∀ id', (m.commit id n (some s) slots bl).request_slots.get? id' =
        if id = id' then some s else m.request_slots.get? id' := by
      intro id'; simp [commit]
    have hspec := SlotAllocator.allocate.spec m.slot_allocator s (by rw [ha])
    rw [ha] at hspec
    obtain ⟨hfresh, hused, _⟩ := hspec
    have hnone : m.request_slots.get? id = none := by
      rw [Option.eq_none_iff_forall_ne_some]
      intro x hx
      obtain ⟨t, ht⟩ := (h.live hn id).mpr ⟨x, hx⟩
      rw [hnew] at ht
      cases ht
    have hother : ∀ id', m.request_slots.get? id' ≠ some s := by
      intro id' he
      exact hfresh ((h.used s).mpr ⟨id', he⟩)
    refine ⟨?_, ?_, ?_⟩
    · intro _ id'
      rw [htab, hreq]
      split
      · simp
      · exact h.live hn id'
    · intro id₁ id₂ x
      rw [hreq, hreq]
      split <;> split
      · rename_i h1 h2
        intro _ _
        exact h1.symm.trans h2
      · rintro ⟨⟩ h2
        exact absurd h2 (hother id₂)
      · rintro h1 ⟨⟩
        exact absurd h1 (hother id₁)
      · exact h.apart id₁ id₂ x
    · intro x
      have hal : (m.commit id n (some s) slots bl).slot_allocator = slots := rfl
      rw [hal, hused, h.used]
      constructor
      · rintro (rfl | ⟨id', hid'⟩)
        · exact ⟨id, by rw [hreq]; simp⟩
        · refine ⟨id', ?_⟩
          rw [hreq, if_neg (fun he => by rw [← he, hnone] at hid'; cases hid')]
          exact hid'
      · rintro ⟨id', hid'⟩
        rw [hreq] at hid'
        split at hid'
        · cases hid'; exact Or.inl rfl
        · exact Or.inr ⟨id', hid'⟩

/-- The exit with too few free blocks owns what was owned before. -/
theorem owned_give_back {m : CacheManager} {n : Nat} {slot : Option Nat} {slots : SlotAllocator}
    (hm : BlocksOwned m) (hs : SlotsOwned m) (ht : m.take_blocks n = none)
    (hsl : m.take_slot = some (slot, slots)) :
    BlocksOwned (m.give_back n slot slots) ∧ SlotsOwned (m.give_back n slot slots) := by
  have hal : (m.give_back n slot slots).allocator = m.allocator := by
    simp [give_back, take_blocks_none ht]
  refine ⟨⟨?_, hm.table_nodup, hm.apart, ?_, hm.live, hm.fits⟩, ⟨hs.live, hs.apart, ?_⟩⟩
  · rw [hal]; exact hm.total
  · rw [hal]; exact hm.used
  · intro x
    rw [show (m.give_back n slot slots).request_slots = m.request_slots from rfl, ← hs.used]
    rcases take_slot_some hsl with ⟨_, rfl, rfl⟩ | ⟨s, _, rfl, ha⟩
    · rfl
    · have hspec := SlotAllocator.allocate.spec m.slot_allocator s (by rw [ha])
      rw [ha] at hspec
      obtain ⟨hfresh, hused, _⟩ := hspec
      simp only [give_back, SlotAllocator.mem_free_used, hused]
      constructor
      · rintro ⟨rfl | hx, hne⟩
        · exact absurd rfl hne
        · exact hx
      · intro hx
        exact ⟨Or.inr hx, fun he => hfresh (he ▸ hx)⟩

theorem owned_allocate (m : CacheManager) (id : String) (n : Nat) (hb : m.needs_blocks = true)
    (hm : BlocksOwned m) (hs : SlotsOwned m) :
    BlocksOwned (m.allocate_request id n).2 ∧ SlotsOwned (m.allocate_request id n).2 := by
  unfold allocate_request
  split
  · exact ⟨hm, hs⟩
  · rename_i hnew
    have hnone : m.block_tables.get? id = none := Dict.has_eq_false.mp (by simpa using hnew)
    rcases hsl : m.take_slot with _ | ⟨slot, slots⟩
    · exact ⟨hm, hs⟩
    · rcases htb : m.take_blocks n with _ | bl
      · exact owned_give_back hm hs htb hsl
      · exact ⟨blocksOwned_commit hm hb hnone htb, slotsOwned_commit hs hb hnone hsl⟩

/-! ## A request goes -/

theorem blocksOwned_free {m : CacheManager} (id : String) (h : BlocksOwned m) :
    BlocksOwned (m.free_blocks_of id) := by
  unfold free_blocks_of
  split
  · rcases ht : m.block_tables.get? id with _ | blocks
    · exact h
    · refine ⟨h.total, ?_, ?_, ?_, ?_, ?_⟩
      · intro id' t
        simp only [Dict.get?_erase]
        split
        · simp
        · exact h.table_nodup id' t
      · intro id₁ id₂ t₁ t₂
        simp only [Dict.get?_erase]
        split
        · simp
        · split
          · simp
          · exact h.apart id₁ id₂ t₁ t₂
      · intro b
        simp only [BlockAllocator.mem_free_used, Dict.get?_erase]
        rw [h.used]
        constructor
        · rintro ⟨⟨id', t, hid', hbt⟩, hnot⟩
          refine ⟨id', t, ?_, hbt⟩
          rw [if_neg]
          · exact hid'
          · rintro rfl
            rw [ht] at hid'
            cases hid'
            exact hnot hbt
        · rintro ⟨id', t, hid', hbt⟩
          split at hid'
          · cases hid'
          · rename_i hne
            exact ⟨⟨id', t, hid', hbt⟩, h.apart id' id t blocks hid' ht (Ne.symm hne) b hbt⟩
      · intro id'
        simp only [Dict.get?_erase]
        split
        · simp
        · exact h.live id'
      · intro id' t c
        simp only [Dict.get?_erase]
        split
        · simp
        · exact h.fits id' t c
  · exact h

@[simp] theorem free_slot_of_blocks (m : CacheManager) (id : String) :
    (m.free_slot_of id).allocator = m.allocator ∧
      (m.free_slot_of id).block_tables = m.block_tables ∧
      (m.free_slot_of id).context_lengths = m.context_lengths ∧
      (m.free_slot_of id).config = m.config := by
  unfold free_slot_of
  split
  · split <;> exact ⟨rfl, rfl, rfl, rfl⟩
  · exact ⟨rfl, rfl, rfl, rfl⟩

@[simp] theorem free_blocks_of_slots (m : CacheManager) (id : String) :
    (m.free_blocks_of id).slot_allocator = m.slot_allocator ∧
      (m.free_blocks_of id).request_slots = m.request_slots ∧
      (m.free_blocks_of id).config = m.config := by
  unfold free_blocks_of
  split
  · split <;> exact ⟨rfl, rfl, rfl⟩
  · exact ⟨rfl, rfl, rfl⟩

theorem free_blocks_of_tables (m : CacheManager) (id id' : String) (hb : m.needs_blocks = true) :
    (m.free_blocks_of id).block_tables.get? id' =
      if id = id' then none else m.block_tables.get? id' := by
  simp only [free_blocks_of, hb, if_true]
  rcases ht : m.block_tables.get? id with _ | t
  · simp only
    split
    · rename_i he; rw [← he, ht]
    · rfl
  · simp

theorem blocksOwned_free_slot {m : CacheManager} (id : String) (h : BlocksOwned m) :
    BlocksOwned (m.free_slot_of id) := by
  obtain ⟨h1, h2, h3, h4⟩ := free_slot_of_blocks m id
  have h5 : (m.free_slot_of id).num_blocks = m.num_blocks := by
    funext n; simp only [CacheManager.num_blocks, CacheManager.block_size, h4]
  exact ⟨by rw [h1, h4]; exact h.total, by rw [h2]; exact h.table_nodup,
    by rw [h2]; exact h.apart, by rw [h1, h2]; exact h.used, by rw [h2, h3]; exact h.live,
    by rw [h2, h3, h5]; exact h.fits⟩

theorem free_slot_of_slots (m : CacheManager) (id id' : String) :
    (m.free_slot_of id).request_slots.get? id' =
      if m.needs_slots = true ∧ id = id' then none else m.request_slots.get? id' := by
  unfold free_slot_of
  split
  · rename_i hn
    rcases hs : m.request_slots.get? id with _ | s
    · simp only [hn, true_and]
      split
      · rename_i he; rw [← he, hs]
      · rfl
    · simp [hn]
  · rename_i hn
    simp [hn]

theorem slotsOwned_free {m : CacheManager} (id : String) (hb : m.needs_blocks = true)
    (h : SlotsOwned m) : SlotsOwned (m.free_request id) := by
  obtain ⟨hsl, hrq, hcf⟩ := free_blocks_of_slots m id
  have hneeds : (m.free_blocks_of id).needs_slots = m.needs_slots := by
    simp only [CacheManager.needs_slots, hcf]
  have htab : ∀ id', (m.free_request id).block_tables.get? id' =
      if id = id' then none else m.block_tables.get? id' := by
    intro id'
    rw [free_request, (free_slot_of_blocks _ id).2.1, free_blocks_of_tables _ _ _ hb]
  have hreq : ∀ id', (m.free_request id).request_slots.get? id' =
      if m.needs_slots = true ∧ id = id' then none else m.request_slots.get? id' := by
    intro id'
    rw [free_request, free_slot_of_slots, hneeds, hrq]
  refine ⟨?_, ?_, ?_⟩
  · intro hn id'
    have hn' : m.needs_slots = true := by
      rw [← hneeds]
      simpa [CacheManager.needs_slots, (free_slot_of_blocks _ id).2.2.2, free_request] using hn
    rw [htab, hreq]
    simp only [hn', true_and]
    split
    · simp
    · exact h.live hn' id'
  · intro id₁ id₂ s
    rw [hreq, hreq]
    split
    · simp
    · split
      · simp
      · exact h.apart id₁ id₂ s
  · intro s
    simp only [hreq]
    unfold free_request free_slot_of
    rw [hneeds, hrq, hsl]
    by_cases hn : m.needs_slots = true
    · simp only [hn, if_true, true_and]
      rcases hid : m.request_slots.get? id with _ | x
      · simp only [hsl]
        rw [h.used]
        constructor
        · rintro ⟨id', hid'⟩
          exact ⟨id', by rw [if_neg (fun he => by rw [← he, hid] at hid'; cases hid')]; exact hid'⟩
        · rintro ⟨id', hid'⟩
          split at hid'
          · cases hid'
          · exact ⟨id', hid'⟩
      · simp only [SlotAllocator.mem_free_used]
        rw [h.used]
        constructor
        · rintro ⟨⟨id', hid'⟩, hne⟩
          refine ⟨id', ?_⟩
          rw [if_neg]
          · exact hid'
          · rintro rfl
            rw [hid] at hid'
            cases hid'
            exact hne rfl
        · rintro ⟨id', hid'⟩
          split at hid'
          · cases hid'
          · rename_i hne
            refine ⟨⟨id', hid'⟩, ?_⟩
            rintro rfl
            exact hne (h.apart id id' s hid hid')
    · simp only [hn, false_and, if_false, Bool.false_eq_true]
      rw [hsl, h.used]

theorem owned_free (m : CacheManager) (id : String) (hb : m.needs_blocks = true)
    (hm : BlocksOwned m) (hs : SlotsOwned m) :
    BlocksOwned (m.free_request id) ∧ SlotsOwned (m.free_request id) :=
  ⟨blocksOwned_free_slot id (blocksOwned_free id hm), slotsOwned_free id hb hs⟩

/-! ## A request grows -/

/-- One more token needs one more block exactly when the last block is full. -/
theorem num_blocks_succ (m : CacheManager) (c : Nat) :
    m.num_blocks (c + 1) = if c % m.block_size = 0 then m.num_blocks c + 1 else m.num_blocks c := by
  have hpos : 0 < m.block_size := m.config.block_size_pos
  unfold CacheManager.num_blocks
  generalize m.block_size = k at *
  have hc := Nat.div_add_mod c k
  have hlt := Nat.mod_lt c hpos
  generalize c % k = r at *
  generalize c / k = q at *
  subst hc
  rcases Nat.eq_zero_or_pos r with rfl | hr
  · have h1 : (k * q + 0 + 1 + k - 1) / k = q + 1 := by
      rw [show k * q + 0 + 1 + k - 1 = k * (q + 1) by rw [Nat.mul_succ]; omega,
        Nat.mul_div_cancel_left _ hpos]
    have h2 : (k * q + 0 + k - 1) / k = q := by
      rw [show k * q + 0 + k - 1 = (k - 1) + k * q by omega, Nat.add_mul_div_left _ _ hpos,
        Nat.div_eq_of_lt (by omega)]
      omega
    rw [if_pos rfl, h1, h2]
  · have h1 : (k * q + r + 1 + k - 1) / k = q + 1 := by
      rw [show k * q + r + 1 + k - 1 = r + k * (q + 1) by rw [Nat.mul_succ]; omega,
        Nat.add_mul_div_left _ _ hpos, Nat.div_eq_of_lt hlt]
      omega
    have h2 : (k * q + r + k - 1) / k = q + 1 := by
      rw [show k * q + r + k - 1 = (r - 1) + k * (q + 1) by rw [Nat.mul_succ]; omega,
        Nat.add_mul_div_left _ _ hpos, Nat.div_eq_of_lt (by omega)]
      omega
    rw [if_neg (by omega), h1, h2]

/-- What a call of `append_slot` that returns `True` does: the context grows by one token, and
the table by one fresh block when the last block was full. -/
theorem append_slot_cases {m m' : CacheManager} {id : String} (hb : m.needs_blocks = true)
    (h : m.append_slot id = .ok (true, m')) :
    ∃ t c, m.block_tables.get? id = some t ∧ m.context_lengths.get? id = some c ∧
      ((c % m.block_size = 0 ∧ 1 ≤ m.allocator.free_blocks.length ∧ m' = { m with
          allocator := (m.allocator.allocate 1).2
          block_tables := m.block_tables.insert id (t ++ (m.allocator.allocate 1).1)
          context_lengths := m.context_lengths.insert id (c + 1) }) ∨
        (c % m.block_size ≠ 0 ∧
          m' = { m with context_lengths := m.context_lengths.insert id (c + 1) })) := by
  unfold append_slot at h
  rw [hb] at h
  simp only [Bool.not_true, Bool.false_eq_true, if_false] at h
  rcases ht : m.block_tables.get? id with _ | t
  · rw [ht] at h; cases h
  · rcases hc : m.context_lengths.get? id with _ | c
    · rw [ht, hc] at h; cases h
    · refine ⟨t, c, rfl, rfl, ?_⟩
      rw [ht, hc] at h
      simp only at h
      split at h
      · rename_i hfull
        left
        rcases hal : m.allocator.allocate 1 with ⟨_ | ⟨b, bs⟩, a⟩
        · rw [hal] at h; cases h
        · rw [hal] at h
          refine ⟨hfull, ?_, by cases h; rfl⟩
          by_contra hshort
          rw [BlockAllocator.allocate_short _ _ (by omega)] at hal
          cases hal
      · rename_i hroom
        exact Or.inr ⟨hroom, by cases h; rfl⟩

/-- A call of `append_slot` that returns `False` changes nothing. -/
theorem append_slot_false {m m' : CacheManager} {id : String}
    (h : m.append_slot id = .ok (false, m')) : m' = m := by
  unfold append_slot at h
  split at h
  · cases h
  · rcases ht : m.block_tables.get? id with _ | t
    · rw [ht] at h; cases h
    · rcases hc : m.context_lengths.get? id with _ | c
      · rw [ht, hc] at h; cases h
      · rw [ht, hc] at h
        simp only at h
        split at h
        · rcases hal : m.allocator.allocate 1 with ⟨_ | ⟨b, bs⟩, a⟩
          · rw [hal] at h; cases h; rfl
          · rw [hal] at h; cases h
        · cases h

theorem blocksOwned_append {m m' : CacheManager} {id : String} (hb : m.needs_blocks = true)
    (h : BlocksOwned m) (ha : m.append_slot id = .ok (true, m')) : BlocksOwned m' := by
  obtain ⟨t, c, ht, hc, ⟨hfull, hroom, rfl⟩ | ⟨hroom, rfl⟩⟩ := append_slot_cases hb ha
  · obtain ⟨hlen, hnodup, hfresh, hused, htotal⟩ := BlockAllocator.allocate.spec m.allocator 1 hroom
    have hother : ∀ id' t', m.block_tables.get? id' = some t' → ∀ b ∈ t',
        b ∉ (m.allocator.allocate 1).1 := by
      intro id' t' hid' b hbt hbl
      exact hfresh b hbl ((h.used b).mpr ⟨id', t', hid', hbt⟩)
    generalize m.allocator.allocate 1 = bl at *
    refine ⟨htotal.trans h.total, ?_, ?_, ?_, ?_, ?_⟩
    · intro id' t'
      simp only [Dict.get?_insert]
      split
      · rintro ⟨⟩
        exact List.Nodup.append (h.table_nodup id t ht) hnodup (hother id t ht)
      · exact h.table_nodup id' t'
    · intro id₁ id₂ t₁ t₂
      simp only [Dict.get?_insert]
      split <;> split
      · rename_i h1 h2
        intro _ _ hne
        exact absurd (h1.symm.trans h2) hne
      · rename_i h1 _
        rintro ⟨⟩ h2 hne b hb1 hb2
        rcases List.mem_append.mp hb1 with hb1 | hb1
        · exact h.apart id id₂ t t₂ ht h2 (h1 ▸ hne) b hb1 hb2
        · exact hother id₂ t₂ h2 b hb2 hb1
      · rename_i _ h2
        rintro h1 ⟨⟩ hne b hb1 hb2
        rcases List.mem_append.mp hb2 with hb2 | hb2
        · exact h.apart id₁ id t₁ t h1 ht (h2 ▸ hne) b hb1 hb2
        · exact hother id₁ t₁ h1 b hb1 hb2
      · exact h.apart id₁ id₂ t₁ t₂
    · intro b
      simp only [hused, h.used, Dict.get?_insert]
      constructor
      · rintro (hbl | ⟨id', t', hid', hbt⟩)
        · exact ⟨id, t ++ bl.1, by simp, List.mem_append_right _ hbl⟩
        · by_cases he : id = id'
          · subst he
            rw [ht] at hid'
            cases hid'
            exact ⟨id, t ++ bl.1, by simp, List.mem_append_left _ hbt⟩
          · exact ⟨id', t', by simp [he, hid'], hbt⟩
      · rintro ⟨id', t', hid', hbt⟩
        split at hid'
        · cases hid'
          rcases List.mem_append.mp hbt with hbt | hbt
          · exact Or.inr ⟨id, t, ht, hbt⟩
          · exact Or.inl hbt
        · exact Or.inr ⟨id', t', hid', hbt⟩
    · intro id'
      simp only [Dict.get?_insert]
      split
      · simp
      · exact h.live id'
    · intro id' t' c'
      simp only [Dict.get?_insert]
      split
      · rintro ⟨⟩ ⟨⟩
        have hlt := h.fits id t c ht hc
        have hsucc := num_blocks_succ m c
        rw [if_pos hfull] at hsucc
        simp only [List.length_append, hlen, hlt]
        exact hsucc.symm
      · exact h.fits id' t' c'
  · refine ⟨h.total, h.table_nodup, h.apart, h.used, ?_, ?_⟩
    · intro id'
      simp only [Dict.get?_insert]
      split
      · rename_i he
        subst he
        simp [ht]
      · exact h.live id'
    · intro id' t' c'
      simp only [Dict.get?_insert]
      split
      · rename_i he
        subst he
        rw [ht]
        rintro ⟨⟩ ⟨⟩
        have hsucc := num_blocks_succ m c
        rw [if_neg hroom] at hsucc
        rw [h.fits id t c ht hc]
        exact hsucc.symm
      · exact h.fits id' t' c'

theorem slotsOwned_append {m m' : CacheManager} {id : String} (hb : m.needs_blocks = true)
    (h : SlotsOwned m) (ha : m.append_slot id = .ok (true, m')) : SlotsOwned m' := by
  obtain ⟨t, c, ht, hc, ⟨_, _, rfl⟩ | ⟨_, rfl⟩⟩ := append_slot_cases hb ha
  · refine ⟨?_, h.apart, h.used⟩
    intro hn id'
    rw [← h.live hn id']
    simp only [Dict.get?_insert]
    split
    · rename_i he
      subst he
      simp [ht]
    · rfl
  · exact ⟨h.live, h.apart, h.used⟩

/-! ## Every run -/

theorem append_slot_config {m m' : CacheManager} {id : String} {b : Bool}
    (h : m.append_slot id = .ok (b, m')) : m'.config = m.config := by
  cases b with
  | false => rw [append_slot_false h]
  | true =>
    by_cases hb : m.needs_blocks = true
    · obtain ⟨t, c, _, _, ⟨_, _, rfl⟩ | ⟨_, rfl⟩⟩ := append_slot_cases hb h <;> rfl
    · simp only [append_slot, hb, Bool.not_false, if_true] at h
      cases h
      rfl

theorem after_config (m : CacheManager) (call : Call) : (m.after call).config = m.config := by
  cases call with
  | allocate_request id n =>
    simp only [after, allocate_request]
    split
    · rfl
    · split
      · rfl
      · split <;> rfl
  | append_slot id =>
    simp only [after]
    rcases h : m.append_slot id with e | ⟨b, m'⟩
    · rfl
    · exact append_slot_config h
  | free_request id =>
    simp only [after, free_request, free_slot_of_blocks, free_blocks_of_slots]

/-- One call keeps the invariant, on each of its exits. -/
theorem owned_after (m : CacheManager) (call : Call) (hb : m.needs_blocks = true)
    (hm : BlocksOwned m) (hs : SlotsOwned m) :
    BlocksOwned (m.after call) ∧ SlotsOwned (m.after call) := by
  cases call with
  | allocate_request id n => exact owned_allocate m id n hb hm hs
  | free_request id => exact owned_free m id hb hm hs
  | append_slot id =>
    simp only [after]
    rcases h : m.append_slot id with e | ⟨_ | _, m'⟩
    · exact ⟨hm, hs⟩
    · rw [append_slot_false h]; exact ⟨hm, hs⟩
    · exact ⟨blocksOwned_append hb hm h, slotsOwned_append hb hs h⟩

theorem run_config (m : CacheManager) (calls : List Call) : (m.run calls).config = m.config := by
  induction calls generalizing m with
  | nil => rfl
  | cons call rest ih => exact (ih _).trans (after_config m call)

theorem owned_run (m : CacheManager) (calls : List Call) (hb : m.needs_blocks = true)
    (hm : BlocksOwned m) (hs : SlotsOwned m) :
    BlocksOwned (m.run calls) ∧ SlotsOwned (m.run calls) := by
  induction calls generalizing m with
  | nil => exact ⟨hm, hs⟩
  | cons call rest ih =>
    obtain ⟨hm', hs'⟩ := owned_after m call hb hm hs
    refine ih (m.after call) ?_ hm' hs'
    unfold CacheManager.needs_blocks at *
    rw [after_config]
    exact hb

theorem num_blocks_eq_ceil (m : CacheManager) (c : Nat) :
    m.num_blocks c = c ⌈/⌉ m.block_size := by
  rw [Nat.ceilDiv_eq_add_pred_div]
  rfl

/-- After any run of calls, the free list and the used set split the blocks, the tables of the
live requests share out the used blocks, each live request has just the blocks of its context,
and the live requests hold exactly the used slots, each its own. -/
theorem live_requests_own_the_used_blocks (c : Config) (calls : List Call)
    (hb : c.needs_blocks = true) :
    let m := (init c).run calls
    (m.allocator.free_blocks.Nodup ∧
      (∀ b ∈ m.allocator.free_blocks, b ∉ m.allocator.used_blocks) ∧
      (∀ b, b < c.num_gpu_blocks ↔ b ∈ m.allocator.free_blocks ∨ b ∈ m.allocator.used_blocks)) ∧
    ((∀ id t, m.block_tables.get? id = some t → t.Nodup) ∧
      (∀ id id' t t', m.block_tables.get? id = some t → m.block_tables.get? id' = some t' →
        id ≠ id' → ∀ b ∈ t, b ∉ t') ∧
      (∀ b, b ∈ m.allocator.used_blocks ↔
        ∃ id t, m.block_tables.get? id = some t ∧ b ∈ t)) ∧
    (∀ id t, m.block_tables.get? id = some t →
      ∃ len, m.context_lengths.get? id = some len ∧ t.length = len ⌈/⌉ c.block_size) ∧
    (c.needs_slots = true →
      (∀ id, (∃ t, m.block_tables.get? id = some t) ↔ ∃ s, m.request_slots.get? id = some s) ∧
      (∀ id id' s, m.request_slots.get? id = some s → m.request_slots.get? id' = some s →
        id = id') ∧
      (∀ s, s ∈ m.slot_allocator.used_slots ↔ ∃ id, m.request_slots.get? id = some s)) := by
  intro m
  have hcf : m.config = c := run_config (init c) calls
  obtain ⟨hm, hs⟩ := owned_run (init c) calls hb (blocksOwned_init c hb) (slotsOwned_init c)
  refine ⟨⟨m.allocator.split.nodup, m.allocator.split.disjoint, ?_⟩,
    ⟨hm.table_nodup, hm.apart, hm.used⟩, ?_, ?_⟩
  · intro b
    rw [← m.allocator.split.cover, hm.total, hcf]
    simp
  · intro id t ht
    obtain ⟨len, hlen⟩ := (hm.live id).mp ⟨t, ht⟩
    refine ⟨len, hlen, ?_⟩
    rw [hm.fits id t len ht hlen, num_blocks_eq_ceil, CacheManager.block_size, hcf]
  · intro hn
    refine ⟨hs.live ?_, hs.apart, hs.used⟩
    unfold CacheManager.needs_slots
    rw [hcf]
    exact hn

/-- A small server with one layer of each kind. -/
def hybrid : Config where
  layer_types := [.attention, .linear]
  block_size := 4
  num_gpu_blocks := 8
  max_num_seqs := 2
  block_size_pos := by decide

theorem hybrid_run_owns_blocks :
    let m := (init hybrid).run [.allocate_request "a" 4, .allocate_request "b" 1,
      .append_slot "a", .free_request "b"]
    m.block_tables.get? "a" = some [7, 5] ∧
      ∃ len, m.context_lengths.get? "a" = some len ∧ 2 = len ⌈/⌉ 4 := by
  intro m
  have ht : m.block_tables.get? "a" = some [7, 5] := by decide
  exact ⟨ht, (live_requests_own_the_used_blocks hybrid _ (by decide)).2.2.1 "a" [7, 5] ht⟩

end parallax.server.cache_manager
