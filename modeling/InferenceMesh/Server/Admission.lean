-- The admission of the batching scheduler keeps every request as long as the
-- cache has memory for all that it takes from the queue. A request that the
-- cache refuses has already left the queue, and it is nowhere afterwards.
import InferenceMesh.Server.Scheduler

open ordered_dict python
open parallax.server.cache parallax.server.cache_manager parallax.server.request

namespace parallax.server.scheduler

/-! ## Memory for one request -/

/-- The cache has nothing to do for the id. -/
def holds (m : CacheManager) (request_id : String) : Bool :=
  m.has_request request_id || m.block_tables.has request_id

/-- What a successful call leaves: fewer free blocks, one free slot less, and the id entered. -/
structure Taken (m m' : CacheManager) (request_id : String) (prompt_len : Nat) : Prop where
  config : m'.config = m.config
  blocks : m.needs_blocks = true →
    m'.allocator.get_num_free_blocks + m.num_blocks prompt_len = m.allocator.get_num_free_blocks
  slots : m.needs_slots = true →
    m'.slot_allocator.get_num_free_slots + 1 = m.slot_allocator.get_num_free_slots
  others : ∀ id, id ≠ request_id → holds m' id = holds m id

theorem allocate_free_blocks (a : BlockAllocator) {n : Nat} (h : n ≤ a.get_num_free_blocks) :
    (a.allocate n).2.get_num_free_blocks + n = a.get_num_free_blocks := by
  have hlt : ¬ a.free_blocks.length < n := not_lt.mpr h
  unfold BlockAllocator.get_num_free_blocks at *
  simp only [BlockAllocator.allocate, hlt, if_false, List.length_take]
  omega

theorem allocate_free_slots {a : SlotAllocator} {slot : Nat} (h : a.allocate.1 = some slot) :
    a.allocate.2.get_num_free_slots + 1 = a.get_num_free_slots := by
  have hne : a.free_slots ≠ [] := by
    intro he
    rw [a.allocate_none.mpr he] at h
    cases h
  have hpos := List.length_pos_iff.mpr hne
  unfold SlotAllocator.get_num_free_slots
  simp only [SlotAllocator.allocate, List.length_take]
  omega

theorem take_slot_cases (m : CacheManager) :
    (m.needs_slots = true ∧ m.slot_allocator.get_num_free_slots = 0 ∧ m.take_slot = none) ∨
      (m.needs_slots = true ∧ ∃ slot, m.slot_allocator.allocate.1 = some slot ∧
        m.take_slot = some (some slot, m.slot_allocator.allocate.2)) ∨
      (m.needs_slots = false ∧ m.take_slot = some (none, m.slot_allocator)) := by
  unfold CacheManager.take_slot
  by_cases hneeds : m.needs_slots = true
  · rw [if_pos hneeds]
    rcases halloc : m.slot_allocator.allocate with ⟨_ | slot, rest⟩
    · have hnone : m.slot_allocator.allocate.1 = none := by rw [halloc]
      have hfree := m.slot_allocator.allocate_none.mp hnone
      left
      refine ⟨hneeds, ?_, rfl⟩
      unfold SlotAllocator.get_num_free_slots
      rw [hfree]
      rfl
    · exact Or.inr (Or.inl ⟨hneeds, slot, rfl, rfl⟩)
  · rw [if_neg hneeds]
    exact Or.inr (Or.inr ⟨by simpa using hneeds, rfl⟩)

theorem take_blocks_cases (m : CacheManager) (prompt_len : Nat) :
    (m.needs_blocks = true ∧ m.allocator.get_num_free_blocks < m.num_blocks prompt_len ∧
        m.take_blocks prompt_len = none) ∨
      (m.needs_blocks = true ∧ m.num_blocks prompt_len ≤ m.allocator.get_num_free_blocks ∧
        m.take_blocks prompt_len = some (m.allocator.allocate (m.num_blocks prompt_len))) ∨
      (m.needs_blocks = false ∧ m.take_blocks prompt_len = some ([], m.allocator)) := by
  unfold CacheManager.take_blocks
  by_cases hneeds : m.needs_blocks = true
  · rw [if_pos hneeds]
    by_cases hroom : m.num_blocks prompt_len ≤ m.allocator.get_num_free_blocks
    · have hlen := (BlockAllocator.allocate.spec m.allocator _ hroom).1
      right; left
      refine ⟨hneeds, hroom, ?_⟩
      rw [if_neg (by omega)]
    · have hshort : m.allocator.free_blocks.length < m.num_blocks prompt_len := not_le.mp hroom
      left
      refine ⟨hneeds, hshort, ?_⟩
      rw [m.allocator.allocate_short _ hshort]
      rw [if_pos (by simp only [List.length_nil]; omega)]
  · rw [if_neg hneeds]
    exact Or.inr (Or.inr ⟨by simpa using hneeds, rfl⟩)

theorem commit_holds (m : CacheManager) {request_id id : String} (hne : id ≠ request_id)
    (prompt_len : Nat) (slot : Option Nat) (slots : SlotAllocator)
    (blocks : List Nat × BlockAllocator) :
    holds (m.commit request_id prompt_len slot slots blocks) id = holds m id := by
  have hne' : request_id ≠ id := Ne.symm hne
  have htables : (m.commit request_id prompt_len slot slots blocks).block_tables.has id =
      m.block_tables.has id := by
    unfold CacheManager.commit
    dsimp only
    split
    · unfold Dict.has
      rw [Dict.get?_insert_ne _ _ hne']
    · rfl
  have hslots : (m.commit request_id prompt_len slot slots blocks).request_slots.has id =
      m.request_slots.has id := by
    unfold CacheManager.commit
    dsimp only
    split
    · unfold Dict.has
      rw [Dict.get?_insert_ne _ _ hne']
    · rfl
  have hneeds : (m.commit request_id prompt_len slot slots blocks).has_request id =
      m.has_request id := by
    unfold CacheManager.has_request
    rw [htables, hslots]
    rfl
  unfold holds
  rw [hneeds, htables]

theorem can_allocate_iff (m : CacheManager) (prompt_len : Nat) :
    m.can_allocate prompt_len = true ↔
      (m.needs_blocks = true → m.num_blocks prompt_len ≤ m.allocator.get_num_free_blocks) ∧
      (m.needs_slots = true → 0 < m.slot_allocator.get_num_free_slots) := by
  unfold CacheManager.can_allocate
  cases m.needs_blocks <;> cases m.needs_slots <;> simp

/-- A new request gets memory just when `can_allocate` says so. -/
theorem allocate_request.spec (m : CacheManager) {request_id : String} (prompt_len : Nat)
    (hnew : m.block_tables.has request_id = false) :
    (¬ m.can_allocate prompt_len = true ∧ (m.allocate_request request_id prompt_len).1 = false) ∨
      (m.can_allocate prompt_len = true ∧ ∃ m',
        m.allocate_request request_id prompt_len = (true, m') ∧
          Taken m m' request_id prompt_len) := by
  have hunknown : ¬ m.block_tables.has request_id = true := by simp [hnew]
  unfold CacheManager.allocate_request
  rw [if_neg hunknown, can_allocate_iff]
  rcases take_slot_cases m with ⟨hs, hfree, ht⟩ | ⟨hs, slot, hslot, ht⟩ | ⟨hs, ht⟩
  · -- No slot is free.
    left
    rw [ht]
    refine ⟨?_, rfl⟩
    rintro ⟨_, hpos⟩
    have hpos' := hpos hs
    omega
  · rw [ht]
    have hslots := allocate_free_slots hslot
    rcases take_blocks_cases m prompt_len with ⟨hb, hshort, hblocks⟩ | ⟨hb, hroom, hblocks⟩ |
      ⟨hb, hblocks⟩
    · left
      rw [hblocks]
      refine ⟨?_, rfl⟩
      rintro ⟨hroom, _⟩
      have hroom' := hroom hb
      omega
    · right
      rw [hblocks]
      refine ⟨⟨fun _ => hroom, fun _ => by omega⟩, _, rfl, rfl, ?_, fun _ => hslots, ?_⟩
      · exact fun _ => allocate_free_blocks m.allocator hroom
      · exact fun id hne => commit_holds m hne _ _ _ _
    · right
      rw [hblocks]
      refine ⟨⟨?_, fun _ => by omega⟩, _, rfl, rfl, ?_, fun _ => hslots, ?_⟩
      · intro hb'
        rw [hb] at hb'
        cases hb'
      · intro hb'
        rw [hb] at hb'
        cases hb'
      · exact fun id hne => commit_holds m hne _ _ _ _
  · rw [ht]
    have hno : m.needs_slots = true → False := by
      intro hs'
      rw [hs] at hs'
      cases hs'
    rcases take_blocks_cases m prompt_len with ⟨hb, hshort, hblocks⟩ | ⟨hb, hroom, hblocks⟩ |
      ⟨hb, hblocks⟩
    · left
      rw [hblocks]
      refine ⟨?_, rfl⟩
      rintro ⟨hroom, _⟩
      have hroom' := hroom hb
      omega
    · right
      rw [hblocks]
      refine ⟨⟨fun _ => hroom, fun hs' => (hno hs').elim⟩, _, rfl, rfl, ?_,
        fun hs' => (hno hs').elim, ?_⟩
      · exact fun _ => allocate_free_blocks m.allocator hroom
      · exact fun id hne => commit_holds m hne _ _ _ _
    · right
      rw [hblocks]
      refine ⟨⟨?_, fun hs' => (hno hs').elim⟩, _, rfl, rfl, ?_, fun hs' => (hno hs').elim, ?_⟩
      · intro hb'
        rw [hb] at hb'
        cases hb'
      · intro hb'
        rw [hb] at hb'
        cases hb'
      · exact fun id hne => commit_holds m hne _ _ _ _

/-! ## Memory for a queue -/

/-- The requests for which the cache has to take something. -/
def newcomers (m : CacheManager) (reqs : List Request) : List Request :=
  reqs.filter (fun req => !holds m req.request_id)

/-- The free blocks and slots suffice for the requests, all of them together. -/
def HasMemory (m : CacheManager) (reqs : List Request) : Prop :=
  (m.needs_blocks = true →
    ((newcomers m reqs).map (fun req => m.num_blocks req.total_length)).sum ≤
      m.allocator.get_num_free_blocks) ∧
  (m.needs_slots = true → (newcomers m reqs).length ≤ m.slot_allocator.get_num_free_slots)

theorem hasMemory_nil (m : CacheManager) : HasMemory m [] := ⟨fun _ => Nat.zero_le _, fun _ => Nat.zero_le _⟩

theorem newcomers_held {m : CacheManager} {req : Request} (h : holds m req.request_id = true)
    (reqs : List Request) : newcomers m (req :: reqs) = newcomers m reqs := by
  unfold newcomers
  rw [List.filter_cons_of_neg (by simp [h])]

theorem newcomers_new {m : CacheManager} {req : Request} (h : holds m req.request_id = false)
    (reqs : List Request) : newcomers m (req :: reqs) = req :: newcomers m reqs := by
  unfold newcomers
  rw [List.filter_cons_of_pos (by simp [h])]

theorem hasMemory_held {m : CacheManager} {req : Request} (h : holds m req.request_id = true)
    (reqs : List Request) : HasMemory m (req :: reqs) ↔ HasMemory m reqs := by
  unfold HasMemory
  rw [newcomers_held h]

/-- A request that is refused is one too many. -/
theorem hasMemory_refused {m : CacheManager} {req : Request}
    (h : holds m req.request_id = false) (hno : ¬ m.can_allocate req.total_length = true)
    (reqs : List Request) : ¬ HasMemory m (req :: reqs) := by
  rintro ⟨hblocks, hslots⟩
  apply hno
  rw [newcomers_new h] at hblocks hslots
  rw [can_allocate_iff]
  refine ⟨?_, ?_⟩
  · intro hneeds
    have hsum := hblocks hneeds
    rw [List.map_cons, List.sum_cons] at hsum
    omega
  · intro hneeds
    have hlen := hslots hneeds
    rw [List.length_cons] at hlen
    omega

/-- After a request has got its memory, the others need the rest. -/
theorem hasMemory_taken {m m' : CacheManager} {req : Request} {reqs : List Request}
    (h : holds m req.request_id = false) (ht : Taken m m' req.request_id req.total_length)
    (hne : ∀ r ∈ reqs, r.request_id ≠ req.request_id) :
    HasMemory m (req :: reqs) ↔ HasMemory m' reqs := by
  have hnew : newcomers m' reqs = newcomers m reqs := by
    unfold newcomers
    apply List.filter_congr
    intro r hr
    rw [ht.others _ (hne r hr)]
  have hneeds : m'.needs_blocks = m.needs_blocks := by
    unfold CacheManager.needs_blocks
    rw [ht.config]
  have hneeds' : m'.needs_slots = m.needs_slots := by
    unfold CacheManager.needs_slots
    rw [ht.config]
  have hnum : ∀ n, m'.num_blocks n = m.num_blocks n := by
    intro n
    unfold CacheManager.num_blocks CacheManager.block_size
    rw [ht.config]
  unfold HasMemory
  rw [newcomers_new h, hnew, hneeds, hneeds']
  simp only [hnum, List.map_cons, List.sum_cons, List.length_cons]
  have hb := ht.blocks
  have hs := ht.slots
  constructor
  · rintro ⟨hblocks, hslots⟩
    refine ⟨fun hn => ?_, fun hn => ?_⟩
    · have h1 := hb hn
      have h2 := hblocks hn
      omega
    · have h1 := hs hn
      have h2 := hslots hn
      omega
  · rintro ⟨hblocks, hslots⟩
    refine ⟨fun hn => ?_, fun hn => ?_⟩
    · have h1 := hb hn
      have h2 := hblocks hn
      omega
    · have h1 := hs hn
      have h2 := hslots hn
      omega

/-! ## The loop -/

namespace Scheduler

/-- The requests that the loop takes from the queue can all get their memory. -/
def FitsFrom (s : Scheduler) (queue : List Request) : Prop :=
  ∀ m ∈ s.cache_manager, HasMemory m (queue.take (s.max_batch_size - s.running_requests.size))

/-- The ids that wait or run. -/
def ids (s : Scheduler) : List String :=
  s.wait_queue.map Request.request_id ++ s.running_requests.keys

end Scheduler

/-- What one turn of the loop does with a request that is not running: it is admitted, and the
memory of the others is the same question as before, or it is refused. -/
theorem make_resident_cases (s : Scheduler) (req : Request) (reqs : List Request)
    (hne : ∀ r ∈ reqs, r.request_id ≠ req.request_id) :
    (∃ s', s.make_resident req = (true, s') ∧ s'.running_requests = s.running_requests ∧
        s'.max_batch_size = s.max_batch_size ∧
        ((∀ m ∈ s.cache_manager, HasMemory m (req :: reqs)) ↔
          ∀ m ∈ s'.cache_manager, HasMemory m reqs)) ∨
      (∃ s', s.make_resident req = (false, s') ∧ s'.running_requests = s.running_requests ∧
        ¬ ∀ m ∈ s.cache_manager, HasMemory m (req :: reqs)) := by
  unfold Scheduler.make_resident
  rcases hm : s.cache_manager with _ | m
  · left
    refine ⟨s, rfl, rfl, rfl, ?_⟩
    simp [hm]
  · have hall : ∀ (m : CacheManager) (P : CacheManager → Prop),
        (∀ m' ∈ some m, P m') ↔ P m := by
      intro m P
      simp
    dsimp only
    by_cases hhas : m.has_request req.request_id = true
    · left
      have hheld : holds m req.request_id = true := by simp [holds, hhas]
      rw [if_pos hhas]
      refine ⟨s, rfl, rfl, rfl, ?_⟩
      rw [hm, hall, hall, hasMemory_held hheld]
    · rw [if_neg hhas]
      by_cases htable : m.block_tables.has req.request_id = true
      · left
        have hheld : holds m req.request_id = true := by simp [holds, htable]
        have hrun : m.allocate_request req.request_id req.total_length = (true, m) := by
          unfold CacheManager.allocate_request
          rw [if_pos htable]
        rw [hrun]
        refine ⟨{ s with cache_manager := some m }, rfl, rfl, rfl, ?_⟩
        rw [hall]
        exact (hasMemory_held hheld reqs).trans (hall m (fun x => HasMemory x reqs)).symm
      · have hnew : m.block_tables.has req.request_id = false := by simpa using htable
        have hheld : holds m req.request_id = false := by simp [holds, hhas, hnew]
        rcases allocate_request.spec m req.total_length hnew with ⟨hno, hrun⟩ | ⟨_, m', hrun, ht⟩
        · right
          rcases hres : m.allocate_request req.request_id req.total_length with ⟨ok, m'⟩
          rw [hres] at hrun
          refine ⟨{ s with cache_manager := some m' }, ?_, rfl, ?_⟩
          · rw [← hrun]
          · rw [hall]
            exact hasMemory_refused hheld hno reqs
        · left
          rw [hrun]
          refine ⟨{ s with cache_manager := some m' }, rfl, rfl, rfl, ?_⟩
          rw [hall]
          exact (hasMemory_taken hheld ht hne).trans (hall m' (fun x => HasMemory x reqs)).symm

theorem keys_start_running {s : Scheduler} {req : Request} {now : Nat}
    (hnew : s.running_requests.has req.request_id = false) :
    (s.start_running now req).running_requests.keys =
      s.running_requests.keys ++ [req.request_id] := by
  unfold Scheduler.start_running
  rw [Dict.keys_insert, if_neg (Dict.get?_eq_none.mp (Dict.has_eq_false.mp hnew))]

theorem size_eq_keys {κ α : Type*} (d : Dict κ α) : d.size = d.keys.length := by
  unfold Dict.size Dict.keys
  rw [List.length_map]

theorem has_iff_mem_keys {κ α : Type*} [DecidableEq κ] {d : Dict κ α} {k : κ} :
    d.has k = false ↔ k ∉ d.keys := by
  rw [Dict.has_eq_false, Dict.get?_eq_none]

section loop

variable {now : Nat}

theorem admit_from_full {s : Scheduler} {queue : List Request}
    (hfull : ¬ s.running_requests.size < s.max_batch_size) :
    s.admit_from now queue = { s with wait_queue := queue } := by
  cases queue with
  | nil => rfl
  | cons req rest =>
    unfold Scheduler.admit_from
    rw [if_neg hfull]

theorem admit_from_cons {s s' : Scheduler} {req : Request} {rest : List Request} {ok : Bool}
    (hroom : s.running_requests.size < s.max_batch_size)
    (hnew : s.running_requests.has req.request_id = false)
    (hres : s.make_resident req = (ok, s')) :
    s.admit_from now (req :: rest) =
      if ok then (s'.start_running now req).admit_from now rest else s'.admit_from now rest := by
  rw [Scheduler.admit_from, if_pos hroom, if_neg (by simp [hnew]), hres]
  cases ok <;> rfl

/-- The loop never has more ids at its end than it started with. -/
theorem admit_from_le (now : Nat) (queue : List Request) (s : Scheduler) :
    (s.admit_from now queue).ids.length ≤ queue.length + s.running_requests.size := by
  induction queue generalizing s with
  | nil => simp [Scheduler.admit_from, Scheduler.ids, size_eq_keys]
  | cons req rest ih =>
    by_cases hroom : s.running_requests.size < s.max_batch_size
    · by_cases hnew : s.running_requests.has req.request_id = false
      · rcases hres : s.make_resident req with ⟨ok, s'⟩
        have hrunning : s'.running_requests = s.running_requests := by
          rcases make_resident_cases s req [] (by simp) with ⟨x, hx, hr, _⟩ | ⟨x, hx, hr, _⟩ <;>
            · rw [hres] at hx
              cases hx
              exact hr
        rw [admit_from_cons hroom hnew hres]
        cases ok
        · have h := ih s'
          rw [hrunning] at h
          simp only [Bool.false_eq_true, if_false, List.length_cons]
          omega
        · have h := ih (s'.start_running now req)
          rw [size_eq_keys, keys_start_running (by rw [hrunning]; exact hnew), hrunning] at h
          simp only [if_true, List.length_cons, size_eq_keys]
          simp only [List.length_append, List.length_singleton] at h
          omega
      · have h := ih s
        rw [Scheduler.admit_from, if_pos hroom, if_pos (by simpa using hnew), List.length_cons]
        omega
    · rw [admit_from_full hroom]
      simp [Scheduler.ids, size_eq_keys]

/-- One turn of the loop, with room for one more: the request is running afterwards and the others
have the same question, or the request is dropped. -/
theorem admit_from_turn (now : Nat) {s : Scheduler} {req : Request} {rest : List Request}
    (hids : ((req :: rest).map Request.request_id).Nodup)
    (hnew : ∀ r ∈ req :: rest, s.running_requests.has r.request_id = false)
    (hroom : s.running_requests.size < s.max_batch_size) :
    (∃ s' : Scheduler, s.admit_from now (req :: rest) = s'.admit_from now rest ∧
        s'.running_requests.keys = s.running_requests.keys ++ [req.request_id] ∧
        (∀ r ∈ rest, s'.running_requests.has r.request_id = false) ∧
        (s.FitsFrom (req :: rest) ↔ s'.FitsFrom rest)) ∨
      (∃ s' : Scheduler, s.admit_from now (req :: rest) = s'.admit_from now rest ∧
        s'.running_requests = s.running_requests ∧ ¬ s.FitsFrom (req :: rest)) := by
  obtain ⟨hnot, hrest⟩ := List.nodup_cons.mp hids
  have hne : ∀ r ∈ rest, r.request_id ≠ req.request_id := by
    intro r hr he
    exact hnot (he ▸ List.mem_map_of_mem hr)
  have hreq := hnew req List.mem_cons_self
  obtain ⟨k, hk⟩ : ∃ k, s.max_batch_size - s.running_requests.size = k + 1 :=
    ⟨s.max_batch_size - s.running_requests.size - 1, by omega⟩
  have htake : s.FitsFrom (req :: rest) ↔
      ∀ m ∈ s.cache_manager, HasMemory m (req :: rest.take k) := by
    unfold Scheduler.FitsFrom
    rw [hk, List.take_succ_cons]
  rcases make_resident_cases s req (rest.take k)
      (fun r hr => hne r (List.mem_of_mem_take hr)) with
    ⟨s', hres, hrunning, hmax, hmemory⟩ | ⟨s', hres, hrunning, hmemory⟩
  · left
    have hkeys : (s'.start_running now req).running_requests.keys =
        s.running_requests.keys ++ [req.request_id] := by
      rw [keys_start_running (by rw [hrunning]; exact hreq), hrunning]
    have hleft : (s'.start_running now req).max_batch_size -
        (s'.start_running now req).running_requests.size = k := by
      show s'.max_batch_size - _ = k
      rw [size_eq_keys, hkeys, hmax, List.length_append, List.length_singleton]
      rw [size_eq_keys] at hk
      omega
    refine ⟨s'.start_running now req, ?_, hkeys, ?_, ?_⟩
    · rw [admit_from_cons hroom hreq hres, if_pos rfl]
    · intro r hr
      rw [has_iff_mem_keys, hkeys, List.mem_append, not_or, List.mem_singleton]
      exact ⟨has_iff_mem_keys.mp (hnew r (List.mem_cons_of_mem _ hr)), hne r hr⟩
    · rw [htake, hmemory]
      unfold Scheduler.FitsFrom
      rw [hleft]
      rfl
  · right
    refine ⟨s', ?_, hrunning, fun h => hmemory (htake.mp h)⟩
    rw [admit_from_cons hroom hreq hres, if_neg Bool.false_ne_true]

theorem fitsFrom_full {s : Scheduler} {queue : List Request}
    (hfull : ¬ s.running_requests.size < s.max_batch_size) : s.FitsFrom queue := by
  intro m _
  have hzero : s.max_batch_size - s.running_requests.size = 0 := by omega
  rw [hzero, List.take_zero]
  exact hasMemory_nil m

/-- When the memory suffices, the loop admits a first part of the queue in its order, and leaves
the rest. -/
theorem admit_from_fits (now : Nat) (queue : List Request) (s : Scheduler)
    (hids : (queue.map Request.request_id).Nodup)
    (hnew : ∀ req ∈ queue, s.running_requests.has req.request_id = false)
    (hfits : s.FitsFrom queue) :
    ∃ admitted waiting, queue = admitted ++ waiting ∧
      (s.admit_from now queue).wait_queue = waiting ∧
      (s.admit_from now queue).running_requests.keys =
        s.running_requests.keys ++ admitted.map Request.request_id := by
  induction queue generalizing s with
  | nil => exact ⟨[], [], rfl, rfl, (List.append_nil _).symm⟩
  | cons req rest ih =>
    by_cases hroom : s.running_requests.size < s.max_batch_size
    · rcases admit_from_turn now hids hnew hroom with
        ⟨s', hrun, hkeys, hnew', hsame⟩ | ⟨s', hrun, hrunning, hno⟩
      · obtain ⟨admitted, waiting, hsplit, hwait, hall⟩ :=
          ih s' (List.nodup_cons.mp hids).2 hnew' (hsame.mp hfits)
        refine ⟨req :: admitted, waiting, by rw [hsplit]; rfl, by rw [hrun]; exact hwait, ?_⟩
        rw [hrun, hall, hkeys, List.append_assoc]
        rfl
      · exact absurd hfits hno
    · rw [admit_from_full hroom]
      exact ⟨[], req :: rest, rfl, rfl, (List.append_nil _).symm⟩

/-- When it does not, a request is lost. -/
theorem admit_from_loses (now : Nat) (queue : List Request) (s : Scheduler)
    (hids : (queue.map Request.request_id).Nodup)
    (hnew : ∀ req ∈ queue, s.running_requests.has req.request_id = false)
    (hfits : ¬ s.FitsFrom queue) :
    (s.admit_from now queue).ids.length < queue.length + s.running_requests.size := by
  induction queue generalizing s with
  | nil =>
    exfalso
    apply hfits
    intro m _
    rw [List.take_nil]
    exact hasMemory_nil m
  | cons req rest ih =>
    by_cases hroom : s.running_requests.size < s.max_batch_size
    · rw [List.length_cons]
      rcases admit_from_turn now hids hnew hroom with
        ⟨s', hrun, hkeys, hnew', hsame⟩ | ⟨s', hrun, hrunning, hno⟩
      · have h := ih s' (List.nodup_cons.mp hids).2 hnew' (fun h => hfits (hsame.mpr h))
        rw [size_eq_keys, hkeys, List.length_append, List.length_singleton] at h
        rw [hrun, size_eq_keys]
        omega
      · have h := admit_from_le now rest s'
        rw [hrunning] at h
        rw [hrun]
        omega
    · exact absurd (fitsFrom_full hroom) hfits

end loop

/-! ## Conservation -/

/-- What an admission owes to the requests: no id is lost or doubled, the admitted ones are the
first of the queue in its order, and a request that was not admitted is still waiting. -/
structure Conserves (s s' : Scheduler) : Prop where
  ids : s'.ids.Perm s.ids
  order : ∃ admitted waiting, s.wait_queue.map Request.request_id = admitted ++ waiting ∧
    s'.running_requests.keys = s.running_requests.keys ++ admitted
  waits : ∀ req ∈ s.wait_queue, s'.running_requests.has req.request_id = false →
    req ∈ s'.wait_queue

/-- The cache has memory for all the requests that the free running slots allow to admit. -/
def Scheduler.Fits (s : Scheduler) : Prop := s.FitsFrom s.wait_queue

/-- An admission keeps all requests just when the cache has memory for all that it takes. -/
theorem admission_conserves_iff (s : Scheduler) (now : Nat)
    (hids : (s.wait_queue.map Request.request_id).Nodup)
    (hnew : ∀ req ∈ s.wait_queue, s.running_requests.has req.request_id = false) :
    Conserves s (s.admit_requests now) ↔ s.Fits := by
  unfold Scheduler.admit_requests
  constructor
  · intro h
    by_contra hfits
    have hless := admit_from_loses now s.wait_queue s hids hnew hfits
    have hlen := h.ids.length_eq
    rw [Scheduler.ids, Scheduler.ids] at hlen
    rw [Scheduler.ids, size_eq_keys] at hless
    simp only [List.length_append, List.length_map] at hlen hless
    omega
  · intro hfits
    obtain ⟨admitted, waiting, hsplit, hwait, hkeys⟩ :=
      admit_from_fits now s.wait_queue s hids hnew hfits
    refine ⟨?_, ⟨admitted.map Request.request_id, waiting.map Request.request_id, ?_, hkeys⟩, ?_⟩
    · unfold Scheduler.ids
      rw [hwait, hkeys, hsplit, List.map_append, List.append_assoc, ← List.append_assoc]
      exact List.perm_append_comm
    · rw [hsplit, List.map_append]
    · intro req hreq hno
      rw [hwait]
      rw [hsplit, List.mem_append] at hreq
      rcases hreq with hreq | hreq
      · exfalso
        rw [has_iff_mem_keys, hkeys] at hno
        exact hno (List.mem_append_right _ (List.mem_map_of_mem hreq))
      · exact hreq

/-! ## A cache of one block -/

/-- A prompt of 16 tokens. -/
def short_prompt (id : String) : Request where
  request_id := id
  prompt_len := 16
  input_ids := List.replicate 16 7
  kind := .initial 8 1024

/-- A cache with room for the given number of prompts of 16 tokens. -/
def small_cache (num_gpu_blocks : Nat) : CacheManager :=
  .init ⟨[.attention], 16, num_gpu_blocks, 256, by decide⟩

/-- A first peer with two short prompts in its queue. -/
def two_waiting (num_gpu_blocks : Nat) : Scheduler :=
  { Scheduler.init 16 4096 2 true (some (small_cache num_gpu_blocks)) 600 (some (.one 2)) none with
    wait_queue := [short_prompt "a", short_prompt "b"] }

/-- With two blocks both are admitted. -/
theorem two_blocks_conserve : Conserves (two_waiting 2) ((two_waiting 2).admit_requests 0) :=
  (admission_conserves_iff (two_waiting 2) 0 (by decide) (by decide)).mpr
    (by
      intro m hm
      cases hm
      exact ⟨fun _ => by decide +kernel, fun h => absurd h (by decide)⟩)

/-- With one block the second prompt is lost: it neither waits nor runs. -/
theorem second_prompt_is_lost :
    ¬ ∀ (s : Scheduler) (now : Nat), (s.wait_queue.map Request.request_id).Nodup →
      (∀ req ∈ s.wait_queue, s.running_requests.has req.request_id = false) →
      Conserves s (s.admit_requests now) := by
  intro hall
  have h := hall (two_waiting 1) 0 (by decide) (by decide)
  have hlen : ((two_waiting 1).admit_requests 0).ids.length = 1 := by decide +kernel
  rw [h.ids.length_eq] at hlen
  cases hlen

end parallax.server.scheduler
