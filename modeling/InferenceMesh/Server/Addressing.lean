-- The laws of KV addresses. A position of a live request has one physical
-- slot. The prefill mapping and the decode computation both find it, and no
-- two positions share it.
import InferenceMesh.Cache.Ownership
import InferenceMesh.Server.PrepareBatch
import InferenceMesh.Kernel.ReshapeAndCache

open ordered_dict python state_exn
open parallax.server.cache parallax.server.cache_manager parallax.server.request
open parallax.metal.paged_attention

namespace parallax.server.mlx_executor

open CacheManager

/-! ## The slot of a position -/

/-- The physical slot of a position of a request, by its block table. -/
def slot_of (m : CacheManager) (request_id : String) (position : Nat) : Option Nat :=
  match m.block_tables.get? request_id with
  | none => none
  | some table =>
    (table[position / m.block_size]?).map (fun b => b * m.block_size + position % m.block_size)

theorem slot_of_eq_some {m : CacheManager} {id : String} {p s : Nat} :
    slot_of m id p = some s ↔ ∃ t b, m.block_tables.get? id = some t ∧
      t[p / m.block_size]? = some b ∧ s = b * m.block_size + p % m.block_size := by
  unfold slot_of
  rcases m.block_tables.get? id with _ | t
  · simp
  · rcases t[p / m.block_size]? with _ | b <;> simp [eq_comm]

/-- A position below the context length has a slot, and the slot is in the pool. -/
theorem slot_of_lt_context {m : CacheManager} (h : BlocksOwned m) {id : String} {c p : Nat}
    (hc : m.context_lengths.get? id = some c) (hp : p < c) :
    ∃ s, slot_of m id p = some s ∧ s < m.config.num_gpu_blocks * m.block_size := by
  have hpos : 0 < m.block_size := m.config.block_size_pos
  obtain ⟨t, ht⟩ := (h.live id).mpr ⟨c, hc⟩
  have hlen := h.fits id t c ht hc
  have hidx : p / m.block_size < t.length := by
    rw [hlen, CacheManager.num_blocks, ← Nat.succ_le_iff, Nat.le_div_iff_mul_le hpos, Nat.succ_mul]
    have := Nat.div_mul_le_self p m.block_size
    omega
  have hb : t[p / m.block_size] ∈ t := List.getElem_mem hidx
  have hlt : t[p / m.block_size] < m.config.num_gpu_blocks := by
    have hused := (m.allocator.split.cover _).mpr (Or.inr ((h.used _).mpr ⟨id, t, ht, hb⟩))
    rw [h.total] at hused
    simpa using hused
  refine ⟨_, slot_of_eq_some.mpr ⟨t, _, ht, List.getElem?_eq_getElem hidx, rfl⟩, ?_⟩
  calc t[p / m.block_size] * m.block_size + p % m.block_size
      < (t[p / m.block_size] + 1) * m.block_size := by
        have := Nat.mod_lt p hpos
        rw [Nat.succ_mul]
        omega
    _ ≤ m.config.num_gpu_blocks * m.block_size := Nat.mul_le_mul_right _ hlt

/-- Distinct positions have distinct slots. -/
theorem slot_of_inj {m : CacheManager} (h : BlocksOwned m) {id id' : String} {p p' s : Nat}
    (h1 : slot_of m id p = some s) (h2 : slot_of m id' p' = some s) : id = id' ∧ p = p' := by
  have hpos : 0 < m.block_size := m.config.block_size_pos
  obtain ⟨t, b, ht, hb, rfl⟩ := slot_of_eq_some.mp h1
  obtain ⟨t', b', ht', hb', he⟩ := slot_of_eq_some.mp h2
  obtain ⟨rfl, hoff⟩ := scatter_memory.digits_inj (Nat.mod_lt p hpos) (Nat.mod_lt p' hpos) he
  have hid : id = id' := by
    by_contra hne
    exact h.apart id id' t t' ht ht' hne b (List.mem_of_getElem? hb) (List.mem_of_getElem? hb')
  subst hid
  rw [ht] at ht'
  cases ht'
  -- A table has no block twice, so the two positions stand in the same block of it.
  obtain ⟨hi, hbi⟩ := List.getElem?_eq_some_iff.mp hb
  obtain ⟨hi', hbi'⟩ := List.getElem?_eq_some_iff.mp hb'
  have hblock : p / m.block_size = p' / m.block_size :=
    (h.table_nodup id t ht).getElem_inj_iff.mp (hbi.trans hbi'.symm)
  refine ⟨rfl, ?_⟩
  rw [← Nat.div_add_mod p m.block_size, ← Nat.div_add_mod p' m.block_size, hblock, hoff]

/-! ## Tables only grow while a request lives -/

/-- The block table of the request is still there, possibly with more blocks at its end. -/
def Grows (id : String) (m m' : CacheManager) : Prop :=
  m'.config = m.config ∧
    ∀ t, m.block_tables.get? id = some t → ∃ more, m'.block_tables.get? id = some (t ++ more)

theorem Grows.refl (id : String) (m : CacheManager) : Grows id m m :=
  ⟨rfl, fun t ht => ⟨[], by rw [ht, List.append_nil]⟩⟩

theorem Grows.trans {id : String} {m₁ m₂ m₃ : CacheManager} (h : Grows id m₁ m₂)
    (h' : Grows id m₂ m₃) : Grows id m₁ m₃ := by
  refine ⟨h'.1.trans h.1, ?_⟩
  intro t ht
  obtain ⟨more, hm⟩ := h.2 t ht
  obtain ⟨more', hm'⟩ := h'.2 _ hm
  exact ⟨more ++ more', by rw [hm', List.append_assoc]⟩

theorem Grows.slot_of {id : String} {m m' : CacheManager} (h : Grows id m m') {p s : Nat}
    (hs : slot_of m id p = some s) : slot_of m' id p = some s := by
  obtain ⟨t, b, ht, hb, rfl⟩ := slot_of_eq_some.mp hs
  obtain ⟨more, hm⟩ := h.2 t ht
  have hbs : m'.block_size = m.block_size := by simp only [CacheManager.block_size, h.1]
  rw [slot_of_eq_some, hbs]
  exact ⟨_, b, hm, by rw [List.getElem?_append_left (List.getElem?_eq_some_iff.mp hb).1, hb], rfl⟩

theorem commit_grows {m : CacheManager} {id id' : String} {n : Nat} {slot : Option Nat}
    {slots : SlotAllocator} {bl : List Nat × BlockAllocator}
    (hnew : m.block_tables.get? id' = none) : Grows id m (m.commit id' n slot slots bl) := by
  refine ⟨rfl, ?_⟩
  intro t ht
  refine ⟨[], ?_⟩
  rw [List.append_nil, ← ht]
  simp only [commit]
  split
  · rw [Dict.get?_insert_ne]
    rintro rfl
    rw [hnew] at ht
    cases ht
  · rfl

/-- A call that does not free the request keeps its blocks where they are. -/
theorem after_grows (m : CacheManager) (id : String) (call : Call)
    (hfree : call ≠ .free_request id) : Grows id m (m.after call) := by
  cases call with
  | allocate_request id' n =>
    simp only [after, allocate_request]
    split
    · exact Grows.refl id m
    · rename_i hnew
      split
      · exact Grows.refl id m
      · split
        · exact ⟨rfl, fun t ht => ⟨[], by rw [List.append_nil]; exact ht⟩⟩
        · exact commit_grows (Dict.has_eq_false.mp (by simpa using hnew))
  | free_request id' =>
    have hne : id' ≠ id := fun he => hfree (he ▸ rfl)
    refine ⟨after_config m _, ?_⟩
    intro t ht
    refine ⟨[], ?_⟩
    rw [List.append_nil, ← ht, after, free_request, (free_slot_of_blocks _ _).2.1, free_blocks_of]
    split
    · split
      · exact Dict.get?_erase_ne _ hne
      · rfl
    · rfl
  | append_slot id' =>
    refine ⟨after_config m _, ?_⟩
    intro t ht
    simp only [after]
    rcases h : m.append_slot id' with e | ⟨_ | _, m'⟩
    · exact ⟨[], by rw [List.append_nil]; exact ht⟩
    · rw [append_slot_false h]; exact ⟨[], by rw [List.append_nil]; exact ht⟩
    · by_cases hb : m.needs_blocks = true
      · obtain ⟨t', c, ht', _, ⟨_, _, rfl⟩ | ⟨_, rfl⟩⟩ := append_slot_cases hb h
        · by_cases he : id' = id
          · subst he
            rw [ht'] at ht
            cases ht
            exact ⟨_, Dict.get?_insert_self _ _ _⟩
          · exact ⟨[], by rw [List.append_nil, ← ht]; exact Dict.get?_insert_ne _ _ he⟩
        · exact ⟨[], by rw [List.append_nil]; exact ht⟩
      · simp only [append_slot, hb, Bool.not_false, if_true] at h
        cases h
        exact ⟨[], by rw [List.append_nil]; exact ht⟩

theorem run_grows (m : CacheManager) (id : String) (calls : List Call)
    (hfree : .free_request id ∉ calls) : Grows id m (m.run calls) := by
  induction calls generalizing m with
  | nil => exact Grows.refl id m
  | cons call rest ih =>
    rw [List.mem_cons, not_or] at hfree
    exact (after_grows m id call (Ne.symm hfree.1)).trans (ih (m.after call) hfree.2)

/-! ## The two formulas -/

/-- A table that a batch holds on to: the request's table, which may have grown since. -/
def Holds (m : CacheManager) (id : String) (t : List Nat) : Prop :=
  ∃ more, m.block_tables.get? id = some (t ++ more)

theorem Holds.grows {m m' : CacheManager} {id : String} {t : List Nat} (h : Holds m id t)
    (hg : Grows id m m') : Holds m' id t := by
  obtain ⟨more, ht⟩ := h
  obtain ⟨more', ht'⟩ := hg.2 _ ht
  exact ⟨more ++ more', by rw [ht', List.append_assoc]⟩

theorem Holds.slot_of {m : CacheManager} {id : String} {t : List Nat} (h : Holds m id t) {p b : Nat}
    (hb : t[p / m.block_size]? = some b) :
    slot_of m id p = some (b * m.block_size + p % m.block_size) := by
  obtain ⟨more, ht⟩ := h
  refine slot_of_eq_some.mpr ⟨_, b, ht, ?_, rfl⟩
  rw [List.getElem?_append_left (List.getElem?_eq_some_iff.mp hb).1, hb]

/-- The entry of the prefill mapping for a token is the slot of its position. -/
theorem token_slot.spec {m : CacheManager} {id : String} {t : List Nat} {n p : Nat} {e : Int}
    (h : Holds m id t) (hp : p < n) (he : token_slot m.block_size t n p = .ok e) :
    ∃ s, slot_of m id p = some s ∧ e = (s : Nat) := by
  rw [token_slot, if_pos hp] at he
  rcases hb : t[p / m.block_size]? with _ | b
  · rw [hb] at he; cases he
  · rw [hb] at he
    exact ⟨_, h.slot_of hb, (Except.ok.inj he).symm⟩

/-- The decode computation finds the slot of the last position of a context, whatever the row
of the block tables is padded with. -/
theorem decode_slot.spec {m : CacheManager} {id : String} {t : List Nat} {p : Nat}
    (h : Holds m id t) (hp : p / m.block_size < t.length) (pad : List Nat) :
    ∃ s, slot_of m id p = some s ∧ decode_slot m.block_size (t ++ pad) (p + 1) = .ok (s : Nat) := by
  obtain ⟨b, hb⟩ : ∃ b, t[p / m.block_size]? = some b := ⟨_, List.getElem?_eq_getElem hp⟩
  refine ⟨_, h.slot_of hb, ?_⟩
  have hlast : ((p + 1 : Nat) : Int) - 1 = (p : Nat) := by omega
  have hidx : at_index (t ++ pad) ((p : Int) / (m.block_size : Int)) = some b := by
    have hq : (p : Int) / (m.block_size : Int) = ((p / m.block_size : Nat) : Int) := by simp
    have hpos : ¬ ((p / m.block_size : Nat) : Int) < 0 := Int.not_lt.mpr (Int.natCast_nonneg _)
    simp only [at_index, hq, hpos, if_false, Int.natCast_nonneg, if_true, Int.toNat_natCast]
    rw [List.getElem?_append_left hp, hb]
  simp only [decode_slot, hlast, hidx]
  push_cast
  rfl

/-- The two formulas give one slot for one position. -/
theorem formulas_agree {m : CacheManager} {id : String} {t : List Nat} {p s : Nat}
    (ht : m.block_tables.get? id = some t) (hs : slot_of m id p = some s) (n : Nat) (hp : p < n)
    (pad : List Nat) : token_slot m.block_size t n p = .ok (s : Nat) ∧
      decode_slot m.block_size (t ++ pad) (p + 1) = .ok (s : Nat) := by
  obtain ⟨t', b, ht', hb, he⟩ := slot_of_eq_some.mp hs
  rw [ht] at ht'
  cases ht'
  have hlt := (List.getElem?_eq_some_iff.mp hb).1
  obtain ⟨s', hs', hd⟩ := decode_slot.spec ⟨[], by rw [List.append_nil]; exact ht⟩ hlt pad
  rw [hs] at hs'
  cases hs'
  refine ⟨?_, hd⟩
  simp only [token_slot, hp, if_true, hb, he]

/-! ## The batches are runs of calls -/

def prefill_call (req : Request) : Call := .allocate_request req.request_id req.total_length

def decode_call (req : Request) : Call := .append_slot req.request_id

theorem prefill_row.spec {peer : Peer} {req : Request} {m m' : CacheManager} {row : Row}
    (h : prefill_row peer req m = .ok row m') :
    m' = m.after (prefill_call req) ∧
      (m.allocate_request req.request_id req.total_length).1 = true ∧
      row.block_table = m'.get_block_table req.request_id ∧
      row.context_length = req.total_length ∧ row.rows = rows_of peer req.input_ids req := by
  unfold prefill_row at h
  simp only at h
  split at h
  · cases h
  · obtain ⟨success, m₁, halloc, h⟩ := bind_ok h
    have halloc := modifyGet_ok halloc
    simp only [prefill_call, after, halloc]
    split at h
    · cases h
    · rename_i hok
      cases h
      exact ⟨rfl, by simpa using hok, rfl, rfl, rfl⟩

theorem decode_row.spec {peer : Peer} {req : Request} {m m' : CacheManager} {row : Row}
    (h : decode_row peer req m = .ok row m') :
    m.append_slot req.request_id = .ok (true, m') ∧
      row.block_table = m'.get_block_table req.request_id ∧
      row.context_length = m'.get_context_length req.request_id ∧
      row.rows = rows_of peer [req.output_ids.getLastD 0] req := by
  unfold decode_row at h
  simp only at h
  split at h
  · cases h
  · split at h
    · cases h
    · obtain ⟨m₁, m₂, hget, h⟩ := bind_ok h
      cases hget
      rcases ha : m.append_slot req.request_id with e | ⟨_ | _, m₃⟩
      · rw [ha] at h; cases h
      · rw [ha] at h; cases h
      · rw [ha] at h
        cases h
        exact ⟨rfl, rfl, rfl, rfl⟩

/-- A request that was let in has a block table. -/
theorem allocated_holds {m : CacheManager} {id : String} {n : Nat} (hb : m.needs_blocks = true)
    (h : (m.allocate_request id n).1 = true) :
    Holds (m.allocate_request id n).2 id ((m.allocate_request id n).2.get_block_table id) := by
  have hlive : ∃ t, (m.allocate_request id n).2.block_tables.get? id = some t := by
    unfold allocate_request at *
    split
    · rename_i hhas
      exact Dict.has_iff.mp hhas
    · rename_i hhas
      rw [if_neg hhas] at h
      rcases hs : m.take_slot with _ | ⟨slot, slots⟩
      · rw [hs] at h; cases h
      · rw [hs] at h
        rcases ht : m.take_blocks n with _ | bl
        · rw [ht] at h; cases h
        · exact ⟨bl.1, by simp [commit, hb]⟩
  obtain ⟨t, ht⟩ := hlive
  exact ⟨[], by rw [List.append_nil, get_block_table, ht]; rfl⟩

theorem after_needs_blocks (m : CacheManager) (call : Call) :
    (m.after call).needs_blocks = m.needs_blocks := by
  unfold CacheManager.needs_blocks
  rw [after_config]

/-- What the prefill loop leaves: the run of its calls, and a row for each request. -/
theorem gather_prefill {peer : Peer} {reqs : List Request} {m m' : CacheManager} {rows : List Row}
    (hb : m.needs_blocks = true) (h : gather (prefill_row peer) reqs m = .ok rows m') :
    m' = m.run (reqs.map prefill_call) ∧
      List.Forall₂ (fun req row => row.context_length = req.total_length ∧
        Holds m' req.request_id row.block_table) reqs rows := by
  induction reqs generalizing m rows with
  | nil => cases h; exact ⟨rfl, .nil⟩
  | cons req rest ih =>
    obtain ⟨row, m₁, hrow, h⟩ := bind_ok h
    obtain ⟨rows', m₂, hrest, h⟩ := bind_ok h
    cases h
    obtain ⟨rfl, hok, htable, hctx, -⟩ := prefill_row.spec hrow
    obtain ⟨hrun, hrows⟩ := ih (by rw [after_needs_blocks]; exact hb) hrest
    refine ⟨hrun, .cons ⟨hctx, ?_⟩ hrows⟩
    rw [hrun, htable]
    refine (allocated_holds hb hok).grows (run_grows _ _ _ ?_)
    simp [prefill_call]

/-- What the decode loop leaves: the run of its calls, and a row for each request whose last
position has a block. -/
theorem gather_decode {peer : Peer} {reqs : List Request} {m m' : CacheManager} {rows : List Row}
    (hb : m.needs_blocks = true) (hm : BlocksOwned m) (hs : SlotsOwned m)
    (h : gather (decode_row peer) reqs m = .ok rows m') :
    m' = m.run (reqs.map decode_call) ∧
      List.Forall₂ (fun req row => Holds m' req.request_id row.block_table ∧
        ∃ c, row.context_length = c + 1 ∧ c / m.block_size < row.block_table.length) reqs rows := by
  induction reqs generalizing m rows with
  | nil => cases h; exact ⟨rfl, .nil⟩
  | cons req rest ih =>
    obtain ⟨row, m₁, hrow, h⟩ := bind_ok h
    obtain ⟨rows', m₂, hrest, h⟩ := bind_ok h
    cases h
    obtain ⟨happ, htable, hctx, -⟩ := decode_row.spec hrow
    have hafter : m.after (decode_call req) = m₁ := by
      simp only [decode_call, after, happ]
    obtain ⟨hm₁, hs₁⟩ := owned_after m (decode_call req) hb hm hs
    have hb₁ := (after_needs_blocks m (decode_call req)).trans hb
    have hbs : m₁.block_size = m.block_size := by
      rw [← hafter, CacheManager.block_size, after_config, CacheManager.block_size]
    rw [hafter] at hm₁ hs₁ hb₁
    obtain ⟨hrun, hrows⟩ := ih hb₁ hm₁ hs₁ hrest
    have hlive : ∃ t c, m₁.block_tables.get? req.request_id = some t ∧
        m₁.context_lengths.get? req.request_id = some (c + 1) := by
      obtain ⟨t, c, ht, _, ⟨_, _, rfl⟩ | ⟨_, rfl⟩⟩ := append_slot_cases hb happ
      · exact ⟨_, c, Dict.get?_insert_self _ _ _, Dict.get?_insert_self _ _ _⟩
      · exact ⟨t, c, ht, Dict.get?_insert_self _ _ _⟩
    obtain ⟨t, c, ht, hc⟩ := hlive
    have hrow_t : row.block_table = t := by rw [htable, get_block_table, ht]; rfl
    have hrow_c : row.context_length = c + 1 := by rw [hctx, get_context_length, hc]; rfl
    refine ⟨?_, .cons ⟨?_, c, hrow_c, ?_⟩ ?_⟩
    · rw [hrun, ← hafter]; rfl
    · rw [hrun, hrow_t]
      refine Holds.grows ⟨[], by rw [List.append_nil]; exact ht⟩ (run_grows _ _ _ ?_)
      simp [decode_call]
    · obtain ⟨s, hslot, -⟩ := slot_of_lt_context hm₁ hc (Nat.lt_succ_self c)
      obtain ⟨t', b, ht', hblock, -⟩ := slot_of_eq_some.mp hslot
      rw [ht] at ht'
      cases ht'
      rw [hrow_t, ← hbs]
      exact (List.getElem?_eq_some_iff.mp hblock).1
    · rw [← hbs]; exact hrows

end parallax.server.mlx_executor
