-- The writer of the paged KV cache (parallax/metal/paged_attention/kernel.py,
-- `reshape_and_cache`, and reshape_and_cache.metal). One thread per token and
-- pair of head and dimension stores one key cell and one value cell.
import InferenceMesh.Lib.PyExn
import InferenceMesh.Lib.Scatter

open python scatter_memory

namespace parallax.metal.paged_attention

/-- The constants of the launch. -/
structure Shape where
  num_kv_heads : Nat
  k_head_dim : Nat
  v_head_dim : Nat
  block_size : Nat

/-- The keys and the values of `num_tokens` tokens, each an array of shape
(num_tokens, num_kv_heads, head_dim) in row-major order. -/
structure Tokens (α : Type) where
  num_tokens : Nat
  key : Nat → α
  value : Nat → α

/-- The cache of one layer, each array of shape
(num_blocks, num_kv_heads, block_size, head_dim) in row-major order. -/
structure Caches (α : Type) where
  key_cache : Nat → α
  value_cache : Nat → α

/-- A position in the grid. -/
abbrev Thread : Type := Nat × Nat

/-- All threads of a launch. -/
def grid (nx ny : Nat) : List Thread :=
  (List.range ny).flatMap (fun y => (List.range nx).map (fun x => (x, y)))

theorem mem_grid {nx ny : Nat} {t : Thread} : t ∈ grid nx ny ↔ t.1 < nx ∧ t.2 < ny := by
  obtain ⟨x, y⟩ := t
  simp [grid, and_comm]

/-- The order in which the threads of a launch do their stores: any order of the grid. -/
structure Order where
  arrange : List Thread → List Thread
  perm : ∀ l, (arrange l).Perm l

/-- The threads in the order of the grid. -/
def Order.in_grid : Order := ⟨id, fun _ => .refl _⟩

theorem Order.mem {order : Order} {l : List Thread} {t : Thread} : t ∈ order.arrange l ↔ t ∈ l :=
  (order.perm l).mem_iff

/-! ## The slots -/

/-- The entry of a row at an index. A negative index counts from the end. -/
def at_index (row : List Nat) (index : Int) : Option Nat :=
  let i := if index < 0 then index + row.length else index
  if 0 ≤ i then row[i.toNat]? else none

/-- The slot of the last position of one context, through its row of the block tables. -/
def decode_slot (block_size : Nat) (row : List Nat) (context_length : Nat) : Except Exn Int :=
  let indices : Int := (context_length : Int) - 1
  let block_indices_in_table := indices / (block_size : Int)
  let offsets := indices % (block_size : Int)
  match at_index row block_indices_in_table with
  | some physical_block_number => .ok ((physical_block_number : Int) * block_size + offsets)
  | none => .error (.IndexError "index out of range")

/-- The slots of a decode batch: one token for each context. -/
def decode_slots (block_size : Nat) : List (List Nat) → List Nat → Except Exn (List Int)
  | row :: rows, context_length :: context_lengths => do
    let slot ← decode_slot block_size row context_length
    let slots ← decode_slots block_size rows context_lengths
    return slot :: slots
  | _, _ => .ok []

/-! ## The kernel -/

def max_dim (c : Shape) : Nat := if c.k_head_dim > c.v_head_dim then c.k_head_dim else c.v_head_dim

/-- The address of a cell of a cache with `dim` cells for each token. -/
def dest_idx (c : Shape) (dim block_idx head_idx block_offset dim_idx : Nat) : Nat :=
  let head_stride := c.block_size * dim
  let block_stride := c.num_kv_heads * head_stride
  block_idx * block_stride + head_idx * head_stride + block_offset * dim + dim_idx

/-- The index of an element of the new keys or values. -/
def src_idx (c : Shape) (dim token_idx head_idx dim_idx : Nat) : Nat :=
  token_idx * c.num_kv_heads * dim + head_idx * dim + dim_idx

/-- The slot that a thread writes to, with its head and dimension. `none` is an early return:
the thread is out of range, or its token is padding. -/
def thread_slot (c : Shape) (slot_mapping : List Int) (gid : Thread) : Option (Nat × Nat × Nat) :=
  let kv_head_dim_idx := gid.1
  if kv_head_dim_idx ≥ c.num_kv_heads * max_dim c then none
  else
    let head_idx := kv_head_dim_idx / max_dim c
    let dim_idx := kv_head_dim_idx % max_dim c
    match slot_mapping[gid.2]? with
    | none => none
    | some slot => if slot < 0 then none else some (slot.toNat, head_idx, dim_idx)

/-- The store of one thread into a cache with `dim` cells for each token. -/
def thread_store {α : Type} (c : Shape) (dim : Nat) (source : Nat → α) (slot_mapping : List Int)
    (gid : Thread) : Option (Nat × α) :=
  match thread_slot c slot_mapping gid with
  | none => none
  | some (slot, head_idx, dim_idx) =>
    if dim_idx < dim then
      some (dest_idx c dim (slot / c.block_size) head_idx (slot % c.block_size) dim_idx,
        source (src_idx c dim gid.2 head_idx dim_idx))
    else none

def reshape_and_cache_kernel {α : Type} (c : Shape) (order : Order) (tokens : Tokens α)
    (slot_mapping : List Int) (caches : Caches α) : Caches α :=
  let threads := order.arrange (grid (c.num_kv_heads * max_dim c) tokens.num_tokens)
  { key_cache := scatter
      (threads.filterMap (thread_store c c.k_head_dim tokens.key slot_mapping)) caches.key_cache
    value_cache := scatter
      (threads.filterMap (thread_store c c.v_head_dim tokens.value slot_mapping))
      caches.value_cache }

/-- Writes new keys and values into the cache. Without a slot mapping each request has one
token, and its slot is computed from the block tables. -/
def reshape_and_cache {α : Type} (c : Shape) (order : Order) (tokens : Tokens α)
    (caches : Caches α) (block_tables : List (List Nat)) (context_lengths : List Nat)
    (slot_mapping : Option (List Int)) : Except Exn (Caches α) :=
  match slot_mapping with
  | none =>
    match decode_slots c.block_size block_tables context_lengths with
    | .error e => .error e
    | .ok slots =>
      if slots.length ≠ tokens.num_tokens then .error (.ValueError "shapes cannot be broadcast")
      else .ok (reshape_and_cache_kernel c order tokens slots caches)
  | some slot_mapping =>
    if slot_mapping.length ≠ tokens.num_tokens then
      .error (.ValueError
        s!"Slot mapping length {slot_mapping.length} != tokens {tokens.num_tokens}")
    else .ok (reshape_and_cache_kernel c order tokens slot_mapping caches)

/-! ## What the kernel writes -/

/-- The address of the cell of a slot. -/
def slot_cell (c : Shape) (dim slot head_idx dim_idx : Nat) : Nat :=
  dest_idx c dim (slot / c.block_size) head_idx (slot % c.block_size) dim_idx

/-- Distinct cells have distinct addresses. -/
theorem slot_cell_inj {c : Shape} {dim s s' h h' i i' : Nat} (hb : 0 < c.block_size)
    (hh : h < c.num_kv_heads) (hh' : h' < c.num_kv_heads) (hi : i < dim) (hi' : i' < dim)
    (he : slot_cell c dim s h i = slot_cell c dim s' h' i') : s = s' ∧ h = h' ∧ i = i' := by
  have hcell : ∀ s h i, slot_cell c dim s h i =
      ((s / c.block_size * c.num_kv_heads + h) * c.block_size + s % c.block_size) * dim + i := by
    intro s h i
    simp only [slot_cell, dest_idx, Nat.add_mul, Nat.mul_assoc]
  rw [hcell, hcell] at he
  obtain ⟨h1, rfl⟩ := digits_inj hi hi' he
  obtain ⟨h2, h3⟩ := digits_inj (Nat.mod_lt s hb) (Nat.mod_lt s' hb) h1
  obtain ⟨h4, rfl⟩ := digits_inj hh hh' h2
  refine ⟨?_, rfl, rfl⟩
  rw [← Nat.div_add_mod s c.block_size, ← Nat.div_add_mod s' c.block_size, h3, h4]

theorem lt_max_dim {c : Shape} {dim i : Nat} (hd : dim = c.k_head_dim ∨ dim = c.v_head_dim)
    (hi : i < dim) : i < max_dim c := by
  unfold max_dim
  split <;> omega

/-- The stores into one cache are one cell for each token that is no padding, each head and
each dimension. -/
theorem mem_stores {α : Type} {c : Shape} {dim : Nat} {source : Nat → α} {slots : List Int}
    {n : Nat} {order : Order} {w : Nat × α} (hd : dim = c.k_head_dim ∨ dim = c.v_head_dim)
    (hn : slots.length = n) :
    w ∈ (order.arrange (grid (c.num_kv_heads * max_dim c) n)).filterMap
        (thread_store c dim source slots) ↔
      ∃ (token slot head i : Nat), slots[token]? = some (slot : Int) ∧ head < c.num_kv_heads ∧
        i < dim ∧ w = (slot_cell c dim slot head i, source (src_idx c dim token head i)) := by
  simp only [List.mem_filterMap, Order.mem, mem_grid]
  constructor
  · rintro ⟨⟨x, y⟩, ⟨hx, hy⟩, hw⟩
    simp only [thread_store, thread_slot] at hw
    rw [if_neg (by omega)] at hw
    rcases hs : slots[y]? with _ | slot
    · simp [hs] at hw
    · simp only [hs] at hw
      by_cases hneg : slot < 0
      · simp [hneg] at hw
      · simp only [hneg, if_false] at hw
        split at hw
        · rename_i hdim
          have hpos : 0 < max_dim c := by
            rcases Nat.eq_zero_or_pos (max_dim c) with h0 | h0
            · rw [h0] at hx; omega
            · exact h0
          refine ⟨y, slot.toNat, x / max_dim c, x % max_dim c, ?_, ?_, hdim, ?_⟩
          · rw [Int.toNat_of_nonneg (by omega)]
            exact hs
          · exact (Nat.div_lt_iff_lt_mul hpos).mpr hx
          · exact (Option.some.inj hw).symm
        · cases hw
  · rintro ⟨token, slot, head, i, hs, hh, hi, rfl⟩
    have hmax := lt_max_dim hd hi
    have hy : token < slots.length := (List.getElem?_eq_some_iff.mp hs).1
    have hx : head * max_dim c + i < c.num_kv_heads * max_dim c := by
      calc head * max_dim c + i < (head + 1) * max_dim c := by rw [Nat.succ_mul]; omega
        _ ≤ c.num_kv_heads * max_dim c := Nat.mul_le_mul_right _ hh
    have hdiv : (head * max_dim c + i) / max_dim c = head := by
      rw [Nat.mul_comm, Nat.mul_add_div (by omega), Nat.div_eq_of_lt hmax, Nat.add_zero]
    have hmod : (head * max_dim c + i) % max_dim c = i := by
      rw [Nat.mul_comm, Nat.mul_add_mod, Nat.mod_eq_of_lt hmax]
    refine ⟨(head * max_dim c + i, token), ⟨hx, by omega⟩, ?_⟩
    simp only [thread_store, thread_slot]
    rw [if_neg (by omega), hs]
    simp only [hdiv, hmod, Int.toNat_natCast]
    rw [if_neg (by omega)]
    simp only [hi, if_true]
    rfl

/-- What the kernel leaves in one of the two caches, when no two tokens share a slot: the new
rows at the slots of the mapping, and what was there before at all other slots. -/
theorem kernel.spec {α : Type} {c : Shape} {dim : Nat} {source : Nat → α} {slots : List Int}
    {n : Nat} {order : Order} {cache : Nat → α} (hd : dim = c.k_head_dim ∨ dim = c.v_head_dim)
    (hb : 0 < c.block_size) (hn : slots.length = n)
    (hslots : ∀ (t t' slot : Nat), slots[t]? = some (slot : Int) → slots[t']? = some (slot : Int) →
      t = t') {head i : Nat} (hh : head < c.num_kv_heads) (hi : i < dim) :
    (∀ token slot : Nat, slots[token]? = some (slot : Int) →
      scatter ((order.arrange (grid (c.num_kv_heads * max_dim c) n)).filterMap
        (thread_store c dim source slots)) cache (slot_cell c dim slot head i) =
          source (src_idx c dim token head i)) ∧
    (∀ slot : Nat, (slot : Int) ∉ slots →
      scatter ((order.arrange (grid (c.num_kv_heads * max_dim c) n)).filterMap
        (thread_store c dim source slots)) cache (slot_cell c dim slot head i) =
          cache (slot_cell c dim slot head i)) := by
  refine ⟨?_, ?_⟩
  · intro token slot hs
    apply scatter_of_mem
    · exact (mem_stores hd hn).mpr ⟨token, slot, head, i, hs, hh, hi, rfl⟩
    · intro y hy
      obtain ⟨t, s, h, j, hs', hh', hj, he⟩ := (mem_stores hd hn).mp hy
      obtain ⟨hcell, rfl⟩ := Prod.mk.inj he
      obtain ⟨rfl, rfl, rfl⟩ := slot_cell_inj hb hh hh' hi hj hcell
      rw [hslots t token slot hs' hs]
  · intro slot hnot
    apply scatter_of_not_mem
    intro y hy
    obtain ⟨t, s, h, j, hs', hh', hj, he⟩ := (mem_stores hd hn).mp hy
    obtain ⟨hcell, -⟩ := Prod.mk.inj he
    obtain ⟨rfl, -, -⟩ := slot_cell_inj hb hh hh' hi hj hcell
    exact hnot (List.mem_of_getElem? hs')

end parallax.metal.paged_attention
