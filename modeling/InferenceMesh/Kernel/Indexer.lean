-- The kernels of the indexer (parallax/metal/indexer/kernel.py, store_key.metal
-- and q_dot_k.metal): the keys of the indexer go into a paged cache, and a
-- query is multiplied with the keys of its context.
import InferenceMesh.Kernel.ReshapeAndCache
import Mathlib.Algebra.BigOperators.Group.Finset.Basic
import Mathlib.Algebra.Ring.Basic

open python scatter_memory parallax.metal.paged_attention

namespace parallax.metal.indexer

variable {K : Type}

/-! ## The store -/

/-- The new keys, an array of shape (num_tokens, num_heads, head_dim) in row-major order. -/
structure Keys (K : Type) where
  num_tokens : Nat
  num_heads : Nat
  head_dim : Nat
  key : Nat → K

/-- The store of one thread. A token without a slot is left out. -/
def store_key (keys : Keys K) (block_size : Nat) (slot_mapping : List Int) (gid : Thread) :
    Option (Nat × K) :=
  let dim_idx := gid.1
  let token_idx := gid.2
  if dim_idx ≥ keys.num_heads * keys.head_dim then none
  else
    let head_idx := dim_idx / keys.head_dim
    let d_idx := dim_idx % keys.head_dim
    match slot_mapping[token_idx]? with
    | none => none
    | some slot =>
      if slot < 0 then none
      else
        let block_idx := slot.toNat / block_size
        let block_offset := slot.toNat % block_size
        let src_idx := token_idx * keys.num_heads * keys.head_dim + dim_idx
        let k_block_stride := keys.num_heads * block_size * keys.head_dim
        let k_head_stride := block_size * keys.head_dim
        some (block_idx * k_block_stride + head_idx * k_head_stride +
          block_offset * keys.head_dim + d_idx, keys.key src_idx)

def store_key_kernel (keys : Keys K) (block_size : Nat) (order : Order) (slot_mapping : List Int)
    (key_cache : Nat → K) : Nat → K :=
  scatter ((order.arrange (grid (keys.num_heads * keys.head_dim) keys.num_tokens)).filterMap
    (store_key keys block_size slot_mapping)) key_cache

/-- The keys of a batch go into the cache. Without a slot mapping each request has one token, and
its slot is computed from the block tables. -/
def store_indexer_cache (keys : Keys K) (block_size : Nat) (order : Order) (key_cache : Nat → K)
    (block_tables : List (List Nat)) (context_lengths : List Nat)
    (slot_mapping : Option (List Int)) : Except Exn (Nat → K) :=
  match slot_mapping with
  | none =>
    match decode_slots block_size block_tables context_lengths with
    | .error e => .error e
    | .ok slots => .ok (store_key_kernel keys block_size order slots key_cache)
  | some slot_mapping => .ok (store_key_kernel keys block_size order slot_mapping key_cache)

/-! ## The scores -/

/-- The arguments of the product. `key_cache` is the memory from the start of the array on. -/
structure Product (K : Type) where
  num_heads : Nat
  head_dim : Nat
  block_size : Nat
  q : Nat → K
  key_cache : Nat → K
  block_table : List Nat
  context_len : Nat

namespace Product

variable [CommRing K] (a : Product K)

def num_valid_blocks : Nat := (a.context_len + a.block_size - 1) / a.block_size

/-- The address that a thread reads its key from. -/
def k_base (head_idx b token_in_block : Nat) : Nat :=
  let k_block_stride := a.num_heads * a.block_size * a.head_dim
  let k_head_stride := a.block_size * a.head_dim
  a.block_table[b]?.getD 0 * k_block_stride + head_idx * k_head_stride + token_in_block * a.head_dim

/-- The product of one head of the query with the key of one token. -/
def score (head_idx b token_in_block : Nat) : K :=
  ∑ d ∈ Finset.range a.head_dim,
    a.q (head_idx * a.head_dim + d) * a.key_cache (a.k_base head_idx b token_in_block + d)

/-- The stores of one thread: one token of each block. -/
def thread_scores (gid : Thread) : List (Nat × K) :=
  let token_in_block := gid.1
  let head_idx := gid.2
  if token_in_block ≥ a.block_size ∨ head_idx ≥ a.num_heads then []
  else
    (List.range a.num_valid_blocks).filterMap (fun b =>
      let logical_idx := b * a.block_size + token_in_block
      if logical_idx ≥ a.context_len then none
      else some (head_idx * a.context_len + logical_idx, a.score head_idx b token_in_block))

end Product

/-- The scores of all heads, an array of shape (num_heads, context_len). -/
def q_dot_k [CommRing K] (a : Product K) (order : Order) (output : Nat → K) : Nat → K :=
  scatter ((order.arrange (grid a.block_size a.num_heads)).flatMap a.thread_scores) output

/-! ## What the kernels compute -/

/-- Each score is the product of the query with the cells that the block table leads to. -/
theorem q_dot_k.spec [CommRing K] (a : Product K) (order : Order) (output : Nat → K) {head j : Nat}
    (hb : 0 < a.block_size) (hh : head < a.num_heads) (hj : j < a.context_len) :
    q_dot_k a order output (head * a.context_len + j) =
      a.score head (j / a.block_size) (j % a.block_size) := by
  have hsplit : j / a.block_size * a.block_size + j % a.block_size = j := by
    rw [Nat.mul_comm]
    exact Nat.div_add_mod j a.block_size
  apply scatter_of_mem
  · refine List.mem_flatMap.mpr ⟨(j % a.block_size, head), ?_, ?_⟩
    · exact Order.mem.mpr (mem_grid.mpr ⟨Nat.mod_lt j hb, hh⟩)
    · have hblock : j / a.block_size < a.num_valid_blocks := by
        rw [Product.num_valid_blocks, ← Nat.succ_le_iff, Nat.le_div_iff_mul_le hb, Nat.succ_mul]
        have := Nat.div_mul_le_self j a.block_size
        omega
      have hin : ¬ (j % a.block_size ≥ a.block_size ∨ head ≥ a.num_heads) := by
        have := Nat.mod_lt j hb
        omega
      simp only [Product.thread_scores, if_neg hin]
      refine List.mem_filterMap.mpr ⟨j / a.block_size, List.mem_range.mpr hblock, ?_⟩
      rw [hsplit, if_neg (by omega)]
  · intro y hy
    obtain ⟨⟨t, h⟩, _, hw⟩ := List.mem_flatMap.mp hy
    simp only [Product.thread_scores] at hw
    split at hw
    · cases hw
    · rename_i hin
      obtain ⟨b, _, hw⟩ := List.mem_filterMap.mp hw
      split at hw
      · cases hw
      · rename_i hlt
        obtain ⟨haddr, rfl⟩ := Prod.mk.inj (Option.some.inj hw)
        obtain ⟨rfl, rfl⟩ := digits_inj (by omega) hj haddr
        have ht : t < a.block_size := by omega
        rw [Nat.mul_comm b, Nat.mul_add_div hb, Nat.mul_add_mod, Nat.div_eq_of_lt ht,
          Nat.mod_eq_of_lt ht, Nat.add_zero]

end parallax.metal.indexer
