-- The sparse attention of DeepSeek-V3.2 (parallax/models/deepseek_v32.py): an
-- indexer scores the positions of a context, and the attention goes to the
-- best of them. Prefill selects by a mask, decode by the indices in the kernel.
import InferenceMesh.Kernel.Indexer
import InferenceMesh.Kernel.Selection
import InferenceMesh.Models.Mlx
import InferenceMesh.Models.MlxArrays

open python online_softmax parallax.metal.paged_attention parallax.metal.indexer mlx

namespace parallax.models.deepseek_v32

variable {K : Type} [Field K] [LinearOrder K]

/-! ## The layer -/

/-- The indexer. Its queries have more than one head and more than one dimension: `squeeze` would
take a single one away. `head_scale` is the power -1/2 of the number of heads. -/
structure Indexer (K : Type) [Field K] [LinearOrder K] where
  n_heads : Nat
  head_dim : Nat
  index_topk : Nat
  head_scale : K
  softmax_scale : K
  several_heads : 2 ≤ n_heads
  several_dims : 2 ≤ head_dim
  head_scale_pos : 0 < head_scale
  softmax_scale_pos : 0 < softmax_scale

structure Attention (K : Type) [Field K] [LinearOrder K] where
  num_heads : Nat
  q_head_dim : Nat
  v_head_dim : Nat
  scale : K
  indexer : Indexer K

/-- The arguments of a call, with the projections of its rows: by row, head, token and dimension,
and turned to their positions. The indexer has one key for each token, and a weight for each of
its heads. `beyond` is the memory after the key of a row. -/
structure Call (K : Type) where
  batch : Nat
  target_len : Nat
  queries : Nat → Nat → Nat → Nat → K
  keys : Nat → Nat → Nat → Nat → K
  values : Nat → Nat → Nat → Nat → K
  indexer_q : Nat → Nat → Nat → Nat → K
  indexer_k : Nat → Nat → Nat → K
  weights : Nat → Nat → Nat → K
  mask : Option (NDArray K)
  block_size : Nat
  caches : Caches K
  indexer_cache : Nat → K
  block_tables : List (List Nat)
  context_lengths : List Nat
  slot_mapping : Option (List Int)
  order : Order
  beyond : Nat → Nat → K
  unwritten : Nat → K

/-- The positions that a call selects for its tokens: rows of indices for the kernel, or a mask. -/
inductive Selection (K : Type) where
  | rows (top_k_indices : List (List Int))
  | mask (mask : NDArray K)

/-- What a call leaves and returns. The output is given by row, head, token and dimension. -/
structure Result (K : Type) where
  caches : Caches K
  indexer_cache : Nat → K
  selection : Selection K
  output : Nat → Nat → Nat → Nat → K

namespace Indexer

variable (ix : Indexer K)

/-- The key of each token has one head. -/
def new_keys (x : Call K) : Keys K where
  num_tokens := x.batch * x.target_len
  num_heads := 1
  head_dim := ix.head_dim
  key := fun n =>
    x.indexer_k (n / ix.head_dim / x.target_len) (n / ix.head_dim % x.target_len) (n % ix.head_dim)

/-- The heads of a score, each cut at zero and weighted, are summed up. -/
def weigh (weights : Nat → K) (products : Nat → K) : K :=
  ∑ h ∈ Finset.range ix.n_heads,
    max (products h) 0 * (weights h * ix.head_scale * ix.softmax_scale)

/-- The scores of a decode row. The product is given the key of the row's own token. -/
def decode_score (x : Call K) (b j : Nat) : K :=
  let context_len := x.context_lengths[b]?.getD 0
  let a : Product K :=
    { num_heads := ix.n_heads
      head_dim := ix.head_dim
      block_size := x.block_size
      q := fun n => x.indexer_q b (n / ix.head_dim) 0 (n % ix.head_dim)
      key_cache := fun cell => if cell < ix.head_dim then x.indexer_k b 0 cell else x.beyond b cell
      block_table := x.block_tables[b]?.getD []
      context_len }
  ix.weigh (x.weights b 0) (fun h => q_dot_k a x.order x.unwritten (h * context_len + j))

/-- The indices of a decode row: -1 for a context that is short enough to attend to all of it. -/
def decode_row (lib : ArrayLibrary K) (x : Call K) (b : Nat) : List Int :=
  let context_len := x.context_lengths[b]?.getD 0
  let current_pos : Int := context_len - 1
  if current_pos < ix.index_topk then List.replicate ix.index_topk (-1)
  else
    let score : NDArray (WithBot K) := ⟨[context_len], fun idx => ix.decode_score x b (idx.headD 0)⟩
    (((lib.argpartition score (-ix.index_topk)).last_entries ix.index_topk).map Int.ofNat).entries

/-- The indices of a decode batch. Rows of different lengths make no array. -/
def decode_indices (lib : ArrayLibrary K) (x : Call K) : Except Exn (List (List Int)) :=
  let topk_list := (List.range x.batch).map (ix.decode_row lib x)
  if topk_list.all (fun row => row.length = (topk_list.headD []).length) then .ok topk_list
  else .error (.ValueError "Initialization encountered non-uniform length.")

/-- The score of a pair of tokens of a prefill row. -/
def prefill_score (x : Call K) (b i j : Nat) : K :=
  ix.weigh (x.weights b i) (fun h =>
    ∑ d ∈ Finset.range ix.head_dim, x.indexer_q b h i d * x.indexer_k b j d)

/-- The indices of a prefill batch. -/
def prefill_indices (lib : ArrayLibrary K) (x : Call K) : NDArray Int :=
  if x.target_len < ix.index_topk then ⟨[x.batch, ix.index_topk], fun _ => -1⟩
  else
    let scores : NDArray (WithBot K) := ⟨[x.batch, x.target_len, x.target_len], fun idx =>
      ix.prefill_score x (idx.getD 0 0) (idx.getD 1 0) (idx.getD 2 0)⟩
    let scores :=
      match x.mask with
      | some mask => lib.where_ mask scores ⊥
      | none => scores
    ((lib.argpartition scores (-ix.index_topk)).last_entries ix.index_topk).map Int.ofNat

end Indexer

namespace Attention

variable (attn : Attention K)

def shape (block_size : Nat) : Shape :=
  ⟨attn.num_heads, attn.q_head_dim, attn.v_head_dim, block_size⟩

def tokens (x : Call K) : Tokens K where
  num_tokens := x.batch * x.target_len
  key := flat_rows attn.num_heads attn.q_head_dim x.target_len x.keys
  value := flat_rows attn.num_heads attn.v_head_dim x.target_len x.values

/-- The mask of a prefill batch with the selected positions. A mask of truth values keeps the
positions that are true. -/
def sparse_mask (x : Call K) (selected : NDArray Bool) : NDArray K where
  shape := [x.batch, 1, x.target_len, x.target_len]
  get := fun idx =>
    let sparse : K := if selected.get [idx.getD 0 0, idx.getD 2 0, idx.getD 3 0] then 1 else 0
    match x.mask with
    | some mask => mask.get idx + (1 - sparse) * -((10 ^ 9 : Nat) : K)
    | none => (1 - sparse) * -((10 ^ 9 : Nat) : K)

def attention_input (x : Call K) (mask : NDArray K) (b : Nat) : AttentionInput K where
  num_heads := attn.num_heads
  num_kv_heads := attn.num_heads
  head_dim := attn.q_head_dim
  target_len := x.target_len
  queries := x.queries b
  keys := x.keys b
  values := x.values b
  scale := attn.scale
  mask := fun i j => mask.get [b, 0, i, j]
  sinks := none

/-- One call, up to the output projection. -/
def forward (lib : Library K) (arrays : ArrayLibrary K) (e : Exp K) (x : Call K) :
    Except Exn (Result K) := do
  let caches ← reshape_and_cache (attn.shape x.block_size) x.order (attn.tokens x) x.caches
    x.block_tables x.context_lengths x.slot_mapping
  let indexer_cache ← store_indexer_cache (attn.indexer.new_keys x) x.block_size x.order
    x.indexer_cache x.block_tables x.context_lengths x.slot_mapping
  if x.target_len = 1 then do
    let topk_indices ← attn.indexer.decode_indices arrays x
    return {
      caches
      indexer_cache
      selection := .rows topk_indices
      output := fun b head _ i =>
        paged_attention_call e (attn.shape x.block_size) x.order x.batch attn.num_heads
          (flat_rows attn.num_heads attn.q_head_dim 1 x.queries) caches x.block_tables
          x.context_lengths attn.scale { top_k_indices := some topk_indices } x.unwritten
          (b * attn.num_heads * attn.v_head_dim + head * attn.v_head_dim + i) }
  else do
    let topk_indices := attn.indexer.prefill_indices arrays x
    let zeros : NDArray Bool := ⟨[x.batch, x.target_len, x.target_len], fun _ => false⟩
    let selected ← arrays.put_along_axis zeros topk_indices true
    return {
      caches
      indexer_cache
      selection := .mask (sparse_mask x selected)
      output := fun b =>
        lib.scaled_dot_product_attention (attn.attention_input x (sparse_mask x selected) b) }

end Attention

/-! ## The positions of a token -/

/-- The positions that token `t` of row `b` attends to. -/
def Result.attended (r : Result K) (x : Call K) (b t : Nat) : List Nat :=
  match r.selection with
  | .rows top_k_indices =>
    let index_topk := (top_k_indices.headD []).length
    deepseek_v32.attended index_topk
      (fun k => top_k_indices.flatten[b * index_topk + k]?.getD 0) (x.context_lengths[b]?.getD 0)
  | .mask mask => (List.range x.target_len).filter (fun p => mask.get [b, 0, t, p] = 0)

end parallax.models.deepseek_v32
