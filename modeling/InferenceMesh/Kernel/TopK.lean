-- The attention kernel of DeepSeek-V3.2
-- (parallax/metal/paged_attention/paged_attention_deepseek_v32.metal): the
-- attention goes over the positions that the indexer chose.
import InferenceMesh.Kernel.PagedAttention

open scatter_memory lanes online_softmax

namespace parallax.metal.paged_attention.deepseek_v32

set_option linter.unusedSectionVars false
set_option linter.dupNamespace false

variable {K : Type} [Field K] [LinearOrder K]

/-! ## The kernel -/

/-- One chosen token: its index leads to its block and its offset in the block. -/
def chosen_token (top_k_indices : Nat → Int) (index_topk : Nat) (e : Exp K) (a : Launch K)
    (inp : Inputs K) (batch_idx head_idx lane : Nat) (s : Lane K) (k : Nat) : Lane K :=
  let token_idx := (top_k_indices (batch_idx * index_topk + k)).toNat
  let block_idx_in_table := token_idx / a.shape.block_size
  let block_offset := token_idx % a.shape.block_size
  let block_num := inp.block_tables (batch_idx * a.max_blocks + block_idx_in_table)
  let k_base := block_base a a.shape.k_head_dim block_num head_idx
  let v_base := block_base a a.shape.v_head_dim block_num head_idx
  s.token e a inp lane v_base block_offset
    (token_score a inp batch_idx head_idx k_base block_offset)

/-- The loops of a lane. A first index of -1 asks for the attention over the whole context. -/
def chosen_tokens (top_k_indices : Nat → Int) (index_topk : Nat) (e : Exp K) (a : Launch K)
    (inp : Inputs K) (batch_idx head_idx lane : Nat) : Lane K :=
  let first_topk_idx := top_k_indices (batch_idx * index_topk)
  if first_topk_idx = -1 then Lane.blocks e a inp batch_idx head_idx lane
  else
    (List.range index_topk).foldl
      (chosen_token top_k_indices index_topk e a inp batch_idx head_idx lane) .start

/-- The output array after a launch, in any order of the threads. -/
def paged_attention_deepseek_v32_kernel (top_k_indices : Nat → Int) (index_topk : Nat) (e : Exp K)
    (a : Launch K) (order : Order) (inp : Inputs K) (output : Nat → K) : Nat → K :=
  scatter ((order.arrange (grid (a.num_heads * 32) a.batch_size)).flatMap
    (lane_stores a (chosen_tokens top_k_indices index_topk e a inp))) output

/-! ## What the kernel computes -/

/-- The positions that the kernel attends to, for one row of the indices. -/
def attended (index_topk : Nat) (row : Nat → Int) (context_len : Nat) : List Nat :=
  if row 0 = -1 then List.range context_len
  else (List.range index_topk).map (fun k => (row k).toNat)

theorem chosen_tokens.spec {top_k_indices : Nat → Int} {index_topk : Nat} {e : Exp K}
    {a : Launch K} {inp : Inputs K} {batch lane i : Nat} (head : Nat) (hl : lane < 32)
    (hb : 0 < a.shape.block_size) (hk : a.shape.k_head_dim ≤ 256) (hv : a.shape.v_head_dim ≤ 256)
    (hi : i ∈ strided 32 lane a.shape.v_head_dim) (hc : 0 < inp.context_lengths batch) :
    (chosen_tokens top_k_indices index_topk e a inp batch head lane).channel (i / 32) =
      Running.start.run e (scored a inp batch head i (attended index_topk
        (fun k => top_k_indices (batch * index_topk + k)) (inp.context_lengths batch))) := by
  unfold chosen_tokens attended
  simp only [Nat.add_zero]
  split
  · exact Lane.blocks.spec head hl hb hk hv hi hc
  · have hstart : (Running.start : Running K) = Lane.start.channel (i / 32) := rfl
    rw [scored, List.map_map, Running.run, List.foldl_map, hstart]
    symm
    apply List.foldl_hom (fun s : Lane K => s.channel (i / 32))
    intro s k
    symm
    refine (Lane.token_channel hl hv hi _ _ _ s).trans ?_
    congr 1
    exact taken_eq batch head i _ hb hk

/-- Each element of the output is the softmax average of the values over the positions that the
row of indices stands for. -/
theorem paged_attention_deepseek_v32_kernel.spec {top_k_indices : Nat → Int} {index_topk : Nat}
    {e : Exp K} (a : Launch K) (order : Order) (inp : Inputs K) (output : Nat → K)
    {batch head i : Nat} (hb : 0 < a.shape.block_size) (hk : a.shape.k_head_dim ≤ 256)
    (hv : a.shape.v_head_dim ≤ 256) (hbatch : batch < a.batch_size) (hh : head < a.num_heads)
    (hi : i < a.shape.v_head_dim) (hc : 0 < inp.context_lengths batch) :
    let positions := attended index_topk (fun k => top_k_indices (batch * index_topk + k))
      (inp.context_lengths batch)
    positions ≠ [] →
      paged_attention_deepseek_v32_kernel top_k_indices index_topk e a order inp output
          (output_idx a batch head i) =
        attend e ⊥ positions (score_at a inp batch head) (value_at a inp batch head i) := by
  intro positions hne
  rw [← run_eq_attend e _ _ _ hne]
  apply lane_stores.spec _ order output hv hbatch hh hi
  intro lane hl hlane
  exact chosen_tokens.spec head hl hb hk hv hlane hc

end parallax.metal.paged_attention.deepseek_v32
