-- The call of the attention kernels (parallax/metal/paged_attention/kernel.py,
-- `paged_attention`): which optional arguments are there decides which kernel runs.
import InferenceMesh.Kernel.GptOss
import InferenceMesh.Kernel.PagedRun
import InferenceMesh.Kernel.TopK

open scatter_memory online_softmax

namespace parallax.metal.paged_attention

set_option linter.dupNamespace false

variable {K : Type} [Field K] [LinearOrder K]

/-- The optional arguments of the call. The chosen positions have one row for each request. -/
structure Options (K : Type) where
  top_k_indices : Option (List (List Int)) := none
  window_size : Option Int := none
  sinks : Option (Nat → WithBot K) := none

/-- The call with all its arguments. The output has shape (batch_size, num_heads, v_head_dim). -/
def paged_attention_call (e : Exp K) (c : Shape) (order : Order) (batch_size num_heads : Nat)
    (queries : Nat → K) (caches : Caches K) (block_tables : List (List Nat))
    (context_lengths : List Nat) (scale : K) (options : Options K) (output : Nat → K) : Nat → K :=
  let max_blocks := (block_tables.headD []).length
  let a : Launch K := ⟨c, batch_size, num_heads, max_blocks, scale⟩
  let inp : Inputs K :=
    ⟨queries, caches, row_major block_tables, fun b => context_lengths[b]?.getD 0⟩
  match options.top_k_indices with
  | some top_k_indices =>
    let index_topk := (top_k_indices.headD []).length
    deepseek_v32.paged_attention_deepseek_v32_kernel
      (fun n => top_k_indices.flatten[n]?.getD 0) index_topk e a order inp output
  | none =>
    match options.window_size, options.sinks with
    | some window_size, some sinks =>
      gpt_oss.paged_attention_gpt_oss_kernel sinks window_size e a order inp output
    | _, _ => paged_attention_kernel e a order inp output

end parallax.metal.paged_attention
