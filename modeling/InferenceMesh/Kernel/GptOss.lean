-- The attention kernel of GPT-OSS
-- (parallax/metal/paged_attention/paged_attention_gpt_oss.metal): a window over
-- the last positions of the context, and a sink in the normaliser.
import InferenceMesh.Kernel.PagedAttention
import Mathlib.Algebra.Order.Field.Basic

open scatter_memory lanes online_softmax

namespace parallax.metal.paged_attention.gpt_oss

set_option linter.unusedSectionVars false
set_option linter.dupNamespace false

variable {K : Type} [Field K] [LinearOrder K]

/-! ## The kernel -/

/-- The bound below which a sink counts as masked out, roughly the least float. -/
def least_sink : K := -((340282 * 10 ^ 33 : Nat) : K)

/-- The statistics before the first block: the sink, with the sum 1 and no value. -/
def sink_start (sink_score : WithBot K) : Lane K :=
  if sink_score > (least_sink : K) then ⟨sink_score, 1, fun _ => 0⟩ else .start

/-- The whole block is out of the window. -/
def block_out (window_size : Int) (context_len : Nat) (block_end_pos : Nat) : Bool :=
  window_size > 0 && (block_end_pos : Int) ≤ (context_len : Int) - 1 - window_size

/-- The token is out of the window. -/
def token_out (window_size : Int) (context_len : Nat) (token_pos : Nat) : Bool :=
  window_size > 0 && (token_pos : Int) < (context_len : Int) - 1 - window_size

/-- One block of the context: its tokens in the window, one after the other. -/
def window_block (window_size : Int) (e : Exp K) (a : Launch K) (inp : Inputs K)
    (batch_idx head_idx lane : Nat) (s : Lane K) (b : Nat) : Lane K :=
  let context_len := inp.context_lengths batch_idx
  let block_num := inp.block_tables (batch_idx * a.max_blocks + b)
  let block_start_pos := b * a.shape.block_size
  if block_out window_size context_len (block_start_pos + a.shape.block_size) then s
  else
    let k_base := block_base a a.shape.k_head_dim block_num head_idx
    let v_base := block_base a a.shape.v_head_dim block_num head_idx
    (List.range (tokens_in_block a context_len b)).foldl
      (fun s t =>
        if token_out window_size context_len (block_start_pos + t) then s
        else s.token e a inp lane v_base t (token_score a inp batch_idx head_idx k_base t)) s

/-- All blocks of the context. -/
def window_blocks (sinks : Nat → WithBot K) (window_size : Int) (e : Exp K) (a : Launch K)
    (inp : Inputs K) (batch_idx head_idx lane : Nat) : Lane K :=
  (List.range (num_context_blocks a (inp.context_lengths batch_idx))).foldl
    (window_block window_size e a inp batch_idx head_idx lane) (sink_start (sinks head_idx))

/-- The output array after a launch, in any order of the threads. -/
def paged_attention_gpt_oss_kernel (sinks : Nat → WithBot K) (window_size : Int) (e : Exp K)
    (a : Launch K) (order : Order) (inp : Inputs K) (output : Nat → K) : Nat → K :=
  scatter ((order.arrange (grid (a.num_heads * 32) a.batch_size)).flatMap
    (lane_stores a (window_blocks sinks window_size e a inp))) output

/-! ## What the kernel computes -/

/-- The sink that the kernel takes in. -/
def kernel_sink (sink_score : WithBot K) : WithBot K :=
  if sink_score > (least_sink : K) then sink_score else ⊥

theorem sink_start_channel (sink_score : WithBot K) (j : Nat) :
    (sink_start sink_score).channel j = Running.sink (kernel_sink sink_score) := by
  unfold sink_start kernel_sink
  split
  · rename_i hsink
    cases sink_score with
    | bot => simp at hsink
    | coe s => rfl
  · rfl

/-- The positions of the context that are in the window. -/
def window_positions (window_size : Int) (context_len : Nat) : List Nat :=
  (List.range context_len).filter (fun p => !token_out window_size context_len p)

theorem mem_window_positions {window_size : Int} {context_len p : Nat} :
    p ∈ window_positions window_size context_len ↔
      p < context_len ∧ token_out window_size context_len p = false := by
  simp [window_positions]

/-- The last position of the context is always in the window. -/
theorem window_positions_ne_nil {window_size : Int} {context_len : Nat} (hc : 0 < context_len) :
    window_positions window_size context_len ≠ [] := by
  apply List.ne_nil_of_mem (a := context_len - 1)
  refine mem_window_positions.mpr ⟨by omega, ?_⟩
  simp only [token_out, Bool.and_eq_false_iff, decide_eq_false_iff_not, not_lt]
  omega

theorem tokens_in_block_le (a : Launch K) (c b : Nat) (hb : 0 < a.shape.block_size) :
    tokens_in_block a c b ≤ a.shape.block_size := by
  have hmod := Nat.mod_lt c hb
  unfold tokens_in_block
  split
  · split
    · exact Nat.le_refl _
    · omega
  · exact Nat.le_refl _

/-- Leaving out a block is leaving out each of its tokens. -/
theorem window_blocks_eq (sinks : Nat → WithBot K) (window_size : Int) (e : Exp K) (a : Launch K)
    (inp : Inputs K) (batch head lane : Nat) (hb : 0 < a.shape.block_size) :
    window_blocks sinks window_size e a inp batch head lane =
      Lane.kept_blocks (fun p => !token_out window_size (inp.context_lengths batch) p) e a inp
        batch head lane (sink_start (sinks head)) := by
  apply List.foldl_ext
  intro s b _
  simp only [window_block]
  split
  · rename_i hout
    refine (List.foldl_fixed (List.range
      (tokens_in_block a (inp.context_lengths batch) b))).symm.trans ?_
    apply List.foldl_ext
    intro s t ht
    have htb := lt_of_lt_of_le (List.mem_range.mp ht)
      (tokens_in_block_le a (inp.context_lengths batch) b hb)
    have htoken : token_out window_size (inp.context_lengths batch)
        (b * a.shape.block_size + t) = true := by
      simp only [block_out, token_out, Bool.and_eq_true, decide_eq_true_eq] at hout ⊢
      omega
    simp [htoken]
  · apply List.foldl_ext
    intro s t _
    by_cases htoken : token_out window_size (inp.context_lengths batch)
        (b * a.shape.block_size + t) = true
    · simp [htoken]
    · simp only [htoken, Bool.false_eq_true, if_false, Bool.not_false, if_true]

/-- Each element of the output is the average of the values over the window, with the sink in the
normaliser. -/
theorem paged_attention_gpt_oss_kernel.spec {sinks : Nat → WithBot K} {window_size : Int}
    {e : Exp K} (a : Launch K) (order : Order) (inp : Inputs K) (output : Nat → K)
    {batch head i : Nat} (hb : 0 < a.shape.block_size) (hk : a.shape.k_head_dim ≤ 256)
    (hv : a.shape.v_head_dim ≤ 256) (hbatch : batch < a.batch_size) (hh : head < a.num_heads)
    (hi : i < a.shape.v_head_dim) (hc : 0 < inp.context_lengths batch) :
    paged_attention_gpt_oss_kernel sinks window_size e a order inp output
        (output_idx a batch head i) =
      attend e (kernel_sink (sinks head)) (window_positions window_size (inp.context_lengths batch))
        (score_at a inp batch head) (value_at a inp batch head i) := by
  rw [← run_eq_attend e _ _ _ (window_positions_ne_nil hc)]
  apply lane_stores.spec _ order output hv hbatch hh hi
  intro lane hl hlane
  rw [window_blocks_eq _ _ _ _ _ _ _ _ hb, Lane.kept_blocks.spec _ _ head hl hb hk hv hlane hc,
    sink_start_channel]
  rfl

end parallax.metal.paged_attention.gpt_oss
