-- The attention layer of GPT-OSS (parallax/models/gpt_oss.py): one call for a
-- batch, by the paged kernels when each row is one token, and by the fused
-- attention of the library otherwise.
import InferenceMesh.Kernel.Selection
import InferenceMesh.Models.Mlx

open python online_softmax parallax.metal.paged_attention parallax.utils mlx

namespace parallax.models.gpt_oss

variable {K : Type} [Field K] [LinearOrder K]

/-- What a layer is made with. -/
structure Attention (K : Type) where
  num_attention_heads : Nat
  num_key_value_heads : Nat
  head_dim : Nat
  sm_scale : K
  sinks : Nat → WithBot K

inductive LayerType where
  | sliding_attention
  | full_attention
  deriving DecidableEq

structure Block (K : Type) where
  self_attn : Attention K
  sliding_window : Int
  layer_type : LayerType

/-- The arguments of a call, with the projections of its rows: the queries, the keys and the
values by row, head, token and dimension. The orders are those of the threads of the launches. -/
structure Call (K : Type) where
  batch : Nat
  target_len : Nat
  queries_new : Nat → Nat → Nat → Nat → K
  keys_new : Nat → Nat → Nat → Nat → K
  values_new : Nat → Nat → Nat → Nat → K
  mask : Option (Nat → Nat → Nat → K)
  block_size : Nat
  caches : Caches K
  block_tables : List (List Nat)
  context_lengths : List Nat
  slot_mapping : Option (List Int)
  store_order : Order
  attend_order : Order
  unwritten : Nat → K

namespace Call

variable (x : Call K) (lib : Library K)

/-- The position of the first token of a row. -/
def current_pos (b : Nat) : Nat :=
  if x.target_len = 1 then x.context_lengths[b]?.getD 0 - 1 else 0

def queries_rotated (b head : Nat) : Nat → Nat → K :=
  lib.rope (x.current_pos b) (x.queries_new b head)

def keys_rotated (b head : Nat) : Nat → Nat → K := lib.rope (x.current_pos b) (x.keys_new b head)

end Call

/-- The mask of a prefill batch with the window of the layer. -/
def window_mask (lib : Library K) (target_len : Nat) (window_size : Option Int)
    (mask : Nat → Nat → Nat → K) (b i j : Nat) : K :=
  match window_size with
  | none => mask b i j
  | some window_size =>
    let mask_prefill := if lib.create_causal_mask target_len window_size i j then (1 : K) else 0
    mask b i j + (1 - mask_prefill) * -((10 ^ 9 : Nat) : K)

namespace Attention

variable (attn : Attention K)

def shape (block_size : Nat) : Shape :=
  ⟨attn.num_key_value_heads, attn.head_dim, attn.head_dim, block_size⟩

/-- The new keys and values, as the cache takes them. -/
def tokens (lib : Library K) (x : Call K) : Tokens K where
  num_tokens := x.batch * x.target_len
  key := flat_rows attn.num_key_value_heads attn.head_dim x.target_len (x.keys_rotated lib)
  value := flat_rows attn.num_key_value_heads attn.head_dim x.target_len x.values_new

/-- The arguments of the fused attention for one row. -/
def attention_input (lib : Library K) (x : Call K) (mask : Nat → Nat → Nat → K) (b : Nat) :
    AttentionInput K where
  num_heads := attn.num_attention_heads
  num_kv_heads := attn.num_key_value_heads
  head_dim := attn.head_dim
  target_len := x.target_len
  queries := x.queries_rotated lib b
  keys := x.keys_rotated lib b
  values := x.values_new b
  scale := attn.sm_scale
  mask := mask b
  sinks := some attn.sinks

/-- One call: the new keys and values go into the cache, then the attention is computed. The
output is given by row, head, token and dimension, before the output projection. -/
def call (lib : Library K) (e : Exp K) (x : Call K) (window_size : Option Int) :
    Except Exn (Caches K × (Nat → Nat → Nat → Nat → K)) := do
  let caches ← reshape_and_cache (attn.shape x.block_size) x.store_order (attn.tokens lib x)
    x.caches x.block_tables x.context_lengths x.slot_mapping
  if x.target_len = 1 then
    return (caches, fun b head _ i =>
      paged_attention_call e (attn.shape x.block_size) x.attend_order x.batch
        attn.num_attention_heads
        (flat_rows attn.num_attention_heads attn.head_dim 1 (x.queries_rotated lib))
        caches x.block_tables x.context_lengths attn.sm_scale
        { window_size, sinks := some attn.sinks } x.unwritten
        (b * attn.num_attention_heads * attn.head_dim + head * attn.head_dim + i))
  else
    match x.mask with
    | none => throw (.TypeError "unsupported operand for the mask")
    | some mask =>
      return (caches, fun b => lib.scaled_dot_product_attention
        (attn.attention_input lib x (window_mask lib x.target_len window_size mask) b))

end Attention

namespace Block

variable (block : Block K)

def get_window_size : Int := block.sliding_window - 1

/-- The window of the layer. -/
def window_size : Option Int :=
  if block.layer_type = .sliding_attention then some block.get_window_size else none

def forward (lib : Library K) (e : Exp K) (x : Call K) :
    Except Exn (Caches K × (Nat → Nat → Nat → Nat → K)) :=
  block.self_attn.call lib e x block.window_size

end Block

end parallax.models.gpt_oss
