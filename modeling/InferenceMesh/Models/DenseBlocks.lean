-- The dense models (parallax/models/llama.py, qwen2.py, qwen3.py, qwen3_moe.py,
-- glm4_moe.py and minimax.py): an attention over the paged cache and the block
-- around it. They differ in the norms of the queries and the keys. What works on
-- one token at a time is a function that the model is given.
import InferenceMesh.Kernel.Selection
import InferenceMesh.Models.Mlx

open python online_softmax parallax.metal.paged_attention mlx

namespace parallax.models.dense

variable {X K : Type} [Field K] [LinearOrder K]

/-! ## The attentions -/

/-- The projections of an attention, token by token. A projected token is a vector of all heads. -/
structure Projections (X K : Type) where
  n_heads : Nat
  n_kv_heads : Nat
  head_dim : Nat
  scale : K
  q_proj : X → Nat → K
  k_proj : X → Nat → K
  v_proj : X → Nat → K
  o_proj : List K → X

/-- What the call of an attention looks at: the new queries, keys and values of a token, by head and
dimension. -/
structure Attention (X K : Type) where
  n_heads : Nat
  n_kv_heads : Nat
  head_dim : Nat
  scale : K
  queries_new : X → Nat → Nat → K
  keys_new : X → Nat → Nat → K
  values_new : X → Nat → Nat → K
  o_proj : List K → X

namespace Projections

variable (w : Projections X K)

/-- The part of a projected token that belongs to a head. -/
def reshape (v : Nat → K) (head i : Nat) : K := v (head * w.head_dim + i)

/-- The attention with the given queries and keys. -/
def attention (queries_new keys_new : X → Nat → Nat → K) : Attention X K where
  n_heads := w.n_heads
  n_kv_heads := w.n_kv_heads
  head_dim := w.head_dim
  scale := w.scale
  queries_new := queries_new
  keys_new := keys_new
  values_new := fun x => w.reshape (w.v_proj x)
  o_proj := w.o_proj

/-- `ParallaxLlamaAttention` -/
def llama_attention : Attention X K :=
  w.attention (fun x => w.reshape (w.q_proj x)) (fun x => w.reshape (w.k_proj x))

/-- `ParallaxQwen2Attention` -/
def qwen2_attention : Attention X K := w.llama_attention

variable (q_norm k_norm : (Nat → K) → Nat → K)

/-- `ParallaxQwen3Attention`: each head is normed. -/
def qwen3_attention : Attention X K :=
  w.attention (fun x head => q_norm (w.reshape (w.q_proj x) head))
    (fun x head => k_norm (w.reshape (w.k_proj x) head))

/-- `ParallaxQwen3MoeAttention` -/
def qwen3_moe_attention : Attention X K := w.qwen3_attention q_norm k_norm

/-- `ParallaxGLM4MoeAttention` -/
def glm4_moe_attention (use_qk_norm : Bool) : Attention X K :=
  if use_qk_norm then w.qwen3_attention q_norm k_norm else w.llama_attention

/-- `ParallaxMiniMaxAttention`: all heads are normed as one vector. -/
def minimax_attention (use_qk_norm : Bool) : Attention X K :=
  if use_qk_norm then
    w.attention (fun x => w.reshape (q_norm (w.q_proj x))) (fun x => w.reshape (k_norm (w.k_proj x)))
  else w.llama_attention

end Projections

/-! ## One call -/

/-- The arguments of a call, with the tokens of the batch by row and place. The orders are those of
the threads of the launches. -/
structure Call (X K : Type) where
  batch : Nat
  target_len : Nat
  x : Nat → Nat → X
  mask : Option (Nat → Nat → Nat → K)
  block_size : Nat
  caches : Caches K
  block_tables : List (List Nat)
  context_lengths : List Nat
  slot_mapping : Option (List Int)
  store_order : Order
  attend_order : Order
  unwritten : Nat → K

/-- The position of the first token of a row. -/
def Call.current_pos (c : Call X K) (b : Nat) : Nat :=
  if c.target_len = 1 then c.context_lengths[b]?.getD 0 - 1 else 0

namespace Attention

variable (attn : Attention X K) (lib : Library K) (c : Call X K)

def shape (block_size : Nat) : Shape := ⟨attn.n_kv_heads, attn.head_dim, attn.head_dim, block_size⟩

def queries_rotated (b head : Nat) : Nat → Nat → K :=
  lib.rope (c.current_pos b) (fun t => attn.queries_new (c.x b t) head)

def keys_rotated (b head : Nat) : Nat → Nat → K :=
  lib.rope (c.current_pos b) (fun t => attn.keys_new (c.x b t) head)

def values (b head t : Nat) : Nat → K := attn.values_new (c.x b t) head

/-- The new keys and values, as the cache takes them. -/
def tokens : Tokens K where
  num_tokens := c.batch * c.target_len
  key := flat_rows attn.n_kv_heads attn.head_dim c.target_len (attn.keys_rotated lib c)
  value := flat_rows attn.n_kv_heads attn.head_dim c.target_len (attn.values c)

/-- The arguments of the fused attention for one row. -/
def attention_input (b : Nat) : AttentionInput K where
  num_heads := attn.n_heads
  num_kv_heads := attn.n_kv_heads
  head_dim := attn.head_dim
  target_len := c.target_len
  queries := attn.queries_rotated lib c b
  keys := attn.keys_rotated lib c b
  values := attn.values c b
  scale := attn.scale
  mask := (c.mask.getD (fun _ _ _ => 0)) b
  sinks := none

/-- The outputs of all heads as one vector. -/
def flatten (output : Nat → Nat → K) : List K :=
  (List.range attn.n_heads).flatMap (fun head => (List.range attn.head_dim).map (output head))

/-- One call: the new keys and values go into the cache, then the attention is computed, by the
paged kernel when each row is one token, and by the fused attention otherwise. -/
def call (e : Exp K) : Except Exn (Caches K × (Nat → Nat → X)) := do
  let caches ← reshape_and_cache (attn.shape c.block_size) c.store_order (attn.tokens lib c)
    c.caches c.block_tables c.context_lengths c.slot_mapping
  if c.target_len = 1 then
    return (caches, fun b _ => attn.o_proj (attn.flatten (fun head i =>
      paged_attention_call e (attn.shape c.block_size) c.attend_order c.batch attn.n_heads
        (flat_rows attn.n_heads attn.head_dim 1 (attn.queries_rotated lib c))
        caches c.block_tables c.context_lengths attn.scale {} c.unwritten
        (b * attn.n_heads * attn.head_dim + head * attn.head_dim + i))))
  else
    return (caches, fun b t => attn.o_proj (attn.flatten (fun head i =>
      lib.scaled_dot_product_attention (attn.attention_input lib c b) head t i)))

end Attention

/-! ## The block -/

/-- A transformer block. Its feed-forward part is dense, or a mixture of experts. -/
structure Block (X K : Type) where
  self_attn : Attention X K
  input_layernorm : X → X
  post_attention_layernorm : X → X
  mlp : X → X

variable [Add X]

/-- What the block makes of a token and of what its attention gives for it. -/
def Block.residual (block : Block X K) (x r : X) : X :=
  x + r + block.mlp (block.post_attention_layernorm (x + r))

def Block.forward (block : Block X K) (lib : Library K) (e : Exp K) (c : Call X K) :
    Except Exn (Caches K × (Nat → Nat → X)) := do
  let (caches, r) ← block.self_attn.call lib
    { c with x := fun b t => block.input_layernorm (c.x b t) } e
  return (caches, fun b t => block.residual (c.x b t) (r b t))

end parallax.models.dense
