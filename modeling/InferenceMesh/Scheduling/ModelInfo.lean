-- The model architecture as the scheduler sees it (scheduling/model_info.py):
-- sizes in bytes and costs in floating-point operations. Numbers that the
-- source keeps as floats are exact fractions here, and sizes are not negative.
import Mathlib.Algebra.Order.Floor.Ring
import Mathlib.Data.NNRat.Defs
import Mathlib.Data.Rat.Floor

namespace scheduling.model_info

/-- `round`: the nearest integer, and the even one of two. -/
def round (q : Rat) : Int :=
  let low := ⌊q⌋
  let rest := q - low
  if rest < 1 / 2 then low
  else if 1 / 2 < rest then low + 1
  else if low % 2 = 0 then low else low + 1

/-- All decoder layers have the same size. -/
structure ModelInfo where
  model_name : String
  mlx_model_name : String
  head_size : Nat
  hidden_dim : Nat
  intermediate_dim : Nat
  num_attention_heads : Nat
  num_kv_heads : Nat
  vocab_size : Nat
  num_layers : Nat
  ffn_num_projections : Nat := 3
  num_local_experts : Option Nat := none
  num_experts_per_tok : Option Nat := none
  moe_intermediate_dim : Option Nat := none
  tie_embedding : Bool := false
  param_bytes_per_element : ℚ≥0 := 1
  mlx_param_bytes_per_element : ℚ≥0 := 1
  cache_bytes_per_element : Nat := 1
  embedding_bytes_per_element : Nat := 1
  qk_nope_head_dim : Option Nat := none
  qk_rope_head_dim : Option Nat := none
  deriving DecidableEq

namespace ModelInfo

variable (m : ModelInfo)

def head_size_k : Nat :=
  match m.qk_nope_head_dim, m.qk_rope_head_dim with
  | some nope, some rope => nope + rope
  | _, _ => m.head_size

def head_size_v : Nat := m.head_size

def q_dim : Nat := m.num_attention_heads * m.head_size

def v_dim : Nat := m.num_kv_heads * m.head_size_v

def k_dim : Nat := m.num_kv_heads * m.head_size_k

def mlx_bit_factor : Rat := m.mlx_param_bytes_per_element / m.param_bytes_per_element

/-- Memory for the input embeddings, or for the LM head. -/
def embedding_io_bytes : Nat := m.embedding_bytes_per_element * m.vocab_size * m.hidden_dim

def per_token_per_layer_kv_size : Nat := m.cache_bytes_per_element * (m.k_dim + m.v_dim)

def per_layer_kv_cache_size (batch_size source_seq_len : Int) : Int :=
  m.per_token_per_layer_kv_size * batch_size * source_seq_len

def expected_num_activated_experts (batch_size target_seq_len : Int) : Option Int :=
  match m.num_local_experts, m.num_experts_per_tok with
  | some experts, some per_tok =>
    let num_tokens := (batch_size * target_seq_len).toNat
    some ⌊(experts : Rat) * (1 - (1 - (per_tok : Rat) / experts) ^ num_tokens)⌋
  | _, _ => none

/-- The floating-point operations of one decoder layer. -/
def decoder_layer_flops (batch_size target_seq_len source_seq_len : Int) : Int :=
  let qo_flops := 2 * 2 * target_seq_len * m.hidden_dim * m.hidden_dim
  let kv_flops := 2 * target_seq_len * m.hidden_dim * (m.k_dim + m.v_dim)
  let projection_flops := qo_flops + kv_flops
  let score_flops := 2 * m.hidden_dim * target_seq_len * source_seq_len
  let attn_v_flops := 2 * m.hidden_dim * target_seq_len * source_seq_len
  let attention_flops := projection_flops + score_flops + attn_v_flops
  let ffn_flops := 2 * m.ffn_num_projections * target_seq_len * m.hidden_dim * m.intermediate_dim
  let ffn_flops :=
    match m.expected_num_activated_experts batch_size target_seq_len with
    | some expected_experts => ffn_flops * expected_experts
    | none => ffn_flops
  batch_size * (attention_flops + ffn_flops)

/-- The parameters of the attention of one layer, in bytes. -/
def attention_params : Rat :=
  m.param_bytes_per_element * m.hidden_dim * m.q_dim * 2 +
    m.param_bytes_per_element * m.hidden_dim * (m.k_dim + m.v_dim)

/-- The parameters of one expert's network of one layer, in bytes. -/
def ffn_params : Rat :=
  m.param_bytes_per_element * m.ffn_num_projections * m.hidden_dim *
    m.moe_intermediate_dim.getD m.intermediate_dim

/-- The bytes of one decoder layer, for its parameters (`roofline` off) or for one pass over
them with a KV cache (`roofline` on). -/
def decoder_layer_io_bytes (roofline : Bool) (batch_size target_seq_len source_seq_len : Int) :
    Int :=
  if roofline then
    let ffn_params :=
      match m.expected_num_activated_experts batch_size target_seq_len with
      | some expected_experts => m.ffn_params * expected_experts
      | none => m.ffn_params
    round (ffn_params + m.per_layer_kv_cache_size batch_size source_seq_len + m.attention_params)
  else
    let ffn_params :=
      match m.num_local_experts with
      | some experts => m.ffn_params * experts
      | none => m.ffn_params
    round (ffn_params + 0 + m.attention_params)

/-- The bytes of the parameters of one decoder layer. -/
def decoder_layer_bytes : Int := m.decoder_layer_io_bytes false 1 1 256

def lm_head_flops (target_seq_len : Int) : Int := 2 * target_seq_len * m.hidden_dim * m.vocab_size

end ModelInfo

end scheduling.model_info
