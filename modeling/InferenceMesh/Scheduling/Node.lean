-- The serving state of a worker (scheduling/node.py): its hardware, the range
-- of layers it holds, how many layers its memory can take, and how fast it is.
import InferenceMesh.Lib.Dict
import InferenceMesh.Lib.PyExn
import InferenceMesh.Scheduling.ModelInfo
import Mathlib.Algebra.Order.Monoid.WithTop

open ordered_dict python
open scheduling.model_info

namespace scheduling.node

/-- A latency in milliseconds, with infinity as its top. -/
abbrev Latency : Type := WithTop Rat

structure NodeHardwareInfo where
  node_id : String
  num_gpus : Nat
  tflops_fp16 : ℚ≥0
  gpu_name : String := ""
  memory_gb : ℚ≥0
  memory_bandwidth_gbps : ℚ≥0
  device : String
  deriving DecidableEq

/-- A node. `start_layer` is inclusive and `end_layer` is exclusive. -/
structure Node where
  node_id : String
  hardware : NodeHardwareInfo
  model_info : ModelInfo
  kvcache_mem_ratio : Rat := 3 / 10
  param_mem_ratio : Rat := 1 / 2
  max_concurrent_requests : Option Int := some 16
  max_sequence_length : Option Int := some 4096
  manual_layer_assignment : Bool := false
  start_layer : Option Int := none
  end_layer : Option Int := none
  current_requests : Int := 0
  is_active : Bool := true
  last_heartbeat : Rat := 0
  avg_layer_latency_ms : Option Latency := none
  load_compensator : Rat := 1 / 20
  rtt_to_nodes : Option (List (String × Latency)) := some []
  force_max_concurrent_requests : Bool := false
  deriving DecidableEq

/-! ## The bounds of the KV cache (parallax_utils/utils.py) -/

/-- The tokens that fit in a cache of the given size. -/
def compute_max_tokens_in_cache (num_shard_layers num_key_value_heads head_dim_k head_dim_v
    elem_bytes available_cache_size : Int) : Except Exn Int :=
  let per_token_cache_size :=
    num_shard_layers * num_key_value_heads * (head_dim_k + head_dim_v) * elem_bytes
  if per_token_cache_size = 0 then
    .error (.ZeroDivisionError "integer division or modulo by zero")
  else .ok (max 0 (Int.fdiv available_cache_size per_token_cache_size))

/-- The batch size that was asked for, clamped by what the cache holds. -/
def derive_max_batch_size (requested_max_batch_size max_sequence_len : Option Int)
    (max_tokens_in_cache : Int) : Int :=
  let max_batch_capacity : Option Int :=
    match max_sequence_len with
    | some len =>
      if len ≠ 0 ∧ max_tokens_in_cache ≠ 0 then some (max 1 (Int.fdiv max_tokens_in_cache len))
      else none
    | none => none
  match requested_max_batch_size, max_batch_capacity with
  | none, none => 16
  | none, some capacity => capacity
  | some requested, some capacity => min requested capacity
  | some requested, none => requested

/-- `int`: a fraction without its decimals. -/
def truncate (q : Rat) : Int := if 0 ≤ q then ⌊q⌋ else -⌊-q⌋

def compute_max_batch_size (requested_max_batch_size max_sequence_len : Option Int)
    (kv_cache_memory_fraction : Rat) (num_shard_layers num_key_value_heads elem_bytes : Int)
    (memory_gb : Rat) (head_dim_k head_dim_v : Int) : Except Exn Int := do
  let available_cache_bytes := truncate (memory_gb * 1024 ^ 3 * kv_cache_memory_fraction)
  let max_tokens ← compute_max_tokens_in_cache num_shard_layers num_key_value_heads head_dim_k
    head_dim_v elem_bytes available_cache_bytes
  return derive_max_batch_size requested_max_batch_size max_sequence_len max_tokens

namespace Node

variable (n : Node)

/-! ## Layers and capacity -/

def num_current_layers : Int :=
  match n.start_layer, n.end_layer with
  | some start_layer, some end_layer => end_layer - start_layer
  | _, _ => 0

def has_embedding : Bool := n.start_layer = some 0

def has_lm_head : Bool := n.end_layer = some (n.model_info.num_layers : Int)

/-- Both ends of the range are set. -/
def is_allocated : Bool := n.start_layer.isSome && n.end_layer.isSome

/-- The memory that a share of the node's GPUs amounts to, in bytes. -/
def memory_bytes (ratio : Rat) : Rat :=
  n.hardware.num_gpus * n.hardware.memory_gb * 1024 * 1024 * 1024 * ratio

/-- The bytes that are left for decoder layers. -/
def available_memory_bytes (include_input_embed include_lm_head : Bool) : Int :=
  let available := ⌊n.memory_bytes n.param_mem_ratio⌋
  let available :=
    if include_input_embed then available - n.model_info.embedding_io_bytes else available
  if include_lm_head && !(include_input_embed && n.model_info.tie_embedding) then
    available - n.model_info.embedding_io_bytes
  else available

/-- How many decoder layers the node can store. -/
def get_decoder_layer_capacity (include_input_embed include_lm_head : Bool) : Int :=
  let available_memory_bytes : Rat := n.available_memory_bytes include_input_embed include_lm_head
  if n.hardware.device = "mlx" then
    ⌊available_memory_bytes / (n.model_info.decoder_layer_bytes * n.model_info.mlx_bit_factor)⌋
  else ⌊available_memory_bytes / n.model_info.decoder_layer_bytes⌋

/-- The capacity without either end of the model. -/
def capacity : Int := n.get_decoder_layer_capacity false false

def per_decoder_layer_kv_cache_memory : Option Int :=
  if n.num_current_layers = 0 then none
  else some ⌊n.memory_bytes n.kvcache_mem_ratio / n.num_current_layers⌋

def set_layer_allocation (start_layer end_layer : Int) : Node :=
  { n with start_layer := some start_layer, end_layer := some end_layer }

def clear_layer_allocation : Node := { n with start_layer := none, end_layer := none }

def hosts_layer (layer_id : Int) : Bool :=
  match n.start_layer, n.end_layer with
  | some start_layer, some end_layer => start_layer ≤ layer_id && layer_id < end_layer
  | _, _ => false

/-! ## Load and latency -/

/-- How many requests the node takes at once. The element size of the KV cache is two bytes for
every number that a model gives. -/
def max_requests : Except Exn Int :=
  let requested : Except Exn Int :=
    match n.max_concurrent_requests with
    | some requested => .ok requested
    | none => .error (.TypeError "'>=' not supported between instances of 'int' and 'NoneType'")
  if n.force_max_concurrent_requests then requested
  else if !n.is_allocated then requested
  else do
    let derived_max ← compute_max_batch_size n.max_concurrent_requests n.max_sequence_length
      n.kvcache_mem_ratio n.num_current_layers n.model_info.num_kv_heads 2 n.hardware.memory_gb
      n.model_info.head_size_k n.model_info.head_size_v
    if derived_max ≤ 0 then
      throw (.ValueError
        s!"Node {n.node_id} has invalid max concurrent requests: {derived_max}")
    match n.max_concurrent_requests with
    | none => return derived_max
    | some requested => return min requested derived_max

def is_overloaded : Except Exn Bool := do
  let max_requests ← n.max_requests
  return decide (n.current_requests ≥ max_requests)

/-- The factor by which quantisation speeds up the computation. -/
def quantization_speedup : Rat :=
  let bytes_per_elem : Rat := n.model_info.param_bytes_per_element
  let base := if bytes_per_elem ≤ 0 then 1 else 2 / bytes_per_elem
  let efficiency := if bytes_per_elem < 2 then 4 / 5 else 1
  max (1 / 10) (base * efficiency)

def get_compute_roofline_latency_ms (flops : Rat) : Rat :=
  flops / (n.quantization_speedup * n.hardware.tflops_fp16 * 10 ^ 9)

def get_io_roofline_latency_ms (io_bytes : Rat) : Rat :=
  io_bytes / (n.hardware.memory_bandwidth_gbps * 10 ^ 6)

/-- The estimated latency of one layer, with a share of the two ends of the model. -/
def roofline_layer_latency_ms : Except Exn Rat :=
  match n.max_sequence_length with
  | none => .error (.TypeError "unsupported operand type(s) for *: 'int' and 'NoneType'")
  | some source_seq_len =>
    let decoder_layer_compute_latency := n.get_compute_roofline_latency_ms
      (n.model_info.decoder_layer_flops n.current_requests 1 source_seq_len)
    let model_bytes : Rat :=
      n.model_info.decoder_layer_io_bytes true n.current_requests 1 source_seq_len
    let model_bytes :=
      if n.hardware.device = "mlx" then model_bytes * n.model_info.mlx_bit_factor else model_bytes
    let decoder_layer_io_latency := n.get_io_roofline_latency_ms model_bytes
    let embed_bytes : Rat := if n.has_embedding then n.model_info.embedding_io_bytes else 0
    let head_bytes : Rat := if n.has_lm_head then n.model_info.embedding_io_bytes else 0
    let flops : Rat := if n.has_lm_head then n.model_info.lm_head_flops 1 else 0
    let compute_time_ms := n.get_compute_roofline_latency_ms flops
    let io_time_ms := n.get_io_roofline_latency_ms (embed_bytes + head_bytes)
    if n.num_current_layers = 0 then .error (.ZeroDivisionError "float division by zero")
    else
      .ok ((n.num_current_layers * max decoder_layer_compute_latency decoder_layer_io_latency +
        max compute_time_ms io_time_ms) / n.num_current_layers)

/-- The latency of one layer: infinite on an overloaded node, otherwise measured or estimated. -/
def layer_latency_ms : Except Exn Latency := do
  if ← n.is_overloaded then return ⊤
  match n.avg_layer_latency_ms with
  | none =>
    let estimated ← n.roofline_layer_latency_ms
    return (estimated : Rat)
  | some measured =>
    let max_requests ← n.max_requests
    if max_requests = 0 then throw (.ZeroDivisionError "float division by zero")
    return measured + ((n.load_compensator * (n.current_requests / max_requests) : Rat) : Latency)

/-- The time from a node to another. A node that was not measured is infinitely far. -/
def get_rtt_to (other : Node) : Latency :=
  if n = other then (0 : Rat)
  else
    match n.rtt_to_nodes with
    | none => ⊤
    | some rtts =>
      match rtts.find? (fun x => x.1 = other.node_id) with
      | none => ⊤
      | some (_, rtt) => rtt

def add_request : Node := { n with current_requests := n.current_requests + 1 }

def remove_request : Node := { n with current_requests := n.current_requests - 1 }

end Node

end scheduling.node
