-- The batches of the vLLM backend (parallax/vllm/batch_info.py and the parts
-- of vllm_executor.py that ask for them). A batch says for each request how
-- many tokens are computed already and how many are scheduled now.
import InferenceMesh.Server.Scheduler

open ordered_dict
open parallax.server.request parallax.server.scheduler

namespace parallax.vllm.batch_info

universe u v

/-! ## What vLLM provides -/

/-- A request of vLLM. -/
structure VLLMRequest where
  request_id : String
  prompt_token_ids : List Int
  output_token_ids : List Int := []
  num_computed_tokens : Nat := 0
  deriving DecidableEq

/-- The KV cache manager, over its states and its lists of blocks. -/
structure KVCacheManager (κ : Type u) (β : Type v) where
  /-- The blocks of the cached prefix of a prompt, and the number of its tokens. -/
  get_computed_blocks : κ → VLLMRequest → (β × Nat) × κ
  allocate_slots : κ → VLLMRequest → (num_new_tokens num_new_computed_tokens : Nat) →
    (new_computed_blocks : Option β) → Option β × κ
  free : κ → VLLMRequest → κ
  append : β → β → β
  get_block_ids : β → List (List Nat)

/-- The model runner: the output tokens of the requests it caches, and its manager's state. -/
structure ModelRunner (κ : Type u) where
  requests : String → Option (List Int)
  kv : κ

structure NewRequestData where
  req_id : String
  prompt_token_ids : List Int
  block_ids : List (List Nat)
  num_computed_tokens : Nat
  deriving DecidableEq

/-- Parallel lists, with an entry for each request of a decode batch. -/
structure CachedRequestData where
  req_ids : List String := []
  resumed_from_preemption : List Bool := []
  new_token_ids : List (List Int) := []
  new_block_ids : List (List (List Nat)) := []
  num_computed_tokens : List Nat := []
  deriving DecidableEq

structure SchedulerOutput where
  scheduled_new_reqs : List NewRequestData
  scheduled_cached_reqs : CachedRequestData
  num_scheduled_tokens : Dict String Nat
  total_num_scheduled_tokens : Nat

def build_vllm_request (req : Request) (include_outputs : Bool) : VLLMRequest where
  request_id := req.request_id
  prompt_token_ids := req.input_ids
  output_token_ids := if include_outputs then req.output_ids else []

variable {κ : Type u} {β : Type v} (kv_cache_manager : KVCacheManager κ β)

/-! ## Prefill -/

/-- One request of a prefill batch. `none` means that its slots cannot be allocated. -/
def prefill_request (kv : κ) (req : Request) : Option NewRequestData × κ :=
  let vllm_req := build_vllm_request req false
  let computed := kv_cache_manager.get_computed_blocks kv vllm_req
  let computed_blocks := computed.1.1
  let num_computed_tokens := computed.1.2
  let num_new_tokens := req.input_ids.length - num_computed_tokens
  let data (all_blocks : β) : NewRequestData :=
    { req_id := req.request_id
      prompt_token_ids := req.input_ids
      block_ids := kv_cache_manager.get_block_ids all_blocks
      num_computed_tokens }
  if num_new_tokens > 0 then
    let allocated := kv_cache_manager.allocate_slots computed.2 vllm_req num_new_tokens
      num_computed_tokens (if num_computed_tokens > 0 then some computed_blocks else none)
    match allocated.1 with
    | none => (none, allocated.2)
    | some new_blocks =>
      let all_blocks :=
        if num_computed_tokens > 0 then kv_cache_manager.append computed_blocks new_blocks
        else new_blocks
      (some (data all_blocks), allocated.2)
  else (some (data computed_blocks), computed.2)

/-- The loop over the batch, after the requests `created`. When a request finds no slots, the ones
before it are freed. -/
def prefill_from (created : List Request) (new_request_data_list : List NewRequestData)
    (num_scheduled_tokens : Dict String Nat) (total_tokens : Nat) (kv : κ) :
    List Request → Option SchedulerOutput × κ
  | [] =>
    (some {
      scheduled_new_reqs := new_request_data_list
      scheduled_cached_reqs := {}
      num_scheduled_tokens
      total_num_scheduled_tokens := total_tokens }, kv)
  | req :: rest =>
    match prefill_request kv_cache_manager kv req with
    | (none, kv) =>
      (none, created.foldl (fun kv prev_req =>
        kv_cache_manager.free kv (build_vllm_request prev_req false)) kv)
    | (some new_req_data, kv) =>
      let scheduled_tokens := req.input_ids.length
      prefill_from (created ++ [req]) (new_request_data_list ++ [new_req_data])
        (num_scheduled_tokens.insert req.request_id scheduled_tokens)
        (total_tokens + scheduled_tokens) kv rest

def form_vllm_batch_prefill (batched_requests : List Request) (model_runner : ModelRunner κ) :
    Option SchedulerOutput × κ :=
  if batched_requests.isEmpty then (none, model_runner.kv)
  else prefill_from kv_cache_manager [] [] .empty 0 model_runner.kv batched_requests

/-! ## Decode -/

/-- The output tokens of a request: its own, those that the runner has cached, or those of the
scheduler's request. -/
def output_ids_of (model_runner : ModelRunner κ) (scheduler : Option Scheduler) (req : Request) :
    List Int :=
  let output_ids := req.output_ids
  let output_ids :=
    if output_ids.isEmpty then (model_runner.requests req.request_id).getD output_ids
    else output_ids
  if output_ids.isEmpty then
    match scheduler.bind (fun s => s.get_running_request req.request_id) with
    | some running_req => running_req.output_ids
    | none => output_ids
  else output_ids

/-- The tokens of the request that have been processed. -/
def computed_token_count (prompt_ids output_ids : List Int) : Nat :=
  if output_ids.isEmpty then prompt_ids.length
  else prompt_ids.length + output_ids.length - 1

def CachedRequestData.push (d : CachedRequestData) (req_id : String) (new_token_ids : List Int)
    (new_block_ids : List (List Nat)) (num_computed_tokens : Nat) : CachedRequestData where
  req_ids := d.req_ids ++ [req_id]
  resumed_from_preemption := d.resumed_from_preemption ++ [false]
  new_token_ids := d.new_token_ids ++ [new_token_ids]
  new_block_ids := d.new_block_ids ++ [new_block_ids]
  num_computed_tokens := d.num_computed_tokens ++ [num_computed_tokens]

/-- The loop over the batch. -/
def decode_from (model_runner : ModelRunner κ) (scheduler : Option Scheduler)
    (cached_req_data : CachedRequestData) (num_scheduled_tokens : Dict String Nat) (kv : κ) :
    List Request → Option SchedulerOutput × κ
  | [] =>
    (some {
      scheduled_new_reqs := []
      scheduled_cached_reqs := cached_req_data
      num_scheduled_tokens
      total_num_scheduled_tokens := num_scheduled_tokens.values.sum }, kv)
  | req :: rest =>
    let output_ids := output_ids_of model_runner scheduler req
    let new_token_ids := output_ids.getLast?.toList
    let computed := computed_token_count req.input_ids output_ids
    let vllm_req := { build_vllm_request req true with num_computed_tokens := computed }
    match kv_cache_manager.allocate_slots kv vllm_req 1 0 none with
    | (none, kv) => (none, kv)
    | (some new_blocks, kv) =>
      decode_from model_runner scheduler
        (cached_req_data.push req.request_id new_token_ids
          (kv_cache_manager.get_block_ids new_blocks) computed)
        (num_scheduled_tokens.insert req.request_id 1) kv rest

def form_vllm_batch_decode (batched_requests : List Request) (model_runner : ModelRunner κ)
    (scheduler : Option Scheduler) : Option SchedulerOutput × κ :=
  if batched_requests.isEmpty then (none, model_runner.kv)
  else decode_from kv_cache_manager model_runner scheduler {} .empty model_runner.kv
    batched_requests

/-! ## The executor -/

/-- What the executor hands to the model: the batch, and the length of each request in it. -/
structure PreparedInputs where
  scheduler_output : Option SchedulerOutput
  context_lengths : List Nat

def prepare_prefill_batch (batched_requests : List Request) (model_runner : ModelRunner κ) :
    Option PreparedInputs × κ :=
  if batched_requests.isEmpty then (none, model_runner.kv)
  else
    let formed := form_vllm_batch_prefill kv_cache_manager batched_requests model_runner
    (some ⟨formed.1, batched_requests.map Request.total_length⟩, formed.2)

/-- The executor asks for a decode batch without its scheduler. -/
def prepare_decode_batch (batched_requests : List Request) (model_runner : ModelRunner κ) :
    Option PreparedInputs × κ :=
  if batched_requests.isEmpty then (none, model_runner.kv)
  else
    let formed := form_vllm_batch_decode kv_cache_manager batched_requests model_runner none
    (some ⟨formed.1, batched_requests.map Request.total_length⟩, formed.2)

end parallax.vllm.batch_info
