-- Requests (parallax/server/request.py). The first peer holds the whole
-- request. The other peers hold the part that travels: an id, a position in
-- the sequence and the hidden states of the step.
import Mathlib

namespace parallax.server.request

/-- Stop strings: one, or a list of them. -/
inductive StopStrs where
  | one (stop_str : String)
  | many (stop_strs : List String)
  deriving DecidableEq

/-- The sampling parameters of each request, with the defaults of the source. -/
structure SamplingParams where
  max_new_tokens : Int := 128
  min_new_tokens : Int := 0
  temperature : Rat := 1
  top_p : Rat := 1
  min_p : Rat := 0
  top_k : Int := -1
  stop_token_ids : Option (Finset Int) := none
  ignore_eos : Bool := false
  stop_strs : Option StopStrs := none
  repetition_penalty : Rat := 1
  presence_penalty : Rat := 0
  frequency_penalty : Rat := 0
  json_schema : Option String := none
  deriving DecidableEq

/-- The constructor: an empty list of stop tokens is none, and a temperature of zero means greedy
sampling. -/
def SamplingParams.create (p : SamplingParams) : SamplingParams :=
  { p with
    stop_token_ids := if p.stop_token_ids = some ∅ then none else p.stop_token_ids
    temperature := if p.temperature = 0 then 1 else p.temperature
    top_k := if p.temperature = 0 then 1 else p.top_k }

inductive RequestStatus where
  | PREFILLING
  | DECODING
  | FINISHED_EOS
  | FINISHED_MAX_LENGTH
  | ERROR
  | CANCELLED
  deriving DecidableEq, Repr

/-- A tensor of hidden states, row by row. -/
abbrev Tensor : Type := List (List Rat)

/-- What the two subclasses add to a request. -/
inductive Kind where
  /-- `InitialRequest`: the full state, managed by the first peer. -/
  | initial (max_new_tokens : Nat) (max_total_length : Nat)
  /-- `IntermediateRequest`: the packet that goes from peer to peer. -/
  | intermediate (current_position : Nat) (hidden_states : Option Tensor)
      (next_token_id : Option Int)
  deriving DecidableEq

structure Request where
  request_id : String
  status : RequestStatus := .PREFILLING
  prompt_len : Nat := 0
  input_ids : List Int := []
  output_ids : List Int := []
  routing_table : List String := []
  sampling_params : SamplingParams := {}
  abort : Bool := false
  ready_for_next_step : Bool := false
  last_updated_time : Option Nat := none
  lora_path : Option String := none
  kind : Kind
  deriving DecidableEq

namespace Request

def is_finished (r : Request) : Bool :=
  r.status ∈ [.FINISHED_EOS, .FINISHED_MAX_LENGTH, .ERROR, .CANCELLED]

def is_prefill (r : Request) : Bool := r.status = .PREFILLING

def is_decoding (r : Request) : Bool := r.status = .DECODING

/-- `isinstance(request, InitialRequest)` -/
def is_initial (r : Request) : Bool :=
  match r.kind with
  | .initial _ _ => true
  | .intermediate _ _ _ => false

def output_length (r : Request) : Nat := r.output_ids.length

/-- Prompt and output on the first peer, and the position that came with the packet on the
others. -/
def total_length (r : Request) : Nat :=
  match r.kind with
  | .initial _ _ => r.prompt_len + r.output_length
  | .intermediate current_position _ _ => current_position

def hidden_states (r : Request) : Option Tensor :=
  match r.kind with
  | .initial _ _ => none
  | .intermediate _ hidden_states _ => hidden_states

def next_token_id (r : Request) : Option Int :=
  match r.kind with
  | .initial _ _ => none
  | .intermediate _ _ next_token_id => next_token_id

/-- A finished request keeps its status. -/
def update_status (r : Request) (new_status : RequestStatus) : Request :=
  if r.is_finished then r else { r with status := new_status }

/-- Called by the first peer when a new token is received from the last peer. -/
def commit_new_token (r : Request) (token_id : Int) : Request :=
  if r.is_finished then r
  else
    { r with
      output_ids := r.output_ids ++ [token_id]
      status := if r.status = .PREFILLING then .DECODING else r.status }

/-- The packet that the first peer sends for a step of a request. -/
def from_initial_request (initial_request : Request) (hidden_states : Option Tensor)
    (lora_path : Option String) : Request :=
  { request_id := initial_request.request_id
    status := initial_request.status
    input_ids := initial_request.input_ids
    sampling_params := initial_request.sampling_params
    routing_table := initial_request.routing_table
    lora_path := lora_path
    kind := .intermediate initial_request.total_length hidden_states
      initial_request.output_ids.getLast? }

/-- The packet that a peer in the middle passes on, with its own hidden states. -/
def from_intermediate_request (old_request : Request) (new_hidden_states : Option Tensor)
    (lora_path : Option String) : Request :=
  { request_id := old_request.request_id
    status := old_request.status
    input_ids := old_request.input_ids
    sampling_params := old_request.sampling_params
    routing_table := old_request.routing_table
    lora_path := lora_path
    kind := .intermediate old_request.total_length new_hidden_states old_request.next_token_id }

end Request

end parallax.server.request
