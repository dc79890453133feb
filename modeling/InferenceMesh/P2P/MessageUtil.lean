-- The messages between the peers (parallax/p2p/message_util.py and
-- p2p/proto/forward.proto): packets as protobuf messages and back. A scalar
-- field of a proto3 message has no presence: it reads as its default when it
-- was never set.
import InferenceMesh.Lib.PyExn
import InferenceMesh.Server.Request

open python
open parallax.server.request

namespace parallax.p2p.message_util

/-! ## The messages -/

inductive ForwardMode where
  | EXTEND
  | DECODE
  | MIXED
  deriving DecidableEq

def ForwardMode.number : ForwardMode → Nat
  | .EXTEND => 0
  | .DECODE => 1
  | .MIXED => 2

/-- `message SamplingParams` -/
structure SamplingParamsProto where
  max_new_tokens : Int := 0
  min_new_tokens : Int := 0
  temperature : Rat := 0
  top_p : Rat := 0
  min_p : Rat := 0
  top_k : Int := 0
  stop_token_ids : List Int := []
  ignore_eos : Bool := false
  stop_strs : List String := []
  repetition_penalty : Rat := 0
  presence_penalty : Rat := 0
  frequency_penalty : Rat := 0
  json_schema : String := ""

/-- `message Req` -/
structure Req where
  rid : String := ""
  output_length : Int := 0
  routing_table : List String := []
  input_ids : List Int := []
  sampling_params : SamplingParamsProto := {}
  next_token_id : Int := 0
  hidden_states : List UInt8 := []
  lora_path : String := ""

/-- `message ForwardRequest` -/
structure ForwardRequest where
  forward_mode : ForwardMode := .EXTEND
  reqs : List Req := []

/-- `message AbortRequest` -/
structure AbortRequest where
  reqs : List Req := []

/-! ## The libraries -/

/-- What the protobuf and tensor libraries do: a `float` field keeps the nearest float32, and
tensors have a serialization. -/
structure Wire where
  float32 : Rat → Rat
  save : Tensor → List UInt8
  load : List UInt8 → Tensor

/-- A float32 is kept as it is, 1 is one, and the serialization is exact. -/
structure Wire.Lawful (w : Wire) : Prop where
  float32_float32 : ∀ x, w.float32 (w.float32 x) = w.float32 x
  float32_one : w.float32 1 = 1
  load_save : ∀ t, w.load (w.save t) = t
  save_ne : ∀ t, w.save t ≠ []

def InInt32 (x : Int) : Prop := -2 ^ 31 ≤ x ∧ x < 2 ^ 31

instance (x : Int) : Decidable (InInt32 x) :=
  inferInstanceAs (Decidable (-2 ^ 31 ≤ x ∧ x < 2 ^ 31))

/-- An assignment to an `int32` field. -/
def int32 (x : Int) : Except Exn Int :=
  if InInt32 x then .ok x else .error (.ValueError s!"Value out of range: {x}")

def tensor_size (t : Tensor) : Nat := (t.map List.length).sum

def tensor_to_bytes (w : Wire) (device : String) (t : Tensor) : Except Exn (List UInt8) :=
  if device = "cuda" then .ok (w.save t)
  else if tensor_size t > 0 then .ok (w.save t)
  else .error (.AssertionError "Tensor must have size > 0")

def bytes_to_tensor (w : Wire) (tensor : List UInt8) : Tensor := w.load tensor

/-! ## Sampling parameters -/

/-- The tokens of a set, one after the other. -/
def token_list (ids : Finset Int) : List Int := ids.sort (· ≤ ·)

/-- `extend` goes through a string character by character. -/
def stop_items : StopStrs → List String
  | .one stop_str => stop_str.toList.map String.singleton
  | .many stop_strs => stop_strs

def sampling_params_to_proto (w : Wire) (params : SamplingParams) :
    Except Exn SamplingParamsProto := do
  let max_new_tokens ← int32 params.max_new_tokens
  let min_new_tokens ← int32 params.min_new_tokens
  let top_k ← int32 params.top_k
  let stop_token_ids ← ((params.stop_token_ids.map token_list).getD []).mapM int32
  return {
    max_new_tokens, min_new_tokens, top_k, stop_token_ids
    temperature := w.float32 params.temperature
    top_p := w.float32 params.top_p
    min_p := w.float32 params.min_p
    stop_strs := (params.stop_strs.map stop_items).getD []
    ignore_eos := params.ignore_eos
    repetition_penalty := w.float32 params.repetition_penalty
    presence_penalty := w.float32 params.presence_penalty
    frequency_penalty := w.float32 params.frequency_penalty
    json_schema := params.json_schema.getD "" }

def proto_to_sampling_params (proto : SamplingParamsProto) : SamplingParams :=
  SamplingParams.create
    { max_new_tokens := proto.max_new_tokens
      min_new_tokens := proto.min_new_tokens
      temperature := proto.temperature
      top_p := proto.top_p
      min_p := proto.min_p
      top_k := proto.top_k
      stop_strs := some (.many proto.stop_strs)
      stop_token_ids := some proto.stop_token_ids.toFinset
      ignore_eos := proto.ignore_eos
      repetition_penalty := proto.repetition_penalty
      presence_penalty := proto.presence_penalty
      frequency_penalty := proto.frequency_penalty
      json_schema := some proto.json_schema }

/-! ## Requests -/

/-- `str(status)` -/
def status_text : RequestStatus → String
  | .PREFILLING => "RequestStatus.PREFILLING"
  | .DECODING => "RequestStatus.DECODING"
  | .FINISHED_EOS => "RequestStatus.FINISHED_EOS"
  | .FINISHED_MAX_LENGTH => "RequestStatus.FINISHED_MAX_LENGTH"
  | .ERROR => "RequestStatus.ERROR"
  | .CANCELLED => "RequestStatus.CANCELLED"

/-- `hidden_states` is not set when there are none. -/
def hidden_bytes (w : Wire) (device : String) (r : Request) : Except Exn (List UInt8) :=
  match r.hidden_states with
  | none => .ok []
  | some t => tensor_to_bytes w device t

/-- One request as a message. -/
def request_to_req (w : Wire) (device : String) (r : Request) : Except Exn Req := do
  let output_length ← int32 ((r.total_length : Int) - r.input_ids.length)
  let input_ids ← r.input_ids.mapM int32
  let sampling_params ← sampling_params_to_proto w r.sampling_params
  let hidden_states ← hidden_bytes w device r
  let next_token_id ← int32 (r.next_token_id.getD 0)
  return {
    rid := r.request_id
    routing_table := r.routing_table
    lora_path := r.lora_path.getD ""
    output_length, input_ids, sampling_params, hidden_states, next_token_id }

def forward_mode_of (status : RequestStatus) : Except Exn ForwardMode :=
  match status with
  | .PREFILLING => .ok .EXTEND
  | .DECODING => .ok .DECODE
  | status => .error (.ValueError s!"Invalid status: {status_text status}")

/-- A list of packets as a message. -/
def request_to_proto (w : Wire) (device : String) : List Request → Except Exn ForwardRequest
  | [] => .error (.ValueError "No requests to convert")
  | first :: rest =>
    if (first :: rest).all (fun r => r.status = first.status) then do
      let forward_mode ← forward_mode_of first.status
      let reqs ← (first :: rest).mapM (request_to_req w device)
      return { forward_mode, reqs }
    else .error (.ValueError "All requests must have the same status")

/-- The constructor of `IntermediateRequest`. An empty id is replaced by a new one. -/
def intermediate_request (new_id : String) (request_id : String) (current_position : Nat)
    (status : RequestStatus) (input_ids : List Int) (hidden_states : Option Tensor)
    (next_token_id : Option Int) (routing_table : List String) (sampling_params : SamplingParams)
    (lora_path : Option String) : Except Exn Request :=
  let r : Request :=
    { request_id := if request_id = "" then new_id else request_id
      status, input_ids, routing_table, sampling_params, lora_path
      kind := .intermediate current_position hidden_states next_token_id }
  if !r.is_finished && hidden_states = none then
    .error (.ValueError s!"hidden_states cannot be None for unfinished request {request_id}.")
  else .ok r

/-- The status that a message says: no hidden states mean that the request is finished. -/
def status_of (forward_mode : ForwardMode) (hidden_states : Option Tensor) :
    Except Exn RequestStatus :=
  match hidden_states, forward_mode with
  | none, _ => .ok .FINISHED_EOS
  | some _, .EXTEND => .ok .PREFILLING
  | some _, .DECODE => .ok .DECODING
  | some _, .MIXED => .error (.ValueError s!"Invalid forward mode: {ForwardMode.MIXED.number}")

/-- One message as a request. The position is a natural number, as in every packet that a peer
sends. -/
def req_to_request (w : Wire) (new_id : String) (forward_mode : ForwardMode) (proto_req : Req) :
    Except Exn Request := do
  let current_position := (proto_req.input_ids.length : Int) + proto_req.output_length
  let hidden_states := if proto_req.hidden_states = [] then none
    else some (bytes_to_tensor w proto_req.hidden_states)
  let status ← status_of forward_mode hidden_states
  intermediate_request new_id proto_req.rid current_position.toNat status proto_req.input_ids
    hidden_states (some proto_req.next_token_id) proto_req.routing_table
    (proto_to_sampling_params proto_req.sampling_params)
    (if proto_req.lora_path ≠ "" then some proto_req.lora_path else none)

/-- A message as a list of packets. -/
def proto_to_request (w : Wire) (new_id : String) (proto_request : ForwardRequest) :
    Except Exn (List Request) :=
  proto_request.reqs.mapM (req_to_request w new_id proto_request.forward_mode)

/-! ## Aborts -/

/-- Aborted or finished requests as a message. -/
def abort_request_to_proto (reqs : List Request) : AbortRequest :=
  { reqs := reqs.map (fun r => { rid := r.request_id, routing_table := r.routing_table }) }

/-- Only the id and the routing table are of use. -/
def proto_to_abort_request (new_id : String) (proto_request : AbortRequest) :
    Except Exn (List Request) :=
  proto_request.reqs.mapM (fun proto_req =>
    intermediate_request new_id proto_req.rid 0 .FINISHED_EOS [] none none proto_req.routing_table
      {} none)

end parallax.p2p.message_util
