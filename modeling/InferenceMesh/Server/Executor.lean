-- The executor of a peer (parallax/server/executor/base_executor.py and
-- mlx_executor.py): what it does with the messages that come in from the HTTP
-- server and from the other peers, and with the requests that take too long.
-- This is the executor of tensor rank 0, which is the one that has the sockets.
import InferenceMesh.Lib.StateExn
import InferenceMesh.Server.Scheduler

open ordered_dict python state_exn
open parallax.server.cache_manager parallax.server.request parallax.server.scheduler

namespace parallax.server.executor

/-! ## Messages -/

/-- What the executor sends to the HTTP server. -/
inductive IpcMessage where
  /-- A token, with the flags of a request that ends with it. -/
  | token (prompt_tokens : Nat) (next_token_id : Int) (rid : String) (eos : Bool) (length : Bool)
  | error (rid : String) (error : String) (error_type : String) (status_code : Nat)
  deriving DecidableEq

def IpcMessage.rid : IpcMessage → String
  | .token _ _ rid _ _ => rid
  | .error rid _ _ _ => rid

/-- The sampling parameters of a request body that are looked at. -/
structure RawSamplingParams where
  temperature : Option Rat := none
  top_k : Option Int := none
  top_p : Option Rat := none
  ignore_eos : Option Bool := none
  deriving DecidableEq

/-- A request body. -/
structure RawRequest where
  rid : String
  /-- The id that is drawn in place of an empty one. -/
  new_id : String
  /-- What the chat template and the tokenizer make of the messages, or their error. -/
  prompt : Except Exn (List Int)
  max_tokens : Option Int := none
  lora_path : Option String := none
  sampling_params : Option RawSamplingParams := none
  routing_table : Option (List String) := none

/-- What comes in from the HTTP server. -/
inductive HttpMessage where
  | abort (rid : String)
  | request (raw_request : RawRequest)

def HttpMessage.rid : HttpMessage → String
  | .abort rid => rid
  | .request raw_request => raw_request.rid

/-! ## The executor -/

/-- An executor. Its cache manager is the one of its scheduler. -/
structure Executor where
  is_first_peer : Bool
  is_last_peer : Bool
  enable_prefix_cache : Bool
  max_sequence_length : Option Nat
  scheduler : Scheduler
  /-- Requests of which the other peers are still to be told. -/
  finished_batch : List Request
  /-- The tokens and errors sent to the HTTP server. -/
  sent_to_ipc : List IpcMessage
  /-- The abort messages sent to the other peers. -/
  sent_aborts : List (List Request)

abbrev ExecutorM : Type → Type := EStateM Exn Executor

namespace Executor

/-- `cache_manager.has_request` -/
def has_request (e : Executor) (rid : String) : Bool :=
  e.scheduler.cache_manager.any (fun m => m.has_request rid)

/-- `cache_manager.release_request` -/
def release_request (e : Executor) (rid : String) : Executor :=
  { e with scheduler := { e.scheduler with
      cache_manager := e.scheduler.cache_manager.map (fun m => m.release_request rid) } }

/-- `finished_batch.append` -/
def append_finished (e : Executor) (req : Request) : Executor :=
  { e with finished_batch := e.finished_batch ++ [req] }

/-- The next peers are told of the request, unless there are none. -/
def pass_on (e : Executor) (req : Request) : Executor :=
  if e.is_last_peer then e else e.append_finished req

def send_to_ipc (e : Executor) (message : IpcMessage) : Executor :=
  { e with sent_to_ipc := e.sent_to_ipc ++ [message] }

end Executor

/-- A call on the scheduler. -/
def on_scheduler (call : Scheduler → Except Exn Scheduler) : ExecutorM PUnit := do
  let e ← get
  match call e.scheduler with
  | .ok s => set { e with scheduler := s }
  | .error err => throw err

/-! ## Requests from the HTTP server -/

/-- The sampling parameters of a request body over the defaults. -/
def raw_sampling_params (raw : Option RawSamplingParams) : SamplingParams :=
  match raw with
  | none => {}
  | some p =>
    let d : SamplingParams := {}
    { d with
      temperature := p.temperature.getD d.temperature
      top_k := p.top_k.getD d.top_k
      top_p := p.top_p.getD d.top_p
      ignore_eos := p.ignore_eos.getD d.ignore_eos }

/-- The constructor of `InitialRequest`, for a prompt that is tokenized. -/
def initial_request (request_id : String) (input_ids : List Int) (sampling_params : SamplingParams)
    (max_new_tokens : Int) (max_total_length : Nat) (lora_path : Option String)
    (routing_table : List String) : Except Exn Request :=
  if input_ids.isEmpty then .error (.ValueError "prompt or input_ids cannot be empty.")
  else if max_new_tokens < 1 then .error (.ValueError "max_new_tokens must be at least 1.")
  else .ok
    { request_id, input_ids, sampling_params, lora_path, routing_table
      prompt_len := input_ids.length
      kind := .initial max_new_tokens.toNat max_total_length }

def handle_raw_request (max_sequence_length : Option Nat) (raw_request : RawRequest) :
    Except Exn Request := do
  let prompt ← raw_request.prompt
  let max_req_len := max_sequence_length.getD 2048
  let prompt := if prompt.length ≥ max_req_len then prompt.take (max 5 (max_req_len - 10))
    else prompt
  let input_token_num := prompt.length
  let max_new_tokens : Int :=
    match raw_request.max_tokens with
    | none => (max_req_len - input_token_num : Nat)
    | some n => if (input_token_num : Int) + n ≥ max_req_len then (max_req_len - input_token_num : Nat)
      else n
  initial_request (if raw_request.rid = "" then raw_request.new_id else raw_request.rid) prompt
    (raw_sampling_params raw_request.sampling_params) max_new_tokens
    (prompt.length + max_new_tokens).toNat raw_request.lora_path
    (raw_request.routing_table.getD [])

/-- `error.__class__.__name__` -/
def error_type : Exn → String
  | .ValueError _ => "ValueError"
  | .KeyError _ => "KeyError"
  | .IndexError _ => "IndexError"
  | .TypeError _ => "TypeError"
  | .RuntimeError _ => "RuntimeError"
  | .AssertionError _ => "AssertionError"
  | .AttributeError _ => "AttributeError"
  | .ZeroDivisionError _ => "ZeroDivisionError"

/-- `str(error)` -/
def error_text : Exn → String
  | .ValueError message => message
  | .KeyError key => s!"'{key}'"
  | .IndexError message => message
  | .TypeError message => message
  | .RuntimeError message => message
  | .AssertionError message => message
  | .AttributeError message => message
  | .ZeroDivisionError message => message

/-- BAD_REQUEST for a `ValueError`, and INTERNAL_SERVER_ERROR for the others. -/
def status_code : Exn → Nat
  | .ValueError _ => 400
  | _ => 500

/-- Best-effort notification to the HTTP server. -/
def notify_http_request_error (e : Executor) (rid : String) (error : Exn) : Executor :=
  e.send_to_ipc (.error rid (error_text error) (error_type error) (status_code error))

/-- One turn of the loop of `recv_requests_from_http`, with the requests received so far. -/
def recv_from_http (message : HttpMessage) (received : List Request × Executor) :
    List Request × Executor :=
  match message, received with
  | .abort rid, (recv_reqs, e) =>
    match e.scheduler.cancel_request rid with
    | .ok s => (recv_reqs, { e with scheduler := s })
    | .error error => (recv_reqs, notify_http_request_error e rid error)
  | .request raw_request, (recv_reqs, e) =>
    match handle_raw_request e.max_sequence_length raw_request with
    | .ok req => (recv_reqs ++ [req], e)
    | .error error => (recv_reqs, notify_http_request_error e raw_request.rid error)

/-- Receives requests from the http frontend: all messages that wait in the socket. -/
def recv_requests_from_http (messages : List HttpMessage) (e : Executor) :
    List Request × Executor :=
  messages.foldl (fun received message => recv_from_http message received) ([], e)

/-! ## Input handling -/

/-- The running request with the token that came back, and the route that came with it. -/
def with_token (original_req : Request) (next_token_id : Int) (routing_table : List String) :
    Request :=
  let committed := original_req.commit_new_token next_token_id
  { committed with
    routing_table := if routing_table.length > 0 then routing_table else committed.routing_table }

/-- What the HTTP server is told of a token. -/
def token_message (req original_req : Request) (next_token_id : Int) : IpcMessage :=
  .token req.input_ids.length next_token_id req.request_id
    (original_req.status = .FINISHED_EOS) (original_req.status = .FINISHED_MAX_LENGTH)

/-- A token comes back for a running request of the first peer. -/
def commit_token (now : Nat) (req original_req : Request) (next_token_id : Int) :
    ExecutorM PUnit := do
  let original_req := with_token original_req next_token_id req.routing_table
  -- The running request is the object that was changed.
  modify (fun e => { e with scheduler := { e.scheduler with
    running_requests := e.scheduler.running_requests.insert req.request_id original_req } })
  let e ← get
  match e.scheduler.check_and_update_request_status original_req with
  | .error err => throw err
  | .ok (true, original_req, s) => do
    set { e with scheduler := s }
    modify (fun e => e.release_request original_req.request_id)
    modify (fun e => e.pass_on req)
    modify (fun e => e.send_to_ipc (token_message req original_req next_token_id))
  | .ok (false, original_req, s) => do
    set { e with scheduler := s }
    on_scheduler (fun s => s.enque_request now original_req)
    modify (fun e => e.send_to_ipc (token_message req original_req next_token_id))

/-- A packet from the last peer. One for a request that is gone is skipped. -/
def handle_token (now : Nat) (req : Request) (next_token_id : Option Int) : ExecutorM PUnit := do
  let e ← get
  match e.scheduler.get_running_request req.request_id with
  | none => pure ⟨⟩
  | some original_req =>
    if e.has_request req.request_id then
      match next_token_id with
      | none => throw (.RuntimeError
          s!"IntermediateRequest {req.request_id} arrived without next_token_id")
      | some token => commit_token now req original_req token
    else pure ⟨⟩

/-- The first peer gets a request from a client, or a packet from the last peer. -/
def handle_first (now : Nat) (req : Request) : ExecutorM PUnit :=
  match req.kind with
  | .initial _ _ => on_scheduler (fun s => s.enque_request now req)
  | .intermediate _ _ next_token_id => handle_token now req next_token_id

/-- A packet that finishes its request. -/
def finish_packet (req : Request) : ExecutorM PUnit := do
  let e ← get
  if e.enable_prefix_cache then
    throw (.AttributeError "'CacheManager' object has no attribute 'gather_kv_cache'")
  else do
    modify (fun e => e.release_request req.request_id)
    on_scheduler (fun s => s.evict_request req.request_id)
    modify (fun e => e.pass_on req)

/-- The other peers get packets from the previous peer. A finished one has no hidden states. -/
def handle_next (now : Nat) (req : Request) : ExecutorM PUnit :=
  match req.kind with
  | .initial _ _ => throw (.TypeError ("Non-first peers must receive IntermediateRequests, got " ++
      "<class 'parallax.server.request.InitialRequest'>."))
  | .intermediate _ hidden_states _ =>
    if req.is_finished || hidden_states.isNone then finish_packet req
    else on_scheduler (fun s => s.enque_request now req)

/-- Updates the states and the status of requests in the scheduler and the cache manager. -/
def handle_input_requests (now : Nat) (requests : List Request) : ExecutorM PUnit := do
  let e ← get
  if e.is_first_peer then requests.forM (handle_first now) else requests.forM (handle_next now)

/-- Tells the other peers about the requests that are finished. -/
def send_finished_batch (e : Executor) : Executor :=
  if e.finished_batch.length > 0 && e.is_first_peer then
    { e with sent_aborts := e.sent_aborts ++ [e.finished_batch], finished_batch := [] }
  else e

/-! ## Timeouts -/

/-- Releases what a request holds and evicts it. Best effort, never raises. -/
def release_and_evict_request (rid : String) (e : Executor) : Executor :=
  let e := e.release_request rid
  match e.scheduler.evict_request rid with
  | .ok s => { e with scheduler := s }
  | .error _ => e

/-- `req.timeout_s`, an attribute that no class of requests has. -/
def timeout_s (req : Request) : Except Exn Nat :=
  match req.kind with
  | .initial _ _ =>
    .error (.AttributeError "'InitialRequest' object has no attribute 'timeout_s'")
  | .intermediate _ _ _ =>
    .error (.AttributeError "'IntermediateRequest' object has no attribute 'timeout_s'")

/-- One turn of the loop over the requests that timed out. The warning comes first. -/
def abort_timed_out (req : Request) : ExecutorM PUnit := do
  match timeout_s req with
  | .error err => throw err
  | .ok _ =>
    modify (release_and_evict_request req.request_id)
    modify (fun e => if e.is_first_peer then e.pass_on req else e)

/-- The block of the run loop that checks for timeouts, with its handler. -/
def check_timeouts (now : Nat) : ExecutorM PUnit :=
  tryCatch (do
    let e ← get
    let (timed_out_reqs, s) := e.scheduler.get_timed_out_requests now
    set { e with scheduler := s }
    timed_out_reqs.forM abort_timed_out) (fun _ => pure ⟨⟩)

end parallax.server.executor
