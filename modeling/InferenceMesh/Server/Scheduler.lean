-- The continuous batching scheduler of a peer (parallax/server/scheduler.py):
-- a wait queue, the running requests and the cache of the peer. Requests are
-- values here, so what the source does to a request object is done to the
-- entry of the running requests.
import InferenceMesh.Cache.CacheManager
import InferenceMesh.Server.Request

open ordered_dict python
open parallax.server.cache_manager parallax.server.request

namespace parallax.server.scheduler

/-- The end-of-sequence token of a model, or a list of them. -/
inductive EosTokenId where
  | one (id : Int)
  | many (ids : List Int)
  deriving DecidableEq

namespace EosTokenId

/-- The truth value of the object in Python. -/
def truthy : EosTokenId → Bool
  | .one id => id ≠ 0
  | .many ids => !ids.isEmpty

def matches_token : EosTokenId → Option Int → Bool
  | .one id, last_token_id => last_token_id = some id
  | .many ids, last_token_id => last_token_id.any (fun t => t ∈ ids)

end EosTokenId

/-- 2-Phase approach: wait queue -> running requests -> active batch. -/
structure Scheduler where
  max_batch_size : Nat
  max_num_tokens_per_batch : Nat
  micro_batch_size : Nat
  is_first_peer : Bool
  eos_token_id : Option EosTokenId
  /-- `tokenizer.eos_token_id`, when there is a tokenizer that has one. -/
  tokenizer_eos_token_id : Option Int
  wait_queue : List Request
  running_requests : Dict String Request
  cache_manager : Option CacheManager
  request_timeout_s : Nat

namespace Scheduler

def init (max_batch_size max_num_tokens_per_batch micro_batch_ratio : Nat) (is_first_peer : Bool)
    (cache_manager : Option CacheManager) (request_timeout_s : Nat)
    (eos_token_id : Option EosTokenId) (tokenizer_eos_token_id : Option Int) : Scheduler :=
  { max_batch_size, max_num_tokens_per_batch
    micro_batch_size := max 1 (max_batch_size / micro_batch_ratio)
    is_first_peer, eos_token_id, tokenizer_eos_token_id
    wait_queue := []
    running_requests := .empty
    cache_manager, request_timeout_s }

variable (s : Scheduler)

def num_queued_requests : Nat := s.wait_queue.length

def num_running_requests : Nat := s.running_requests.size

/-- Gets a request that is currently in the running state. -/
def get_running_request (request_id : String) : Option Request :=
  s.running_requests.get? request_id

/-! ## Entry and exit -/

/-- A prefill goes to the wait queue, and a decode replaces the running request of its id. -/
def enque_request (now : Nat) (request : Request) : Except Exn Scheduler :=
  if request.is_finished then .ok s
  else
    let request := { request with ready_for_next_step := true, last_updated_time := some now }
    if request.is_decoding then
      if !s.running_requests.has request.request_id then
        .error (.ValueError (s!"Decode request {request.request_id} must already be admitted " ++
          "(in running requests)."))
      else
        .ok { s with
          running_requests :=
            (s.running_requests.insert request.request_id request).moveToEnd request.request_id }
    else .ok { s with wait_queue := s.wait_queue ++ [request] }

/-- Removes a request from the running requests. -/
def evict_request (request_id : String) : Except Exn Scheduler :=
  if s.running_requests.has request_id then
    .ok { s with running_requests := s.running_requests.erase request_id }
  else .error (.ValueError s!"Attempted to evict non-existent request {request_id}.")

def cancel_request (request_id : String) : Except Exn Scheduler :=
  match s.running_requests.get? request_id with
  | some req =>
    .ok { s with running_requests := s.running_requests.insert request_id { req with abort := true } }
  | none => .error (.ValueError s!"Attempted to cancel non-existent request {request_id}.")

/-- The status of a request that has met a finishing condition. An abort alone has no status. -/
def finishing_status (request : Request) : Option RequestStatus :=
  let last_token_id := request.output_ids.getLast?
  let eos := s.eos_token_id.any (fun e => e.truthy && e.matches_token last_token_id)
  let tokenizer_eos := s.tokenizer_eos_token_id.any (fun e => e ≠ 0 && last_token_id = some e)
  match request.kind with
  | .intermediate _ _ _ => none
  | .initial max_new_tokens max_total_length =>
    if !request.sampling_params.ignore_eos && eos then some .FINISHED_EOS
    else if !request.sampling_params.ignore_eos && tokenizer_eos then some .FINISHED_EOS
    else if request.output_length ≥ max_new_tokens then some .FINISHED_MAX_LENGTH
    else if request.total_length ≥ max_total_length then some .FINISHED_MAX_LENGTH
    else none

/-- Checks if a request has met any finishing conditions and updates its status. A request that
has is evicted. -/
def check_and_update_request_status (request : Request) :
    Except Exn (Bool × Request × Scheduler) :=
  if !s.is_first_peer then
    .error (.RuntimeError "Only first peer can check and update request status.")
  else if s.eos_token_id = none then
    .error (.RuntimeError "EOS token ID must be set for request status checking.")
  else if request.is_finished then .ok (true, request, s)
  else
    let status := s.finishing_status request
    let request := match status with
      | some new_status => request.update_status new_status
      | none => request
    if status.isSome || request.abort then
      match s.evict_request request.request_id with
      | .ok s' => .ok (true, request, s')
      | .error e => .error e
    else .ok (false, request, s)

/-! ## Admission -/

/-- Memory for a request, when there is a cache and the request has none in it yet. -/
def make_resident (req : Request) : Bool × Scheduler :=
  match s.cache_manager with
  | none => (true, s)
  | some m =>
    if m.has_request req.request_id then (true, s)
    else
      let (ok, m') := m.allocate_request req.request_id req.total_length
      (ok, { s with cache_manager := some m' })

/-- The request is running from now on. -/
def start_running (now : Nat) (req : Request) : Scheduler :=
  { s with
    running_requests :=
      s.running_requests.insert req.request_id { req with last_updated_time := some now } }

/-- The loop of the admission over the wait queue. -/
def admit_from (now : Nat) : List Request → Scheduler → Scheduler
  | [], s => { s with wait_queue := [] }
  | req :: rest, s =>
    if s.running_requests.size < s.max_batch_size then
      if s.running_requests.has req.request_id then admit_from now rest s
      else
        match s.make_resident req with
        | (true, s') => admit_from now rest (s'.start_running now req)
        | (false, s') => admit_from now rest s'
    else { s with wait_queue := req :: rest }

/-- Moves requests from the wait queue into the running set, up to capacity. -/
def admit_requests (now : Nat) : Scheduler := admit_from now s.wait_queue s

/-! ## Batches -/

/-- Marks the running requests that exceeded their timeout as aborted, and returns them. -/
def get_timed_out_requests (now : Nat) : List Request × Scheduler :=
  let late := fun req : Request =>
    req.last_updated_time.any (fun t => decide (now - t > s.request_timeout_s))
  let marked := s.running_requests.mapValues
    (fun req => if late req then { req with abort := true } else req)
  (marked.values.filter late, { s with running_requests := marked })

/-- Takes candidates while the batch has room, and skips those that exceed the tokens. -/
def fill_batch (cost : Request → Nat) : List Request → List Request × Nat → List Request × Nat
  | [], b => b
  | req :: rest, (batch, inflight_tokens) =>
    if s.micro_batch_size ≤ batch.length then (batch, inflight_tokens)
    else if cost req + inflight_tokens > s.max_num_tokens_per_batch then
      fill_batch cost rest (batch, inflight_tokens)
    else fill_batch cost rest (batch ++ [req], inflight_tokens + cost req)

/-- Prefills first, in the order of their admission, and then decodes, in the order in which
they became ready. -/
def select_batch : List Request :=
  let ready := s.running_requests.values.filter (fun req => req.ready_for_next_step)
  let prefills := s.fill_batch (fun req => req.prompt_len) (ready.filter Request.is_prefill) ([], 0)
  (s.fill_batch (fun _ => 1) (ready.filter Request.is_decoding) prefills).1

/-- A request that goes into a batch is no longer ready. -/
def taken (now : Nat) (req : Request) : Request :=
  { req with ready_for_next_step := false, last_updated_time := some now }

/-- Forms the active batch for the next forward pass. -/
def form_batch (now : Nat) : List Request × Scheduler :=
  let s := s.admit_requests now
  let batch := s.select_batch
  let ids := batch.map (fun req => req.request_id)
  (batch.map (taken now),
    { s with
      running_requests := s.running_requests.mapValues
        (fun req => if req.request_id ∈ ids then taken now req else req) })

end Scheduler

end parallax.server.scheduler
