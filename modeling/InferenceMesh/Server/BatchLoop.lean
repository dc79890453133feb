-- A batch in the run loop (base_executor.py, `run_loop` from `form_batch` on,
-- with `prepare_next_batch_requests`): the inputs are prepared, the model runs on
-- the prefills and then on the decodes, and what comes out goes to the next
-- peer. A single node handles it itself.
import InferenceMesh.P2P.MessageUtil
import InferenceMesh.Server.LengthBudget

open ordered_dict python state_exn
open parallax.server.cache_manager parallax.server.request parallax.server.scheduler
open parallax.server.mlx_executor parallax.p2p.message_util

namespace parallax.server.executor

/-! ## The model -/

/-- What the sharded model makes of a part of the batch: the hidden states of each of its requests,
which have a row at least, and on the last peer a token. -/
structure ForwardPass where
  hidden_states : Nat → Tensor
  tokens : Nat → Int
  rows : ∀ i, hidden_states i ≠ []

/-- A request in a forward pass, with the context length that the pass uses and what comes out. -/
structure Passed where
  request : Request
  context_length : Nat
  token : Int
  output : Tensor

/-- The requests of a forward pass from place `i` on. -/
def passed_from (pass : ForwardPass) : Nat → List Request → List Nat → List Passed
  | i, request :: rest, context_length :: lengths =>
    { request, context_length, token := pass.tokens i, output := pass.hidden_states i } ::
      passed_from pass (i + 1) rest lengths
  | _, _, _ => []

def passed_by (inputs : BatchInputs) (pass : ForwardPass) : List Passed :=
  passed_from pass 0 inputs.requests inputs.context_lengths

/-- A batch at work: its peer, the messages to the next peer, and what went through the model. -/
structure Batch where
  peer : Executor
  sent : List ForwardRequest
  passed : List Passed

abbrev BatchM : Type → Type := EStateM Exn Batch

/-! ## The next peer -/

/-- What the last peer makes of a token: an array with the token as its hidden states. -/
def token_request (request : Request) (current_position : Nat) (next_token_id : Int) : Request :=
  { request_id := request.request_id
    status := .DECODING
    input_ids := request.input_ids
    routing_table := request.routing_table
    lora_path := request.lora_path
    kind := .intermediate current_position (some [[(next_token_id : Rat)]]) (some next_token_id) }

/-- Prepares the request object to be sent to the next peer in the pipeline, or back to the first
peer if this is the last peer. -/
def prepare_next_single_request (e : Executor) (request : Request) (hidden_states : Tensor)
    (next_token_id : Int) : Except Exn Request :=
  if e.is_last_peer && e.is_first_peer then
    .ok (token_request request (request.total_length + 1) next_token_id)
  else if e.is_last_peer then
    if request.is_initial then
      .error (.AssertionError "Last peer must receive an IntermediateRequest.")
    else .ok (token_request request request.total_length next_token_id)
  else if e.is_first_peer then
    if request.is_initial then
      .ok (.from_initial_request request
        (if request.is_finished then none else some hidden_states) request.lora_path)
    else .error (.AssertionError "First peer must process an InitialRequest.")
  else if request.is_initial then
    .error (.AssertionError "Intermediate peer must process an IntermediateRequest.")
  else .ok (.from_intermediate_request request (some hidden_states) request.lora_path)

/-- The loop of `prepare_next_batch_requests`, from the request at place `i` on. -/
def prepare_next_from (e : Executor) (pass : ForwardPass) : Nat → List Request →
    Except Exn (List Request)
  | _, [] => .ok []
  | i, request :: rest => do
    let next_req ← prepare_next_single_request e request (pass.hidden_states i) (pass.tokens i)
    let others ← prepare_next_from e pass (i + 1) rest
    return next_req :: others

/-- Prepares a batch of requests for the next stage of the pipeline. -/
def prepare_next_batch_requests (e : Executor) (requests : List Request) (pass : ForwardPass) :
    Except Exn (List Request) := prepare_next_from e pass 0 requests

/-! ## The batch -/

/-- What the peers of a pipeline have in common. -/
structure Setup where
  wire : Wire
  device : String
  pad_token_id : Int

/-- What the preparation of a batch looks at. -/
def Setup.peer (c : Setup) (e : Executor) : Peer :=
  ⟨e.is_first_peer, e.is_last_peer, c.pad_token_id⟩

/-- Calls on the cache manager. -/
def on_cache {α : Type} (calls : CacheM α) : BatchM α := do
  let b ← get
  match b.peer.scheduler.cache_manager with
  | none => throw (.AttributeError "'NoneType' object has no attribute 'allocate_request'")
  | some m =>
    match calls m with
    | .ok a m' => do
      set { b with peer := b.peer.with_cache m' }
      return a
    | .error err m' => do
      set { b with peer := b.peer.with_cache m' }
      throw err

/-- A step of the executor itself. -/
def on_peer (step : ExecutorM PUnit) : BatchM PUnit := do
  let b ← get
  match step b.peer with
  | .ok _ e => set { b with peer := e }
  | .error err e => do
    set { b with peer := e }
    throw err

/-- What came out of the model goes to the appropriate destination. -/
def dispatch (c : Setup) (now : Nat) (next_batch : List Request) : BatchM PUnit := do
  let b ← get
  if b.peer.is_last_peer && b.peer.is_first_peer then
    on_peer (handle_input_requests now next_batch)
  else
    match request_to_proto c.wire c.device next_batch with
    | .error err => throw err
    | .ok message => set { b with sent := b.sent ++ [message] }

/-- The turn of the loop for one type of batch. A forward pass may raise. -/
def process_part (c : Setup) (now : Nat) (forward : Except Exn ForwardPass) :
    Option BatchInputs → BatchM PUnit
  | none => pure ⟨⟩
  | some inputs =>
    match forward with
    | .error err => throw err
    | .ok pass => do
      modify (fun b => { b with passed := b.passed ++ passed_by inputs pass })
      let b ← get
      match prepare_next_batch_requests b.peer inputs.requests pass with
      | .error err => throw err
      | .ok next_batch => dispatch c now next_batch

/-- The forward passes of a batch, one for its prefills and one for its decodes. -/
structure Passes where
  prefill : Except Exn ForwardPass
  decode : Except Exn ForwardPass

/-- Processes a batch: prefills and decodes separately, each with inputs of its own. -/
def process_requests (c : Setup) (now : Nat) (passes : Passes) (batch : List Request) :
    BatchM PUnit := do
  let b ← get
  let inputs ← on_cache (prepare_batch_inputs (c.peer b.peer) batch)
  process_part c now passes.prefill inputs.1
  process_part c now passes.decode inputs.2

/-- The batch of a turn of the run loop. -/
def batch_of (now : Nat) (e : Executor) : List Request := (e.scheduler.form_batch now).1

/-- The executor once the batch of its turn is formed. -/
def formed (now : Nat) (e : Executor) : Executor :=
  e.with_scheduler (e.scheduler.form_batch now).2

/-- A turn of the run loop from `form_batch` on, up to its handler. -/
def process_batch (c : Setup) (now : Nat) (passes : Passes) (e : Executor) :
    EStateM.Result Exn Batch PUnit :=
  process_requests c now passes (batch_of now e) { peer := formed now e, sent := [], passed := [] }

end parallax.server.executor
