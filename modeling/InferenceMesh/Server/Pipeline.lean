-- A pipeline of peers in a ring: the executors, the packets and aborts between
-- them, and all that can happen to it. A packet arrives exactly once, in any
-- order and at any time. What a peer receives in one go is handled packet by
-- packet, and a turn of the run loop is atomic, since a peer runs alone.
import InferenceMesh.Server.BatchEffect

open ordered_dict python state_exn
open parallax.server.cache_manager parallax.server.request parallax.server.scheduler
open parallax.p2p.message_util

namespace parallax.server.executor

/-! ## The state -/

structure Pipeline where
  peers : Nat → Executor
  /-- The packets on their way to each peer. -/
  forwards : Nat → List Flight
  /-- The aborts on their way to each peer. -/
  aborts : Nat → List Req
  /-- The prompts of the requests that came from the clients, by their ids. -/
  prompts : String → Option (List Int)
  /-- What went through the model of each peer, batch after batch. -/
  passed : Nat → List Passed
  /-- The ids that left the running requests of a peer. -/
  evicted : List String

/-- The peer that gets the packets of peer `i`: the last one sends back to the first. -/
def next_peer (k i : Nat) : Nat := if i + 1 = k then 0 else i + 1

/-- The requests that ran before a step and do not run after it. -/
def vanished (e e' : Executor) : List String :=
  e.scheduler.running_requests.keys.filter (fun id => !e'.runs id)

/-- The first peer moves the position of a packet that comes back to it. -/
def arrived (e : Executor) (req : Request) : Request :=
  match req.kind with
  | .initial _ _ => req
  | .intermediate current_position hidden_states next_token_id =>
    if e.is_first_peer then
      { req with kind := .intermediate (current_position + 1) hidden_states next_token_id }
    else req

namespace Pipeline

/-- Peer `i` makes a step. -/
def with_peer (p : Pipeline) (i : Nat) (e : Executor) : Pipeline :=
  { p with
    peers := Function.update p.peers i e
    evicted := p.evicted ++ vanished (p.peers i) e }

/-- Packets leave for peer `i`. -/
def forward (p : Pipeline) (i : Nat) (packets : List Flight) : Pipeline :=
  { p with forwards := Function.update p.forwards i (p.forwards i ++ packets) }

/-- The broadcast of the node sender: the aborts go to all peers but the first one. -/
def broadcast (p : Pipeline) (reqs : List Req) : Pipeline :=
  { p with aborts := fun i => if i = 0 then p.aborts i else p.aborts i ++ reqs }

/-- Peer `i` has put a batch through its model. -/
def log (p : Pipeline) (i : Nat) (passed : List Passed) : Pipeline :=
  { p with passed := Function.update p.passed i (p.passed i ++ passed) }

/-- The packets of a request on their way to peer `i`. -/
def flying_to (p : Pipeline) (i : Nat) (id : String) : List Flight :=
  (p.forwards i).filter (fun flight => flight.req.rid = id)

def aborts_to (p : Pipeline) (i : Nat) (id : String) : List Req :=
  (p.aborts i).filter (fun req => req.rid = id)

/-- The forward passes of a request at peer `i`: its steps there. -/
def passed_at (p : Pipeline) (i : Nat) (id : String) : List Passed :=
  (p.passed i).filter (fun x => x.request.request_id = id)

end Pipeline

/-! ## Steps -/

/-- All that happens in a pipeline of `k` peers without a batch that raises. -/
inductive PipelineStep (c : Setup) (k : Nat) : Pipeline → Pipeline → Prop where
  /-- A client sends a request. -/
  | submit {p : Pipeline} {e : Executor} {req : Request} (now : Nat) (raw : RawRequest)
      (hraw : handle_raw_request (p.peers 0).max_sequence_length raw = .ok req)
      (hid : req.request_id ≠ "") (hnew : p.prompts req.request_id = none)
      (hrun : handle_input_requests now [req] (p.peers 0) = .ok ⟨⟩ e) :
      PipelineStep c k p { p.with_peer 0 e with
        prompts := Function.update p.prompts req.request_id (some req.input_ids) }
  /-- A client goes away. -/
  | abort {p : Pipeline} (rid : String) :
      PipelineStep c k p (p.with_peer 0 (recv_from_http (.abort rid) ([], p.peers 0)).2)
  /-- A packet arrives. -/
  | deliver {p : Pipeline} {e : Executor} {req : Request} {i : Nat} {before after : List Flight}
      {flight : Flight} (now : Nat) (new_id : String) (hi : i < k)
      (hflight : p.forwards i = before ++ flight :: after)
      (hland : flight.lands c.wire new_id = .ok req)
      (hrun : handle_input_requests now [arrived (p.peers i) req] (p.peers i) = .ok ⟨⟩ e) :
      PipelineStep c k p
        { p.with_peer i e with forwards := Function.update p.forwards i (before ++ after) }
  /-- The first peer tells the others about the requests that are finished. -/
  | send_finished_batch {p : Pipeline} :
      PipelineStep c k p ((p.with_peer 0 (executor.send_finished_batch (p.peers 0))).broadcast
        (abort_request_to_proto (p.peers 0).finished_batch).reqs)
  /-- An abort arrives. -/
  | deliver_abort {p : Pipeline} {e : Executor} {req : Request} {i : Nat} {before after : List Req}
      {proto_req : Req} (now : Nat) (new_id : String) (hi : i < k) (hpos : i ≠ 0)
      (habort : p.aborts i = before ++ proto_req :: after)
      (hland : proto_to_abort_request new_id { reqs := [proto_req] } = .ok [req])
      (hrun : handle_input_requests now [req] (p.peers i) = .ok ⟨⟩ e) :
      PipelineStep c k p
        { p.with_peer i e with aborts := Function.update p.aborts i (before ++ after) }
  | check_timeouts {p : Pipeline} {e : Executor} {i : Nat} (now : Nat) (hi : i < k)
      (hrun : executor.check_timeouts now (p.peers i) = .ok ⟨⟩ e) :
      PipelineStep c k p (p.with_peer i e)
  /-- A turn of the run loop of a peer. -/
  | batch {p : Pipeline} {b : Batch} {i : Nat} (now : Nat) (passes : Passes) (hi : i < k)
      (hrun : process_batch c now passes (p.peers i) = .ok ⟨⟩ b) :
      PipelineStep c k p (((p.with_peer i b.peer).forward (next_peer k i)
        (b.sent.flatMap flights)).log i b.passed)

/-- A batch raises: its requests are released and evicted, and what was sent before is on its
way. -/
inductive BatchRaises (c : Setup) (k : Nat) : Pipeline → Nat → List Request → Pipeline → Prop where
  | raises {p : Pipeline} {b : Batch} {i : Nat} {err : Exn} (now : Nat) (passes : Passes)
      (hi : i < k) (hrun : process_batch c now passes (p.peers i) = .error err b) :
      BatchRaises c k p i (batch_of now (p.peers i))
        ((p.with_peer i (give_up (batch_of now (p.peers i)) b.peer)).forward (next_peer k i)
          (b.sent.flatMap flights))

/-- The batch that raises is one of prefills, at the first of several peers. -/
def Unsent (k i : Nat) (batch : List Request) : Prop :=
  i = 0 ∧ 2 ≤ k ∧ ∀ req ∈ batch, req.is_prefill = true

/-- A run, in which batches raise only before a packet of their requests has left. -/
inductive PipelineRun (c : Setup) (k : Nat) (p₀ : Pipeline) : Pipeline → Prop where
  | start : PipelineRun c k p₀ p₀
  | step {p p' : Pipeline} (h : PipelineRun c k p₀ p) (hstep : PipelineStep c k p p') :
      PipelineRun c k p₀ p'
  | raises {p p' : Pipeline} {i : Nat} {batch : List Request} (h : PipelineRun c k p₀ p)
      (hraise : BatchRaises c k p i batch p') (hunsent : Unsent k i batch) :
      PipelineRun c k p₀ p'

/-- A peer that has just been started at place `i` of a pipeline of `k` peers. -/
structure Launched (k i : Nat) (e : Executor) : Prop where
  first : e.is_first_peer = decide (i = 0)
  last : e.is_last_peer = decide (i + 1 = k)
  scheduler_first : e.scheduler.is_first_peer = decide (i = 0)
  eos : i = 0 → e.scheduler.eos_token_id ≠ none
  waiting : e.scheduler.wait_queue = []
  running : e.scheduler.running_requests = .empty
  cache : ∃ config : Config, config.layer_types ≠ [] ∧
    e.scheduler.cache_manager = some (.init config)
  finished : e.finished_batch = []
  sent : e.sent_to_ipc = []

/-- Nothing has happened yet. -/
structure Starts (k : Nat) (p : Pipeline) : Prop where
  peers : ∀ i < k, Launched k i (p.peers i)
  forwards : ∀ i, p.forwards i = []
  aborts : ∀ i, p.aborts i = []
  prompts : ∀ id, p.prompts id = none
  passed : ∀ i, p.passed i = []
  evicted : p.evicted = []

end parallax.server.executor
