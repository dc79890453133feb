-- The scheduler (scheduling/scheduler.py) and the calls of the workers
-- (backend/server/rpc_connection_handler.py). It shares the list of nodes and
-- the map of ids with its allocator. The lock and the threads are left to the
-- steps: each of them runs one operation as a whole.
import InferenceMesh.Scheduling.GlobalAllocation
import InferenceMesh.Scheduling.RequestRouting

open ordered_dict python state_exn
open scheduling.model_info scheduling.node scheduling.layer_allocation scheduling.request_routing

namespace scheduling.scheduler

/-! ## State -/

/-- A request and the path it was given. -/
structure RequestSignal where
  request_id : String
  routing_table : Option (List String)

/-- The stats of a node update. -/
structure NodeUpdate where
  node_id : String
  current_requests : Option Int
  layer_latency_ms : Option Latency
  new_rtt_to_nodes : Option (List (String × Latency))
  is_active : Option Bool

inductive Router where
  | dp
  | rr (router : RoundRobinPipelineRouting)

/-- The scheduler. -/
structure Scheduler where
  layer_allocator : Allocator
  min_nodes_bootstrapping : Nat
  request_router : Router
  request_warm_up_for_reshard : Nat
  request_queue : List RequestSignal
  heartbeat_timeout : Rat
  pending_joins : List Ref
  pending_leaves : List String
  pending_node_updates : List NodeUpdate
  bootstrapped : Bool
  node_assigned_request_count : Dict String Nat

abbrev SchedM : Type → Type := EStateM Exn Scheduler

namespace Scheduler

variable (s : Scheduler)

def model_info : ModelInfo := s.layer_allocator.model_info

def num_layers : Int := s.layer_allocator.num_total_layers

/-- The list that the scheduler and the allocator share. -/
def nodes : List Ref := s.layer_allocator.nodes

def node_id_to_node : Dict String Ref := s.layer_allocator.node_id_to_node

def node (r : Ref) : Node := s.layer_allocator.store r

/-- The nodes as the router sees them. -/
def node_values : List Node := s.nodes.map s.node

def modify_node (r : Ref) (f : Node → Node) : Scheduler :=
  { s with layer_allocator := s.layer_allocator.set_node r (f (s.node r)) }

/-- One more request for the id of a node. -/
def count_request (node_id : String) : Scheduler :=
  let count := (s.node_assigned_request_count.get? node_id).getD 0
  { s with
    node_assigned_request_count := s.node_assigned_request_count.insert node_id (count + 1) }

end Scheduler

/-- An operation of the allocator. -/
def on_allocator {α : Type} (x : AllocM α) : SchedM α := fun s =>
  match x s.layer_allocator with
  | .ok v a => .ok v { s with layer_allocator := a }
  | .error e a => .error e { s with layer_allocator := a }

/-- A computation that may raise and changes nothing. -/
def raised {α : Type} (x : Except Exn α) : SchedM α :=
  match x with
  | .ok v => pure v
  | .error e => throw e

/-! ## Warm-up -/

/-- Counts how often each turning point is seen. -/
def count_turns : List Turn → Dict Turn Nat → Dict Turn Nat
  | [], agg_turns => agg_turns
  | t :: rest, agg_turns =>
    count_turns rest (agg_turns.insert t ((agg_turns.get? t).getD 0 + 1))

/-- Repeats the detection of turning points. -/
def detect_turns (nodes_list : List Node) (num_layers : Nat) :
    Nat → Dict Turn Nat → Except Exn (Dict Turn Nat)
  | 0, agg_turns => .ok agg_turns
  | n + 1, agg_turns => do
    let turns ← find_turning_points nodes_list num_layers
    detect_turns nodes_list num_layers n (count_turns turns agg_turns)

/-- Drops the head or the tail of a range. -/
def truncate (t : Turn) : AllocM Unit := do
  let a ← get
  match a.nodes.find? (fun r => a.node_id r = t.1) with
  | none => pure ()
  | some r =>
    match (a.store r).start_layer, (a.store r).end_layer with
    | some start_layer, some end_layer =>
      match t.2.2 with
      | .tail => if t.2.1 < end_layer then reallocate r start_layer t.2.1 else pure ()
      | .head => if t.2.1 > start_layer then reallocate r t.2.1 end_layer else pure ()
    | _, _ => pure ()

/-- Runs a warm-up and shrinks the shards at the turning points. -/
def run_warmup_and_truncate (override_warmup_count : Nat) : SchedM Unit := do
  let s ← get
  if s.nodes.isEmpty then pure ()
  else
    let warmup_count :=
      if override_warmup_count > 0 then override_warmup_count else s.request_warm_up_for_reshard
    let agg_turns ← raised (detect_turns s.node_values s.model_info.num_layers warmup_count .empty)
    on_allocator (agg_turns.keys.forM truncate)

/-! ## Bootstrapping -/

def global_allocation : SchedM Bool := on_allocator layer_allocation.global_allocation

/-- The warm-up of a bootstrap, unless it is skipped. -/
def warm_up (skip_warmup : Bool) : SchedM Unit := do
  let s ← get
  if !skip_warmup && s.request_warm_up_for_reshard > 0 then run_warmup_and_truncate 0
  else pure ()

/-- The last part of bootstrapping, after the allocation. -/
def finish_bootstrap (skip_warmup : Bool) : SchedM Bool := do
  warm_up skip_warmup
  let s ← get
  if !s.layer_allocator.has_full_pipeline false then return false
  else
    modify (fun s => { s with bootstrapped := true })
    return true

/-- The allocations are cleared before a rebalance. -/
def clear_allocations : SchedM Unit := do
  let s ← get
  modify (fun s => { s with bootstrapped := false })
  on_allocator (deallocate_all s.nodes)

/-- Bootstrapping, or a global rebalance when existing allocations are cleared. Returns whether
a full pipeline was established. -/
def bootstrap (clear_existing skip_warmup : Bool) : SchedM Bool := do
  let s ← get
  if !clear_existing && s.nodes.length < s.min_nodes_bootstrapping then return false
  else
    cond clear_existing clear_allocations (pure ())
    let success ← global_allocation
    if !success then return false else finish_bootstrap skip_warmup

/-- A scheduler over the given nodes. It tries an allocation at once, when there are enough of
them. -/
def Scheduler.init (store : Ref → Node) (model_info : ModelInfo) (nodes : List Ref)
    (min_nodes_bootstrapping : Nat) (strategy : Strategy) (request_router : Router)
    (rebalance_threshold : WithTop Rat) (water_filling_max_iterations : Nat)
    (request_warm_up_for_reshard : Nat) (heartbeat_timeout : Rat) : Scheduler :=
  let allocator := Allocator.init store model_info strategy nodes rebalance_threshold
    water_filling_max_iterations true
  { layer_allocator :=
      if nodes.length ≥ min_nodes_bootstrapping then
        stateOf (layer_allocation.global_allocation allocator)
      else allocator
    min_nodes_bootstrapping, request_router, request_warm_up_for_reshard
    request_queue := []
    heartbeat_timeout
    pending_joins := []
    pending_leaves := []
    pending_node_updates := []
    bootstrapped := false
    node_assigned_request_count := .empty }

/-! ## Nodes -/

/-- Updates the info of a node. -/
def update_node_info (now : Rat) (r : Ref) (u : NodeUpdate) : SchedM Unit :=
  modify (fun s => s.modify_node r (fun n =>
    { n with
      current_requests := u.current_requests.getD n.current_requests
      avg_layer_latency_ms := u.layer_latency_ms.or n.avg_layer_latency_ms
      rtt_to_nodes := u.new_rtt_to_nodes.or n.rtt_to_nodes
      is_active := u.is_active.getD n.is_active
      last_heartbeat := now }))

/-- The error of a manual node without a range. -/
def manual_range_missing (n : Node) : Exn :=
  .ValueError (s!"Node {n.node_id} has manual_layer_assignment=True " ++
    "but start_layer or end_layer is None")

/-- A manual node gets the layers it asks for, and another one waits for the bootstrap or joins
at once. -/
def assign_layers (r : Ref) (bootstrap : Bool) : SchedM Unit := do
  let s ← get
  if (s.node r).manual_layer_assignment then
    match (s.node r).start_layer, (s.node r).end_layer with
    | some start_layer, some end_layer =>
      on_allocator (allocate r start_layer end_layer)
      modify (fun s =>
        if s.layer_allocator.has_full_pipeline false then { s with bootstrapped := true } else s)
    | _, _ => throw (manual_range_missing (s.node r))
  else if !bootstrap then on_allocator (layer_allocation.join r)
  else pure ()

/-- Adds a node. -/
def join (r : Ref) (bootstrap : Bool) : SchedM Unit := do
  on_allocator (declare r)
  assign_layers r bootstrap

/-- What follows a leave that needs a rebalance. -/
def rebalance_after_leave : SchedM Unit := do
  let s ← get
  let manual_count := s.nodes.countP (fun r => (s.node r).manual_layer_assignment)
  if manual_count = s.nodes.length then pure ()
  else if manual_count > 0 then pure ()
  else if !s.layer_allocator.has_full_pipeline false then
    run_warmup_and_truncate 1
    let s ← get
    if !s.layer_allocator.has_full_pipeline false then
      let _ ← bootstrap true true
      pure ()
    else pure ()
  else
    let _ ← bootstrap true true
    pure ()

/-- Removes a node. -/
def leave (node_id : String) : SchedM Unit := do
  let s ← get
  if !s.node_id_to_node.has node_id then throw (.ValueError s!"Node {node_id} not found in nodes")
  else
    on_allocator (layer_allocation.leave node_id)
    modify (fun s =>
      { s with node_assigned_request_count := s.node_assigned_request_count.erase node_id })
    let s ← get
    let needed ← raised s.layer_allocator.should_global_rebalance
    if needed then rebalance_after_leave else pure ()

/-! ## Dispatch -/

/-- The choice of the router. -/
def find_optimal_path : SchedM (List String × Latency) := fun s =>
  match s.request_router with
  | .dp =>
    match DynamicProgrammingRouting.find_optimal_path s.node_values s.num_layers with
    | .ok found => .ok found s
    | .error e => .error e s
  | .rr router =>
    match RoundRobinPipelineRouting.find_optimal_path s.node_values s.num_layers router with
    | .ok found router => .ok found { s with request_router := .rr router }
    | .error e router => .error e { s with request_router := .rr router }

/-- Counts a request on a node of its path. -/
def assign_request (node_id : String) : SchedM Unit := do
  let s ← get
  match s.node_id_to_node.get? node_id with
  | none => throw (.KeyError node_id)
  | some r =>
    modify (fun s => s.count_request node_id)
    modify (fun s => s.modify_node r Node.add_request)

/-- Routes the next request: its id, the path and the latency. -/
def dispatch_next_request : SchedM (Option (String × List String × Latency)) := do
  let s ← get
  match s.request_queue with
  | [] => return none
  | req :: rest =>
    set { s with request_queue := rest }
    let (path, latency) ← find_optimal_path
    path.forM assign_request
    return some (req.request_id, path, latency)

def receive_request (request : RequestSignal) : SchedM Unit :=
  modify (fun s => { s with request_queue := s.request_queue ++ [request] })

/-! ## The event queues -/

def enqueue_join (r : Ref) : SchedM Unit :=
  modify (fun s => { s with pending_joins := s.pending_joins ++ [r] })

def enqueue_leave (node_id : String) : SchedM Unit :=
  modify (fun s => { s with pending_leaves := s.pending_leaves ++ [node_id] })

def enqueue_node_update (u : NodeUpdate) : SchedM Unit :=
  modify (fun s => { s with pending_node_updates := s.pending_node_updates ++ [u] })

/-- Applies one pending update. -/
def process_node_update (now : Rat) : SchedM Unit := do
  let s ← get
  match s.pending_node_updates with
  | [] => pure ()
  | u :: rest =>
    set { s with pending_node_updates := rest }
    match s.node_id_to_node.get? u.node_id with
    | none => pure ()
    | some r => update_node_info now r u

/-- Handles one pending join. -/
def process_join : SchedM Unit := do
  let s ← get
  match s.pending_joins with
  | [] => pure ()
  | r :: rest =>
    set { s with pending_joins := rest }
    join r (!s.bootstrapped)

/-- The attempt after the joins were handled. An exception is logged. -/
def bootstrap_after_joins : SchedM Unit := do
  let s ← get
  if !s.bootstrapped && s.nodes.length ≥ s.min_nodes_bootstrapping then
    tryCatch (do let _ ← bootstrap false false; pure ()) (fun _ => pure ())
  else pure ()

/-- Handles one pending leave. An exception is logged. -/
def process_leave : SchedM Unit := do
  let s ← get
  match s.pending_leaves with
  | [] => pure ()
  | node_id :: rest =>
    set { s with pending_leaves := rest }
    tryCatch (leave node_id) (fun _ => pure ())

/-- Removes the active nodes whose heartbeat is too old. -/
def checking_node_heartbeat (now : Rat) : SchedM Unit := do
  let s ← get
  s.nodes.forM (fun r => do
    let s ← get
    if (s.node r).is_active && now - (s.node r).last_heartbeat > s.heartbeat_timeout then
      leave (s.node r).node_id
    else pure ())

/-! ## The calls of the workers -/

/-- A message of a worker. -/
structure NodeMessage where
  node_id : String
  hardware : NodeHardwareInfo
  kvcache_mem_ratio : Rat
  param_mem_ratio : Rat
  max_concurrent_requests : Option Int
  max_sequence_length : Option Int
  is_active : Option Bool
  manual_layer_assignment : Option Bool
  start_layer : Option Int
  end_layer : Option Int
  current_requests : Option Int
  layer_latency_ms : Option Latency
  rtt_to_nodes : Option (List (String × Latency))

/-- The node that a message describes. -/
def build_node (model_info : ModelInfo) (now : Rat) (m : NodeMessage) : Node :=
  { node_id := m.node_id
    hardware := m.hardware
    model_info := model_info
    kvcache_mem_ratio := m.kvcache_mem_ratio
    param_mem_ratio := m.param_mem_ratio
    max_concurrent_requests := m.max_concurrent_requests
    max_sequence_length := m.max_sequence_length
    manual_layer_assignment := m.manual_layer_assignment.getD false
    start_layer := m.start_layer
    end_layer := m.end_layer
    current_requests := m.current_requests.getD 0
    is_active := m.is_active.getD true
    last_heartbeat := now
    avg_layer_latency_ms := m.layer_latency_ms
    rtt_to_nodes := m.rtt_to_nodes.or (some []) }

/-- A new object at a reference. -/
def new_node (r : Ref) (n : Node) : SchedM Unit :=
  modify (fun s => s.modify_node r (fun _ => n))

/-- A worker joins. The node object of the message is put at the given reference. -/
def node_join (now : Rat) (m : NodeMessage) (r : Ref) : SchedM Unit := do
  let s ← get
  new_node r (build_node s.model_info now m)
  enqueue_join r

/-- A worker leaves. -/
def node_leave (m : NodeMessage) : SchedM Unit := enqueue_leave m.node_id

/-- A worker reports its stats, and joins when it is unknown. -/
def node_update (now : Rat) (m : NodeMessage) (r : Ref) : SchedM Unit := do
  let s ← get
  let n := build_node s.model_info now m
  if !s.node_id_to_node.has n.node_id then
    new_node r n
    enqueue_join r
  else
    let layer_latency_ms ← raised n.layer_latency_ms
    enqueue_node_update
      ⟨n.node_id, some n.current_requests, some layer_latency_ms, n.rtt_to_nodes, some n.is_active⟩

/-- The layers that a worker is told to hold. -/
structure LayerReply where
  node_id : String
  model_name : String
  start_layer : Int
  end_layer : Int
  tp_size : Nat
  deriving DecidableEq

/-- The reply to a worker: the range that the allocator has for its id. -/
def get_layer_allocation (s : Scheduler) (current_node_id : String) : Option LayerReply :=
  s.layer_allocator.list_node_allocations.findSome? (fun x =>
    if current_node_id = x.1 then
      match s.node_id_to_node.get? x.1 with
      | none => none
      | some r =>
        some
          { node_id := x.1
            model_name := if (s.node r).hardware.device = "mlx" then
              (s.node r).model_info.mlx_model_name else (s.node r).model_info.model_name
            start_layer := x.2.1
            end_layer := x.2.2
            tp_size := (s.node r).hardware.num_gpus }
    else none)

end scheduling.scheduler
