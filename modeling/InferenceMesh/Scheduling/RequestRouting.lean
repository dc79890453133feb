-- Request routing (scheduling/request_routing.py): the turning points of the
-- layer-level search, the router over the ranges of the nodes, and the
-- round-robin router over complete pipelines.
import InferenceMesh.Lib.StateExn
import InferenceMesh.Scheduling.Node
import Mathlib.Data.List.Sort

open ordered_dict python
open scheduling.model_info scheduling.node

namespace scheduling.request_routing

/-! ## The layer-level search -/

/-- Which part of a range a turning point drops. -/
inductive Kind where
  | head
  | tail
  deriving DecidableEq, Repr

/-- A node id, a layer and the part that is dropped there. -/
abbrev Turn : Type := String × Int × Kind

/-- A host of a layer: its index, the cost of the best way to it, and the host before it. -/
structure Entry where
  index : Nat
  node : Node
  cost : Latency
  back : Option Nat

/-- The nodes that host a layer, with their indices. -/
def layer_hosts (nodes : List Node) (layer_id : Nat) : List (Node × Nat) :=
  nodes.zipIdx.filter (fun x => x.1.hosts_layer layer_id)

def first_row (hosts : List (Node × Nat)) : Except Exn (List Entry) :=
  hosts.mapM (fun x => do
    let latency ← x.1.layer_latency_ms
    return ⟨x.2, x.1, latency, none⟩)

/-- The best way to a host, over the hosts of the layer before. -/
def relax (node : Node) (i : Nat) : List Entry → Latency × Option Nat →
    Except Exn (Latency × Option Nat)
  | [], best => .ok best
  | entry :: rest, best =>
    if entry.cost = ⊤ then relax node i rest best
    else do
      let trans := if i = entry.index then 0 else entry.node.get_rtt_to node
      let latency ← node.layer_latency_ms
      let total := entry.cost + trans + latency
      relax node i rest (if total < best.1 then (total, some entry.index) else best)

def next_row (row : List Entry) (hosts : List (Node × Nat)) : Except Exn (List Entry) :=
  hosts.mapM (fun x => do
    let best ← relax x.1 x.2 row (⊤, none)
    return ⟨x.2, x.1, best.1, best.2⟩)

/-- The rows of the layers from `layer_id` on, the last layer first, over the rows so far. -/
def later_rows (nodes : List Node) : Nat → Nat → List Entry → List (List Entry) →
    Except Exn (List Entry × List (List Entry))
  | 0, _, row, rows => .ok (row, rows)
  | n + 1, layer_id, row, rows => do
    let next ← next_row row (layer_hosts nodes layer_id)
    later_rows nodes n (layer_id + 1) next (row :: rows)

/-- The first entry of the least cost: `min(last, key=lambda k: last[k])`. -/
def cheapest : List Entry → Option Entry
  | [] => none
  | entry :: rest => some (rest.foldl (fun best e => if e.cost < best.cost then e else best) entry)

/-- Follows the hosts back from one of the given row, and returns them from the first layer on. -/
def trace_back : List Entry → List (List Entry) → Nat → List Nat → List Nat
  | row, rows, i, path =>
    match rows with
    | [] => i :: path
    | row' :: rows' =>
      match (row.find? (fun entry => entry.index = i)).bind Entry.back with
      | none => i :: path
      | some j => trace_back row' rows' j (i :: path)

/-- The best host of each layer. There is none when some layer has no host. -/
def layer_route (nodes : List Node) (num_layers : Nat) : Except Exn (Option (List Nat)) :=
  if num_layers = 0 ∨ nodes = [] then .ok none
  else if (List.range num_layers).any (fun li => (layer_hosts nodes li).isEmpty) then .ok none
  else do
    let row ← first_row (layer_hosts nodes 0)
    let (last, rows) ← later_rows nodes (num_layers - 1) 1 row []
    match cheapest last with
    | none => return none
    | some entry => return some (trace_back last rows entry.index [])

/-- The tails to drop: the route switches away at a layer that the node still hosts. -/
def tail_turns (nodes : List Node) : Nat → List Nat → List Turn
  | li, prev_i :: cur_i :: rest =>
    let later := tail_turns nodes (li + 1) (cur_i :: rest)
    match nodes[prev_i]? with
    | none => later
    | some prev_node =>
      if prev_i ≠ cur_i ∧ prev_node.hosts_layer li then (prev_node.node_id, (li : Int), .tail) :: later
      else later
  | _, _ => []

/-- The first layer at which each node of the route is used. -/
def first_used : Nat → List Nat → List (Nat × Nat) → List (Nat × Nat)
  | _, [], used => used
  | li, i :: rest, used =>
    first_used (li + 1) rest (if i ∈ used.map Prod.fst then used else used ++ [(i, li)])

/-- The heads to drop: the route first uses the node behind its start. -/
def head_turns (nodes : List Node) (used : List (Nat × Nat)) : List Turn :=
  used.filterMap (fun x =>
    match nodes[x.1]? with
    | none => none
    | some n =>
      match n.start_layer with
      | none => none
      | some start_layer =>
        if (x.2 : Int) > start_layer then some (n.node_id, (x.2 : Int), .head) else none)

/-- The turning points of a route. -/
def turns_of (nodes : List Node) (route : List Nat) : List Turn :=
  tail_turns nodes 1 route ++ head_turns nodes (first_used 0 route [])

/-- Where shards can be trimmed. -/
def find_turning_points (nodes : List Node) (num_layers : Nat) : Except Exn (List Turn) := do
  match ← layer_route nodes num_layers with
  | none => return []
  | some route => return turns_of nodes route

/-! ## The router over ranges -/

namespace DynamicProgrammingRouting

/-- An active node with a range: its index, the range and the node. -/
structure Vertex where
  index : Nat
  start_layer : Int
  end_layer : Int
  node : Node

/-- The nodes with a range. -/
def vertices (nodes : List Node) : List Vertex :=
  nodes.zipIdx.filterMap (fun x =>
    match x.1.start_layer, x.1.end_layer with
    | some start_layer, some end_layer => some ⟨x.2, start_layer, end_layer, x.1⟩
    | _, _ => none)

def active_vertices (nodes : List Node) : List Vertex :=
  (vertices nodes).filter (fun v => v.node.is_active)

/-- The vertices by start and end. -/
def sorted_vertices (nodes : List Node) : List Vertex :=
  (vertices nodes).insertionSort (fun v w =>
    v.start_layer < w.start_layer ∨ (v.start_layer = w.start_layer ∧ v.end_layer ≤ w.end_layer))

/-- The costs and the parents found so far. -/
structure Table where
  dp : Dict Nat Latency
  parent : Dict Nat Nat

def Table.cost (t : Table) (i : Nat) : Latency := (t.dp.get? i).getD ⊤

/-- Relaxes one vertex over the active ones that end where it starts. -/
def relax_vertex (v : Vertex) : List Vertex → Table → Except Exn Table
  | [], t => .ok t
  | w :: rest, t =>
    if t.cost w.index = ⊤ then relax_vertex v rest t
    else do
      let trans := if w.node.node_id = v.node.node_id then 0 else w.node.get_rtt_to v.node
      let latency ← v.node.layer_latency_ms
      let cand := t.cost w.index + trans + latency
      relax_vertex v rest
        (if cand < t.cost v.index then
          ⟨t.dp.insert v.index cand, t.parent.insert v.index w.index⟩
        else t)

def relax_all (active : List Vertex) : List Vertex → Table → Except Exn Table
  | [], t => .ok t
  | v :: rest, t => do
    let t ← relax_vertex v (active.filter (fun w => w.end_layer = v.start_layer)) t
    relax_all active rest t

/-- The vertices that start at layer 0. -/
def initial_table : List Vertex → Table → Except Exn Table
  | [], t => .ok t
  | v :: rest, t => do
    let latency ← v.node.layer_latency_ms
    initial_table rest ⟨t.dp.insert v.index latency, t.parent⟩

/-- The first terminal of the least cost. -/
def best_terminal (t : Table) : List Vertex → Option Vertex
  | [] => none
  | v :: rest =>
    some (rest.foldl (fun best w => if t.cost w.index < t.cost best.index then w else best) v)

/-- Follows the parents. A chain has no vertex twice, so the number of nodes bounds it. -/
def reconstruct (parent : Dict Nat Nat) : Nat → Nat → List Nat → List Nat
  | 0, _, path => path
  | fuel + 1, cur, path =>
    match parent.get? cur with
    | none => cur :: path
    | some j => reconstruct parent fuel j (cur :: path)

/-- The cheapest chain of nodes over their ranges. -/
def find_optimal_path (nodes : List Node) (num_layers : Int) :
    Except Exn (List String × Latency) :=
  if num_layers ≤ 0 ∨ nodes = [] then .ok ([], 0)
  else do
    let active := active_vertices nodes
    let t ← initial_table (active.filter (fun v => v.start_layer = 0)) ⟨.empty, .empty⟩
    let t ← relax_all active (sorted_vertices nodes) t
    match best_terminal t (active.filter (fun v => v.end_layer = num_layers)) with
    | none => return ([], ⊤)
    | some v =>
      if t.cost v.index = ⊤ then return ([], ⊤)
      else
        let path := reconstruct t.parent (nodes.length + 1) v.index []
        return (path.filterMap (fun i => (nodes[i]?).map Node.node_id), t.cost v.index)

end DynamicProgrammingRouting

/-! ## The round-robin router -/

/-- The cursor and the pipelines that were found on the first use. -/
structure RoundRobinPipelineRouting where
  rr_cursor : Nat
  pipelines : Option (List (List String))

namespace RoundRobinPipelineRouting

def init : RoundRobinPipelineRouting := ⟨0, none⟩

/-- The nodes with a range that starts at a layer, with its end. -/
def starting_at (nodes : List Node) (layer : Int) : List (Node × Int) :=
  nodes.filterMap (fun n =>
    match n.start_layer, n.end_layer with
    | some start_layer, some end_layer => if start_layer = layer then some (n, end_layer) else none
    | _, _ => none)

/-- Shorter segments first. -/
def by_end (l : List (Node × Int)) : List (Node × Int) := l.insertionSort (fun x y => x.2 ≤ y.2)

/-- All chains from a layer to the last one. The ends go up along a chain, so no node is in it
twice, and the number of nodes bounds its length. -/
def chains (nodes : List Node) (num_layers : Int) : Nat → Int → List String → List (List String)
  | 0, _, _ => []
  | fuel + 1, current_end, path_ids =>
    if current_end = num_layers then [path_ids]
    else
      (by_end ((starting_at nodes current_end).filter (fun x => x.2 > current_end))).flatMap
        (fun x => chains nodes num_layers fuel x.2 (path_ids ++ [x.1.node_id]))

/-- All complete pipelines. -/
def pipeline_discovery (nodes : List Node) (num_layers : Int) : List (List String) :=
  if nodes = [] ∨ num_layers ≤ 0 then []
  else
    (starting_at nodes 0).flatMap
      (fun x => chains nodes num_layers (nodes.length + 1) x.2 [x.1.node_id])

/-- The last node of an id. -/
def node_of (nodes : List Node) (node_id : String) : Option Node :=
  nodes.reverse.find? (fun n => n.node_id = node_id)

/-- The node is there and takes requests. -/
def is_viable_node_id (nodes : List Node) (node_id : String) : Except Exn Bool :=
  match node_of nodes node_id with
  | none => .ok false
  | some node => do
    let overloaded ← node.is_overloaded
    return !overloaded

/-- The prefix is viable, checked in order up to the first failure. -/
def prefix_ok (nodes : List Node) : List String → Except Exn Bool
  | [] => .ok true
  | node_id :: rest => do
    if ← is_viable_node_id nodes node_id then prefix_ok nodes rest else return false

/-- The candidates for the next segment of a repair. -/
def open_candidates (layer : Int) : List (Node × Int) → Except Exn (List (Node × Int))
  | [] => .ok []
  | x :: rest => do
    if x.2 > layer then
      let overloaded ← x.1.is_overloaded
      let others ← open_candidates layer rest
      return if overloaded then others else x :: others
    else open_candidates layer rest

/-- The first candidate with a chain behind it. -/
def first_suffix (search : Int → Except Exn (Option (List String))) :
    List (Node × Int) → Except Exn (Option (List String))
  | [] => .ok none
  | x :: rest => do
    match ← search x.2 with
    | some ids => return some (x.1.node_id :: ids)
    | none => first_suffix search rest

/-- A chain of nodes that take requests, from a layer to the last one. -/
def suffix_from (nodes : List Node) (num_layers : Int) :
    Nat → Int → Except Exn (Option (List String))
  | 0, _ => .ok none
  | fuel + 1, layer =>
    if layer = num_layers then .ok (some [])
    else do
      let candidates ← open_candidates layer (starting_at nodes layer)
      first_suffix (suffix_from nodes num_layers fuel) (by_end candidates)

/-- The layer from which a pipeline is rebuilt behind its first nodes. -/
def split_layer (nodes : List Node) (kept : List String) : Option Int :=
  match kept.getLast? with
  | none => some 0
  | some node_id => (node_of nodes node_id).bind Node.end_layer

/-- Tries the split points from the tail on. The number counts those that are left. -/
def repair_from (candidate_ids : List String) (nodes : List Node) (num_layers : Int) :
    Nat → Except Exn (Option (List String))
  | 0 => .ok none
  | split_idx + 1 => do
    let kept := candidate_ids.take split_idx
    if !(← prefix_ok nodes kept) then repair_from candidate_ids nodes num_layers split_idx
    else
      match split_layer nodes kept with
      | none => repair_from candidate_ids nodes num_layers split_idx
      | some layer =>
        match ← suffix_from nodes num_layers (nodes.length + 1) layer with
        | none => repair_from candidate_ids nodes num_layers split_idx
        | some suffix =>
          let new_pipeline := kept ++ suffix
          return if new_pipeline.isEmpty then none else some new_pipeline

/-- Keeps the longest viable prefix of a pipeline that can be completed. -/
def attempt_repair_pipeline (candidate_ids : List String) (nodes : List Node) (num_layers : Int) :
    Except Exn (Option (List String)) :=
  repair_from candidate_ids nodes num_layers candidate_ids.length

/-- The latency of a pipeline. There is none when a node is missing or overloaded. -/
def path_latency (nodes : List Node) : List String → Option Node → Latency →
    Except Exn (Option Latency)
  | [], _, total => .ok (some total)
  | node_id :: rest, prev, total =>
    match node_of nodes node_id with
    | none => .ok none
    | some node => do
      if ← node.is_overloaded then return none
      else
        let latency ← node.layer_latency_ms
        let hop :=
          match prev with
          | none => 0
          | some prev => if prev.node_id = node.node_id then 0 else prev.get_rtt_to node
        path_latency nodes rest (some node) (total + latency + hop)

/-- A path with a finite latency, when the nodes give it one. -/
def usable_path (nodes : List Node) (ids : List String) : Except Exn (Option (List String × Latency)) := do
  match ← path_latency nodes ids none 0 with
  | none => return none
  | some total => return if total = ⊤ then none else some (ids, total)

abbrev RouteM : Type → Type := EStateM Exn RoundRobinPipelineRouting

def raised {α : Type} (x : Except Exn α) : RouteM α :=
  match x with
  | .ok a => pure a
  | .error e => throw e

/-- Discovers and caches the pipelines when there are none yet. -/
def ensure_pipelines (nodes : List Node) (num_layers : Int) : RouteM (List (List String)) := do
  let router ← get
  match router.pipelines with
  | some pipelines => return pipelines
  | none =>
    let pipelines := pipeline_discovery nodes num_layers
    set { router with pipelines := some pipelines }
    return pipelines

/-- Tries the pipelines from the cursor on, each of them once. -/
def select (nodes : List Node) (num_layers : Int) (pipelines : List (List String)) :
    Nat → RouteM (List String × Latency)
  | 0 => pure ([], ⊤)
  | attempts + 1 => do
    let router ← get
    let candidate_ids := pipelines.getD (router.rr_cursor % pipelines.length) []
    let viable ← raised (usable_path nodes candidate_ids)
    set { router with rr_cursor := router.rr_cursor + 1 }
    match viable with
    | some found => return found
    | none =>
      match ← raised (attempt_repair_pipeline candidate_ids nodes num_layers) with
      | none => select nodes num_layers pipelines attempts
      | some repaired =>
        match ← raised (usable_path nodes repaired) with
        | some found => return found
        | none => select nodes num_layers pipelines attempts

/-- The next pipeline that can take a request, with its latency. -/
def find_optimal_path (nodes : List Node) (num_layers : Int) : RouteM (List String × Latency) := do
  if nodes.isEmpty || num_layers ≤ 0 then return ([], ⊤)
  else
    let pipelines ← ensure_pipelines nodes num_layers
    if pipelines.isEmpty then return ([], ⊤)
    else
      modify (fun router => { router with rr_cursor := router.rr_cursor % pipelines.length })
      select nodes num_layers pipelines pipelines.length

end RoundRobinPipelineRouting

end scheduling.request_routing
