-- The layer allocator (scheduling/layer_allocation.py): it gives each node a
-- range of layers and keeps the load of each layer. Nodes are objects that
-- several containers share, so the state has a store of objects, and the
-- containers hold references into it.
import InferenceMesh.Lib.Heap
import InferenceMesh.Lib.StateExn
import InferenceMesh.Scheduling.Node
import Mathlib.Data.Finset.Erase
import Mathlib.Data.Finset.Insert
import Mathlib.Data.List.Sort
import Mathlib.Data.Prod.Lex

open ordered_dict python binary_heap
open scheduling.model_info scheduling.node

namespace scheduling.layer_allocation

/-- A reference to a node object. -/
abbrev Ref : Type := Nat

/-- The load and hosting power of one layer. -/
structure LayerLoad where
  layer_id : Nat
  current_kv_size : Int
  hosting_nodes : Finset String

/-- How the pipelines of a greedy allocator are balanced. -/
inductive RebalanceStrategy where
  | greedy
  | water_filling
  deriving DecidableEq

/-- The class of the allocator, with the knobs of the greedy one. -/
inductive Strategy where
  | greedy (look_ahead_enable : Bool) (pipeline_rebalance_strategy : RebalanceStrategy)
  | dp
  deriving DecidableEq

/-- The state of the allocator. The loads are listed by layer, and the heap holds layers. -/
structure Allocator where
  store : Ref → Node
  model_info : ModelInfo
  strategy : Strategy
  nodes : List Ref
  layer_to_load : List LayerLoad
  node_id_to_node : Dict String Ref
  embedding_node_ids : List String
  lm_head_node_ids : List String
  /-- The source's `float("inf")` is the top. -/
  rebalance_threshold : WithTop Rat
  water_filling_max_iterations : Nat
  assign_left_over_nodes : Bool
  node_allocation : Dict String (Int × Int)
  layer_loads_heap : List Nat

abbrev AllocM : Type → Type := EStateM Exn Allocator

/-- The layers of a range: `range(start_layer, end_layer)`. -/
def layer_range (start_layer end_layer : Int) : List Int :=
  (List.range (end_layer - start_layer).toNat).map (fun k : Nat => start_layer + (k : Int))

/-- `sorted(..., key=..., reverse=True)`: descending, and stable. -/
def sorted_desc (key : Ref → Int) (l : List Ref) : List Ref :=
  l.insertionSort (fun a b => key b ≤ key a)

namespace Allocator

variable (a : Allocator)

def num_total_layers : Int := a.model_info.num_layers

def capacity (r : Ref) : Int := (a.store r).capacity

def node_id (r : Ref) : String := (a.store r).node_id

/-- The order of the heap: less memory first, then the lower layer. -/
def load_key (layer_id : Nat) : Int ×ₗ Nat :=
  toLex (((a.layer_to_load[layer_id]?).map LayerLoad.current_kv_size).getD 0, layer_id)

/-- Rebuilds the heap of the layer loads. -/
def update_layer_loads_heap : Allocator :=
  { a with layer_loads_heap := heapify a.load_key (a.layer_to_load.map LayerLoad.layer_id) }

def set_node (r : Ref) (n : Node) : Allocator := { a with store := Function.update a.store r n }

def sort_nodes : Allocator := { a with nodes := sorted_desc a.capacity a.nodes }

/-- The allocator over the given nodes. -/
def init (store : Ref → Node) (model_info : ModelInfo) (strategy : Strategy) (nodes : List Ref)
    (rebalance_threshold : WithTop Rat) (water_filling_max_iterations : Nat)
    (assign_left_over_nodes : Bool) : Allocator :=
  let sorted := sorted_desc (fun r => (store r).capacity) nodes
  update_layer_loads_heap
    { store, model_info, strategy
      nodes := sorted
      layer_to_load := (List.range model_info.num_layers).map (fun l => ⟨l, 0, ∅⟩)
      node_id_to_node := Dict.insertAll (fun r => (store r).node_id) sorted .empty
      embedding_node_ids := []
      lm_head_node_ids := []
      rebalance_threshold, water_filling_max_iterations, assign_left_over_nodes
      node_allocation := .empty
      layer_loads_heap := [] }

/-- The range is one of layers of the model, and has at least one of them. -/
def validate_allocation (start_layer end_layer : Int) : Bool :=
  if start_layer < 0 || end_layer > a.num_total_layers then false
  else if start_layer ≥ end_layer then false
  else true

/-- The lightest layer, when there is any. -/
def get_lightest_layer : Option Nat := a.layer_loads_heap.head?

/-- The end of the range of a node that joins at the given layer. -/
def adjust_end_layer_for_tail (n : Node) (proposed_start_layer : Int) : Int :=
  let include_input_embed := decide (proposed_start_layer = 0)
  let node_capacity := n.get_decoder_layer_capacity include_input_embed false
  let end_layer := min (proposed_start_layer + node_capacity) a.num_total_layers
  if end_layer = a.num_total_layers then
    let adjusted_capacity := n.get_decoder_layer_capacity include_input_embed true
    min (proposed_start_layer + adjusted_capacity) a.num_total_layers
  else end_layer

/-- The allocated nodes with the layer at which each of them starts. -/
def start_to_nodes (active_only : Bool) : List (Int × Ref) :=
  a.node_allocation.items.filterMap (fun x =>
    match a.node_id_to_node.get? x.1 with
    | none => none
    | some r => if active_only && !(a.store r).is_active then none else some (x.2.1, r))

/-- A chain of nodes leads from a layer to the end. Each step of the search goes up by at least
one layer, so the layers that are left bound its depth. -/
def can_reach_target (index : List (Int × Ref)) : Nat → Int → Bool
  | 0, _ => false
  | fuel + 1, current_end =>
    if current_end ≥ a.num_total_layers then decide (current_end = a.num_total_layers)
    else
      index.any (fun x => x.1 = current_end &&
        match (a.store x.2).end_layer with
        | none => false
        | some e => e ≠ 0 && e > current_end && can_reach_target index fuel e)

/-- The bound on the depth of the search from a layer. -/
def layers_left (layer : Int) : Nat := (a.num_total_layers - layer).toNat + 1

/-- There is a chain of contiguous ranges from layer 0 to the last layer. -/
def has_full_pipeline (active_only : Bool) : Bool :=
  let index := a.start_to_nodes active_only
  index.any (fun x => x.1 = 0 &&
    match (a.store x.2).end_layer with
    | none => false
    | some e => e ≠ 0 && a.can_reach_target index (a.layers_left e) e)

/-- `sqrt(v) > x`, without the root. -/
def sqrt_gt (v x : Rat) : Bool := x < 0 || x * x < v

/-- `sqrt(v) < x`, without the root. -/
def sqrt_lt (v x : Rat) : Bool := 0 < x && v < x * x

/-- The coefficient of variation of the loads is above the threshold. -/
def imbalanced (loads : List Rat) : Bool :=
  let avg_load := loads.sum / loads.length
  if avg_load = 0 then false
  else
    let variance := (loads.map (fun load => (load - avg_load) * (load - avg_load))).sum / loads.length
    match a.rebalance_threshold with
    | none => false
    | some t =>
      if avg_load > 0 then sqrt_gt variance (t * avg_load) else sqrt_lt variance (t * avg_load)

/-- No full pipeline, or loads that are too uneven. -/
def should_global_rebalance : Except Exn Bool :=
  if !a.has_full_pipeline false then .ok true
  else if a.layer_loads_heap.length < 2 then .ok false
  else
    let total_cluster_memory := (a.nodes.map (fun r =>
      ((a.store r).hardware.num_gpus * (a.store r).hardware.memory_gb : Rat))).sum
    if total_cluster_memory = 0 then .error (.ValueError "Total cluster memory is zero")
    else
      .ok (a.imbalanced (a.layer_loads_heap.map (fun l =>
        (((a.layer_to_load[l]?).map LayerLoad.current_kv_size).getD 0 : Int) /
          total_cluster_memory)))

/-- The allocations by start, end and id. -/
def list_node_allocations : List (String × Int × Int) :=
  a.node_allocation.items.insertionSort (fun x y =>
    x.2.1 < y.2.1 ∨ (x.2.1 = y.2.1 ∧ (x.2.2 < y.2.2 ∨ (x.2.2 = y.2.2 ∧ x.1 ≤ y.1))))

/-- The bookkeeping of an allocation, before the layers are loaded. -/
def record_allocation (r : Ref) (start_layer end_layer : Int) : Allocator :=
  let n := a.store r
  { a with
    node_id_to_node := a.node_id_to_node.insert n.node_id r
    store := Function.update a.store r (n.set_layer_allocation start_layer end_layer)
    node_allocation := a.node_allocation.insert n.node_id (start_layer, end_layer)
    embedding_node_ids :=
      if start_layer = 0 then a.embedding_node_ids ++ [n.node_id] else a.embedding_node_ids
    lm_head_node_ids :=
      if end_layer = a.num_total_layers then a.lm_head_node_ids ++ [n.node_id]
      else a.lm_head_node_ids }

/-- The bookkeeping of a deallocation, before the layers are unloaded. -/
def forget_allocation (r : Ref) : Allocator :=
  let n := a.store r
  { a with
    node_allocation := a.node_allocation.erase n.node_id
    embedding_node_ids := a.embedding_node_ids.erase n.node_id
    lm_head_node_ids := a.lm_head_node_ids.erase n.node_id }

/-- The last part of a deallocation. -/
def clear_node (r : Ref) : Allocator :=
  update_layer_loads_heap
    (a.set_node r { (a.store r).clear_layer_allocation with is_active := false })

/-- A new node at the end of the list. -/
def register (r : Ref) : Allocator :=
  { a with
    nodes := a.nodes ++ [r]
    node_id_to_node := a.node_id_to_node.insert (a.node_id r) r }

/-- The node of an id taken out of the map and out of the list. -/
def unregister (node_id : String) : Allocator :=
  { a with
    node_id_to_node := a.node_id_to_node.erase node_id
    nodes := a.nodes.eraseP (fun r => a.node_id r = node_id) }

def modify_load (l : Nat) (f : LayerLoad → LayerLoad) : Allocator :=
  { a with layer_to_load := a.layer_to_load.modify l f }

end Allocator

/-! ## One node -/

def no_kv_cache_memory : Exn := .ValueError "Node must have per_decoder_layer_kv_cache_memory"

/-- Adds a node's contribution to the load of a layer. -/
def add_node (l : Nat) (n : Node) : AllocM Unit := do
  modify (fun a => a.modify_load l (fun x =>
    { x with hosting_nodes := insert n.node_id x.hosting_nodes }))
  match n.per_decoder_layer_kv_cache_memory with
  | none => throw no_kv_cache_memory
  | some kv =>
    modify (fun a => a.modify_load l (fun x => { x with current_kv_size := x.current_kv_size + kv }))

/-- Removes a node from the load of a layer. -/
def remove_node (l : Nat) (n : Node) : AllocM Unit := do
  let a ← get
  if (a.layer_to_load[l]?).any (fun x => n.node_id ∈ x.hosting_nodes) then
    modify (fun a => a.modify_load l (fun x =>
      { x with hosting_nodes := x.hosting_nodes.erase n.node_id }))
    match n.per_decoder_layer_kv_cache_memory with
    | none => throw no_kv_cache_memory
    | some kv =>
      modify (fun a => a.modify_load l (fun x =>
        { x with current_kv_size := x.current_kv_size - kv }))

/-- The index of a layer among the loads, when there is one. -/
def Allocator.layer_index (a : Allocator) (layer_id : Int) : Option Nat :=
  if 0 ≤ layer_id ∧ layer_id < a.layer_to_load.length then some layer_id.toNat else none

def load_layer (r : Ref) (layer_id : Int) : AllocM Unit := do
  let a ← get
  match a.layer_index layer_id with
  | none => throw (.ValueError s!"Layer {layer_id} not found in layer_to_load")
  | some l => add_node l (a.store r)

def unload_layer (r : Ref) (layer_id : Int) : AllocM Unit := do
  let a ← get
  match a.layer_index layer_id with
  | none => pure ()
  | some l => remove_node l (a.store r)

/-- Allocates a node to a range of layers. -/
def allocate (r : Ref) (start_layer end_layer : Int) : AllocM Unit := do
  if end_layer ≤ start_layer then
    throw (.ValueError
      s!"Invalid allocation: start_layer {start_layer} >= end_layer {end_layer}")
  modify (fun a => a.record_allocation r start_layer end_layer)
  (layer_range start_layer end_layer).forM (load_layer r)
  modify Allocator.update_layer_loads_heap

/-- Deallocates a node from its layers. -/
def deallocate (r : Ref) : AllocM Unit := do
  let a ← get
  match (a.store r).start_layer, (a.store r).end_layer with
  | some start_layer, some end_layer =>
    modify (fun a => a.forget_allocation r)
    (layer_range start_layer end_layer).forM (unload_layer r)
    modify (fun a => a.clear_node r)
  | _, _ => pure ()

def reallocate (r : Ref) (start_layer end_layer : Int) : AllocM Unit := do
  deallocate r
  allocate r start_layer end_layer

/-- Declares a node to the allocator. -/
def declare (r : Ref) : AllocM Unit :=
  modify (fun a =>
    Allocator.sort_nodes (if a.node_id_to_node.has (a.node_id r) then a else a.register r))

/-- Assigns layers to a new node, from the lightest layer on. -/
def join (r : Ref) : AllocM Unit := do
  declare r
  let a ← get
  match a.get_lightest_layer with
  | none => throw (.ValueError "No layers to assign")
  | some lightest_layer =>
    allocate r lightest_layer (a.adjust_end_layer_for_tail (a.store r) lightest_layer)

/-- Removes a node. -/
def leave (node_id : String) : AllocM Unit := do
  let a ← get
  match a.node_id_to_node.get? node_id with
  | none => throw (.ValueError s!"Node {node_id} not found in allocation")
  | some r =>
    deallocate r
    modify (fun a => a.unregister node_id)

/-- Joins a node that has no allocation yet. A node that cannot join is skipped. -/
def join_left_over (r : Ref) : AllocM Unit := do
  let a ← get
  if a.node_allocation.has (a.node_id r) then pure ()
  else tryCatch (join r) (fun _ => pure ())

def allocate_left_over_nodes : AllocM Unit := do
  let a ← get
  (sorted_desc a.capacity a.nodes).forM join_left_over

end scheduling.layer_allocation
