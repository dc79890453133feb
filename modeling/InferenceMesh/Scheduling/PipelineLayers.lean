-- The split of the layers over one pipeline (scheduling/layer_allocation.py,
-- `adjust_pipeline_layers` and its greedy variant). Water-filling shares the
-- layers out by compute power, under the capacity of each node.
import InferenceMesh.Scheduling.LayerAllocation

open ordered_dict python
open scheduling.model_info scheduling.node

namespace scheduling.layer_allocation

/-! ## Water-filling -/

/-- The layers that a water level gives: `sum(min(caps[i], lmbd * compute_powers[i]))`. -/
def total_at (caps : List Int) (compute_powers : List ℚ≥0) (lmbd : Rat) : Rat :=
  (List.zipWith (fun (cap : Int) (power : ℚ≥0) => min (cap : Rat) (lmbd * power)) caps compute_powers).sum

/-- The bisection of the water level. -/
def bisect (caps : List Int) (compute_powers : List ℚ≥0) (total_layers : Int) :
    Nat → Rat → Rat → Rat
  | 0, _, hi => hi
  | n + 1, lo, hi =>
    let mid := 1 / 2 * (lo + hi)
    if total_at caps compute_powers mid ≥ total_layers then
      bisect caps compute_powers total_layers n lo mid
    else bisect caps compute_powers total_layers n mid hi

/-- The first upper bound of the level: `max(caps[i] / compute_powers[i])`. -/
def highest_level (caps : List Int) (compute_powers : List ℚ≥0) : Except Exn Rat :=
  if compute_powers.any (fun power => power = 0) then
    .error (.ZeroDivisionError "float division by zero")
  else
    match List.zipWith (fun (cap : Int) (power : ℚ≥0) => (cap : Rat) / power) caps compute_powers with
    | [] => .error (.ValueError "max() arg is an empty sequence")
    | x :: rest => .ok (rest.foldl max x)

/-- The order of the remainders: the largest first, and the earlier stage of two equal ones. -/
def by_remainder (x y : Rat × Nat) : Prop := y.1 < x.1 ∨ (y.1 = x.1 ∧ x.2 ≤ y.2)

instance : DecidableRel by_remainder := fun x y =>
  inferInstanceAs (Decidable (y.1 < x.1 ∨ (y.1 = x.1 ∧ x.2 ≤ y.2)))

/-- One more layer for each stage with room, in the given order, as long as layers remain. -/
def give_remaining (caps : List Int) : List Nat → List Int → Int → List Int
  | [], counts, _ => counts
  | i :: rest, counts, remaining =>
    if remaining = 0 then counts
    else if caps.getD i 0 - counts.getD i 0 > 0 then
      give_remaining caps rest (counts.modify i (· + 1)) (remaining - 1)
    else give_remaining caps rest counts remaining

/-- What is left over the capacities goes to the stages with room, the first ones first. -/
def give_extra : List Int → List Int → Int → List Int
  | cap :: caps, count :: counts, extra =>
    if extra = 0 then count :: counts
    else
      let take := min (cap - count) extra
      (count + take) :: give_extra caps counts (extra - take)
  | _, counts, _ => counts

/-- The clamp to the capacities. -/
def clamp (caps counts : List Int) : List Int :=
  let extra := (List.zipWith (fun cap count => max 0 (count - cap)) caps counts).sum
  let clamped := List.zipWith (fun cap count => min cap count) caps counts
  if extra > 0 then give_extra caps clamped extra else clamped

/-- The whole layers of each stage, before the remainders are given out. -/
def floor_counts (caps : List Int) (target : List Rat) : List Int :=
  List.zipWith (fun cap t => min cap ⌊t⌋) caps target

/-- The stages by the size of their remainder. -/
def remainder_order (target : List Rat) (counts : List Int) : List Nat :=
  ((List.zipWith (fun (t : Rat) (count : Int) => t - (count : Rat)) target counts).zipIdx.insertionSort
    by_remainder).map Prod.snd

/-- How many layers each stage of a pipeline gets. -/
def stage_layer_counts (caps : List Int) (compute_powers : List ℚ≥0) (total_layers : Int)
    (max_iterations : Nat) : Except Exn (List Int) :=
  if caps.sum < total_layers then
    .error (.ValueError
      s!"Total capacity {caps.sum} is less than total layers {total_layers}")
  else
    match highest_level caps compute_powers with
    | .error e => .error e
    | .ok hi =>
      let lam := bisect caps compute_powers total_layers max_iterations 0 hi
      let target :=
        List.zipWith (fun (cap : Int) (power : ℚ≥0) => min (cap : Rat) (lam * power)) caps
          compute_powers
      let counts := floor_counts caps target
      let remaining := total_layers - counts.sum
      if remaining > 0 then
        .ok (clamp caps (give_remaining caps (remainder_order target counts) counts remaining))
      else if remaining < 0 then .error (.ValueError s!"Remaining {remaining} is negative")
      else .ok (clamp caps counts)

/-! ## One pipeline -/

/-- The capacity of each stage: the first node keeps room for the input embedding, and the last
one for the LM head. The only node of a pipeline is its first. -/
def stage_capacities (node : Ref → Node) (nodes : List Ref) : List Int :=
  nodes.zipIdx.map (fun x =>
    if x.2 = 0 then (node x.1).get_decoder_layer_capacity true false
    else if x.2 = nodes.length - 1 then (node x.1).get_decoder_layer_capacity false true
    else (node x.1).get_decoder_layer_capacity false false)

/-- The first node whose stage has no room. -/
def full_stage (nodes : List Ref) (caps : List Int) : Option (Ref × Int) :=
  (nodes.zip caps).find? (fun x => x.2 ≤ 0)

def deallocate_all (nodes : List Ref) : AllocM Unit :=
  nodes.forM (fun r => do
    let a ← get
    if (a.store r).is_allocated then deallocate r)

/-- Gives out contiguous ranges in stage order, and returns the layer they reach. -/
def apply_stages : List (Ref × Int) → Int → AllocM Int
  | [], start_layer => pure start_layer
  | (r, layers) :: rest, start_layer => do
    if layers ≤ 0 then apply_stages rest start_layer
    else
      allocate r start_layer (start_layer + layers)
      apply_stages rest (start_layer + layers)

/-- What the layers are shared out by. -/
inductive PowerType where
  | flops
  | bandwidth
  deriving DecidableEq

def compute_power (power_type : PowerType) (n : Node) : ℚ≥0 :=
  match power_type with
  | .flops => n.hardware.tflops_fp16
  | .bandwidth => n.hardware.memory_bandwidth_gbps

/-- The split of all layers over stages that have no range yet. -/
def split_layers (nodes : List Ref) (power_type : PowerType) : AllocM Unit := do
  let a ← get
  let caps := stage_capacities a.store nodes
  match full_stage nodes caps with
  | some (r, cap) =>
    throw (.ValueError s!"Node {a.node_id r} has non-positive capacity: {cap}")
  | none =>
    match stage_layer_counts caps (nodes.map (fun r => compute_power power_type (a.store r)))
        a.num_total_layers a.water_filling_max_iterations with
    | .error e => throw e
    | .ok counts =>
      let start_layer ← apply_stages (nodes.zip counts) 0
      if start_layer ≠ a.num_total_layers then
        throw (.ValueError
          s!"Assignment did not cover all layers: assigned {start_layer} of {a.num_total_layers}")

/-- Rebalances one pipeline in place by water-filling. -/
def adjust_pipeline_layers (pipeline_nodes : List Ref) (assume_sorted : Bool)
    (power_type : PowerType) : AllocM Unit := do
  let a ← get
  if pipeline_nodes.isEmpty || a.num_total_layers ≤ 0 then
    throw (.ValueError "No nodes or total layers is non-positive")
  else
    let nodes := if assume_sorted then pipeline_nodes else sorted_desc a.capacity pipeline_nodes
    deallocate_all nodes
    split_layers nodes power_type

/-- How many of the remaining layers a node takes that starts at the given layer: the LM head
counts when the node could close the pipeline. -/
def greedy_layers (n : Node) (start_layer remaining_layers : Int) : Int :=
  let include_input_embed := decide (start_layer = 0)
  let base_cap := n.get_decoder_layer_capacity include_input_embed false
  if base_cap ≥ remaining_layers then
    min (n.get_decoder_layer_capacity include_input_embed true) remaining_layers
  else min base_cap remaining_layers

/-- Gives each node as many layers as it can hold, and returns the layers that remain. -/
def apply_greedy : List Ref → Int → Int → AllocM Int
  | [], _, remaining_layers => pure remaining_layers
  | r :: rest, start_layer, remaining_layers => do
    let a ← get
    let assign_layers := greedy_layers (a.store r) start_layer remaining_layers
    if assign_layers ≤ 0 then apply_greedy rest start_layer remaining_layers
    else
      allocate r start_layer (start_layer + assign_layers)
      if remaining_layers - assign_layers = 0 then pure 0
      else apply_greedy rest (start_layer + assign_layers) (remaining_layers - assign_layers)

/-- The greedy variant: as many layers to each node as it can hold. -/
def adjust_pipeline_layers_greedy (pipeline_nodes : List Ref) : AllocM Unit := do
  let a ← get
  if pipeline_nodes.isEmpty || a.num_total_layers ≤ 0 then
    throw (.ValueError "No nodes or total layers is non-positive")
  else
    deallocate_all pipeline_nodes
    let remaining_layers ← apply_greedy pipeline_nodes 0 a.num_total_layers
    if remaining_layers ≠ 0 then
      throw (.ValueError
        s!"Greedy assignment did not cover all layers: remaining {remaining_layers}")

end scheduling.layer_allocation
