-- The static allocation (scheduling/layer_allocation.py, the greedy and the
-- dynamic-programming `global_allocation`). Both search for pipelines by
-- capacity alone, and then split the layers over each pipeline in turn.
import InferenceMesh.Scheduling.PipelineLayers

open ordered_dict python
open scheduling.model_info scheduling.node

namespace scheduling.layer_allocation

/-! ## The greedy search -/

/-- The smallest node that completes a pipeline by itself and leaves enough for another one: the
last such index. -/
def best_fit (a : Allocator) (available_nodes : List Ref) (remaining_layers total_capacity : Int) :
    Option Nat :=
  (available_nodes.zipIdx.filter (fun x =>
    let node_i_capacity := (a.store x.1).get_decoder_layer_capacity false true
    node_i_capacity ≥ remaining_layers &&
      total_capacity - node_i_capacity ≥ a.num_total_layers)).getLast?.map Prod.snd

/-- Adds nodes to a pipeline until its layers are covered or no node is left. Returns the
pipeline, the layers that remain and the nodes that are left. -/
def grow_pipeline (a : Allocator) (look_ahead_enabled : Bool) :
    Nat → List Ref → Int → Int → List Ref → List Ref × Int × List Ref
  | 0, pipeline_nodes, remaining_layers, _, available_nodes =>
    (pipeline_nodes, remaining_layers, available_nodes)
  | fuel + 1, pipeline_nodes, remaining_layers, total_capacity, available_nodes =>
    if remaining_layers > 0 then
      match available_nodes with
      | [] => (pipeline_nodes, remaining_layers, available_nodes)
      | first :: _ =>
        let is_start := pipeline_nodes.isEmpty
        let look_ahead_possible := look_ahead_enabled && is_start &&
          total_capacity - remaining_layers ≥ a.num_total_layers + 1
        let idx :=
          if look_ahead_possible then
            (best_fit a available_nodes remaining_layers total_capacity).getD 0
          else 0
        let node_to_add := available_nodes.getD idx first
        let node := a.store node_to_add
        let node_capacity := node.get_decoder_layer_capacity is_start false
        let node_capacity :=
          if remaining_layers - node_capacity ≤ 0 then node.get_decoder_layer_capacity is_start true
          else node_capacity
        grow_pipeline a look_ahead_enabled fuel (pipeline_nodes ++ [node_to_add])
          (remaining_layers - node_capacity) (total_capacity - node_capacity)
          (available_nodes.eraseIdx idx)
    else (pipeline_nodes, remaining_layers, available_nodes)

/-- The pipelines that the greedy search builds, one after the other. -/
def greedy_pipelines (a : Allocator) (look_ahead_enabled : Bool) : Nat → List Ref → List (List Ref)
  | 0, _ => []
  | fuel + 1, available_nodes =>
    let total_remaining_capacity := (available_nodes.map a.capacity).sum
    if available_nodes.isEmpty || total_remaining_capacity < a.num_total_layers then []
    else
      match grow_pipeline a look_ahead_enabled available_nodes.length [] a.num_total_layers
          total_remaining_capacity available_nodes with
      | (pipeline_nodes, remaining_layers, left) =>
        if remaining_layers ≤ 0 && !pipeline_nodes.isEmpty then
          pipeline_nodes :: greedy_pipelines a look_ahead_enabled fuel left
        else []

/-! ## The dynamic-programming search -/

/-- The capacities of a node: inside a pipeline, at its end and at its start. -/
structure Caps where
  norm : Int
  close : Int
  start : Int
  deriving DecidableEq

def caps_of (n : Node) : Caps :=
  ⟨n.get_decoder_layer_capacity false false, n.get_decoder_layer_capacity false true,
    n.get_decoder_layer_capacity true false⟩

/-- What the search does with a node. -/
inductive Action where
  | done
  | skip
  | assign (j : Nat) (closed : Bool)
  | start (r_new : Int) (closed : Bool)
  deriving DecidableEq, Repr

/-- A state of the search: the node, the residuals of the open pipelines, and how many are
finished. -/
abbrev Key : Type := Nat × List Int × Nat

/-- A number of stages, with infinity as its top. -/
abbrev Cost : Type := WithTop Nat

/-- The memory of the search: the costs it has returned, and the best action of each state. -/
structure Memo where
  cache : Dict Key Cost
  path : Dict Key Action

abbrev Search : Type → Type := StateM Memo

def sorted_residuals (l : List Int) : List Int := l.insertionSort (· ≤ ·)

/-- Takes a cost that is better than the best one so far. -/
def better (best : Cost × Action) (cost : Cost) (action : Action) : Cost × Action :=
  if cost < best.1 then (cost, action) else best

/-- The state after node `c` goes to the open pipeline `j` with residual `rj`, and whether that
closes it. -/
def assign_to (c : Caps) (open_residuals : List Int) (finished_pipes j : Nat) (rj : Int) :
    List Int × Nat × Bool :=
  if rj - c.norm ≤ 0 then
    if rj - c.close ≤ 0 then (open_residuals.eraseIdx j, finished_pipes + 1, true)
    else (sorted_residuals (open_residuals.set j (rj - c.close)), finished_pipes, false)
  else (sorted_residuals (open_residuals.set j (rj - c.norm)), finished_pipes, false)

/-- The state after node `c` starts a new pipeline, its residual, and whether that closes it. -/
def start_with (c : Caps) (num_layers : Int) (open_residuals : List Int) (finished_pipes : Nat) :
    List Int × Nat × Int × Bool :=
  let r_new := num_layers - c.start
  if r_new ≤ 0 then (open_residuals, finished_pipes + 1, 0, true)
  else (sorted_residuals (open_residuals ++ [r_new]), finished_pipes, r_new, false)

/-- Tries the open pipelines in turn. `next` is the search from the next node on. -/
def try_assign (next : List Int → Nat → Search Cost) (c : Caps) (open_residuals : List Int)
    (finished_pipes : Nat) : List (Int × Nat) → Cost × Action → Search (Cost × Action)
  | [], best => pure best
  | (rj, j) :: rest, best => do
    let after := assign_to c open_residuals finished_pipes j rj
    let cost ← next after.1 after.2.1
    try_assign next c open_residuals finished_pipes rest
      (better best (1 + cost) (.assign j after.2.2))

/-- Tries to start a new pipeline, when more of them are needed. -/
def try_start (next : List Int → Nat → Search Cost) (c : Caps) (num_layers : Int)
    (open_residuals : List Int) (finished_pipes : Nat) (new_needed : Int) (best : Cost × Action) :
    Search (Cost × Action) := do
  if new_needed > 0 then
    let after := start_with c num_layers open_residuals finished_pipes
    let cost ← next after.1 after.2.1
    return better best (1 + cost) (.start after.2.2.1 after.2.2.2)
  else return best

/-- The least number of stages that complete `k_target` pipelines with the nodes from `i` on. -/
def dp (k_target : Nat) (num_layers : Int) :
    List Caps → Nat → List Int → Nat → Search Cost
  | nodes, i, open_residuals, finished_pipes => do
    let memo ← get
    match memo.cache.get? (i, open_residuals, finished_pipes) with
    | some cost => return cost
    | none =>
      let cost ←
        if finished_pipes = k_target ∧ open_residuals = [] then do
          modify (fun m => { m with path := m.path.insert (i, open_residuals, finished_pipes) .done })
          pure (0 : Cost)
        else
          match nodes with
          | [] => pure ⊤
          | c :: rest =>
            let new_needed : Int := (k_target : Int) - finished_pipes - open_residuals.length
            let remaining_cap := ((c :: rest).map Caps.norm).sum
            if new_needed < 0 ∨
                remaining_cap < open_residuals.sum + max 0 new_needed * num_layers ∨
                finished_pipes + open_residuals.length + (c :: rest).length < k_target then
              pure ⊤
            else do
              let next := dp k_target num_layers rest (i + 1)
              let skipped ← next open_residuals finished_pipes
              let best ← try_assign next c open_residuals finished_pipes open_residuals.zipIdx
                (skipped, .skip)
              let best ← try_start next c num_layers open_residuals finished_pipes new_needed best
              modify (fun m =>
                { m with path := m.path.insert (i, open_residuals, finished_pipes) best.2 })
              pure best.1
      modify (fun m => { m with cache := m.cache.insert (i, open_residuals, finished_pipes) cost })
      return cost

/-- The best number of pipelines so far, with its score and its memory. -/
structure Best where
  num_pipes : Nat
  score : Option Rat
  path : Dict Key Action

/-- Tries the numbers of pipelines in turn, by the score k^2 / s. -/
def best_of (caps : List Caps) (num_layers : Int) : List Nat → Best → Best
  | [], best => best
  | k_target :: rest, best =>
    let result := (dp k_target num_layers caps 0 [] 0).run ⟨.empty, .empty⟩
    let best :=
      match (result.1 : Option Nat) with
      | none => best
      | some s_star =>
        let score : Rat := (k_target * k_target : Nat) / (s_star : Rat)
        if (best.score.map (fun b => decide (score > b))).getD true then
          ⟨k_target, some score, result.2.path⟩
        else best
    best_of caps num_layers rest best

/-- An open pipeline: its residual and its nodes. -/
abbrev Open : Type := Int × List Ref

/-- Follows the actions of the search, and returns the pipelines in the order they close. -/
def backtrack (a : Allocator) (path : Dict Key Action) (best_num_pipes : Nat) :
    List Ref → Nat → List Open → List (List Ref) → Except Exn (List (List Ref))
  | [], _, _, pipelines => .ok pipelines
  | r :: rest, i, open_list, pipelines =>
    if pipelines.length < best_num_pipes then
      match path.get? (i, sorted_residuals (open_list.map Prod.fst), pipelines.length) with
      | none => .ok pipelines
      | some .skip => backtrack a path best_num_pipes rest (i + 1) open_list pipelines
      | some .done => backtrack a path best_num_pipes rest (i + 1) open_list pipelines
      | some (.assign j closed) =>
        let open_list := open_list.insertionSort (fun x y => x.1 ≤ y.1)
        match open_list[j]? with
        | none => .error (.IndexError "list index out of range")
        | some (rj, nodes_seq) =>
          let c := caps_of (a.store r)
          let r_after := if rj - c.norm ≤ 0 then rj - c.close else rj - c.norm
          if r_after ≤ 0 ∨ closed then
            backtrack a path best_num_pipes rest (i + 1) (open_list.eraseIdx j)
              (pipelines ++ [nodes_seq ++ [r]])
          else
            backtrack a path best_num_pipes rest (i + 1)
              (open_list.set j (r_after, nodes_seq ++ [r])) pipelines
      | some (.start r_new closed) =>
        if closed then
          backtrack a path best_num_pipes rest (i + 1) open_list (pipelines ++ [[r]])
        else backtrack a path best_num_pipes rest (i + 1) (open_list ++ [(r_new, [r])]) pipelines
    else .ok pipelines

/-- The pipelines of the dynamic-programming search. `none` is the exit without enough memory or
without a feasible number of pipelines. -/
def dp_pipelines (a : Allocator) : Except Exn (Option (List (List Ref))) :=
  let total_cap := (a.nodes.map a.capacity).sum
  if a.num_total_layers ≤ 0 ∨ a.nodes = [] ∨ total_cap < a.num_total_layers then .ok none
  else
    let max_num_pipes := min a.nodes.length (Int.fdiv total_cap a.num_total_layers).toNat
    let best := best_of (a.nodes.map (fun r => caps_of (a.store r))) a.num_total_layers
      (List.range' 1 max_num_pipes) ⟨0, none, .empty⟩
    if best.num_pipes = 0 then .ok none
    else
      match backtrack a best.path best.num_pipes a.nodes 0 [] [] with
      | .error e => .error e
      | .ok pipelines => .ok (some pipelines)

/-! ## The allocation -/

/-- Splits the layers over one pipeline of the greedy search. -/
def adjust_by (rebalance_strategy : RebalanceStrategy) (pipeline_nodes : List Ref) : AllocM Unit :=
  match rebalance_strategy with
  | .greedy => adjust_pipeline_layers_greedy pipeline_nodes
  | .water_filling => adjust_pipeline_layers pipeline_nodes false .flops

/-- The greedy allocation. -/
def greedy_global_allocation (look_ahead_enabled : Bool) (rebalance_strategy : RebalanceStrategy) :
    AllocM Bool := do
  let a ← get
  let pipelines := greedy_pipelines a look_ahead_enabled a.nodes.length a.nodes
  pipelines.forM (adjust_by rebalance_strategy)
  let a ← get
  if pipelines.isEmpty || !a.has_full_pipeline false then return false
  else if a.assign_left_over_nodes then
    allocate_left_over_nodes
    return true
  else return true

/-- The dynamic-programming allocation. -/
def dp_global_allocation : AllocM Bool := do
  let a ← get
  match dp_pipelines a with
  | .error e => throw e
  | .ok none => return false
  | .ok (some pipelines) =>
    pipelines.forM (adjust_by .water_filling)
    if a.assign_left_over_nodes then allocate_left_over_nodes else pure ()
    let a ← get
    return a.has_full_pipeline false

/-- Static assignment of the existing nodes. Returns whether there is a full pipeline. -/
def global_allocation : AllocM Bool := do
  let a ← get
  match a.strategy with
  | .greedy look_ahead_enable pipeline_rebalance_strategy =>
    greedy_global_allocation look_ahead_enable pipeline_rebalance_strategy
  | .dp => dp_global_allocation

end scheduling.layer_allocation
