-- Chains of nodes. A request visits nodes whose ranges follow each other from
-- the first layer to the end of the model, and pays for each node and each hop.
import InferenceMesh.Scheduling.Bookkeeping
import InferenceMesh.Scheduling.RequestRouting

open scheduling.node

namespace scheduling.request_routing

/-- The ranges of the nodes follow each other from one layer to another. -/
def Tiles : Int → List Node → Int → Prop
  | layer, [], target => layer = target
  | layer, n :: rest, target => n.start_layer = some layer ∧
      match n.end_layer with
      | none => False
      | some end_layer => Tiles end_layer rest target

instance : (layer : Int) → (nodes : List Node) → (target : Int) → Decidable (Tiles layer nodes target)
  | layer, [], target => inferInstanceAs (Decidable (layer = target))
  | _, n :: rest, target =>
    have : Decidable (match n.end_layer with
        | none => False
        | some end_layer => Tiles end_layer rest target) :=
      match n.end_layer with
      | none => inferInstanceAs (Decidable False)
      | some end_layer => instDecidableTiles end_layer rest target
    inferInstanceAs (Decidable (_ ∧ _))

/-- What a request pays on a chain: the latency of each node, and the hops between them. -/
def chain_cost (latency : Node → Latency) : List Node → Latency
  | [] => 0
  | [n] => latency n
  | n :: m :: rest => latency n + n.get_rtt_to m + chain_cost latency (m :: rest)

/-- No range is empty or goes backwards. -/
def Ascending (nodes : List Node) : Prop :=
  ∀ n ∈ nodes, ∀ start_layer end_layer, n.start_layer = some start_layer →
    n.end_layer = some end_layer → start_layer < end_layer

section tiles

variable {nodes : List Node} {layer target : Int}

theorem tiles_cons {n : Node} {rest : List Node} : Tiles layer (n :: rest) target ↔
    n.start_layer = some layer ∧ ∃ e, n.end_layer = some e ∧ Tiles e rest target := by
  rw [Tiles]
  rcases n.end_layer with _ | e
  · simp
  · simp

theorem tiles_append {rest : List Node} :
    Tiles layer (nodes ++ rest) target ↔ ∃ mid, Tiles layer nodes mid ∧ Tiles mid rest target := by
  induction nodes generalizing layer with
  | nil => simp [Tiles]
  | cons n nodes ih =>
    rw [List.cons_append, tiles_cons]
    constructor
    · rintro ⟨hs, e, he, h⟩
      obtain ⟨mid, hleft, hright⟩ := ih.mp h
      exact ⟨mid, tiles_cons.mpr ⟨hs, e, he, hleft⟩, hright⟩
    · rintro ⟨mid, hleft, hright⟩
      obtain ⟨hs, e, he, h⟩ := tiles_cons.mp hleft
      exact ⟨hs, e, he, ih.mpr ⟨mid, h, hright⟩⟩

theorem tiles_concat {n : Node} : Tiles layer (nodes ++ [n]) target ↔
    ∃ s, Tiles layer nodes s ∧ n.start_layer = some s ∧ n.end_layer = some target := by
  rw [tiles_append]
  constructor
  · rintro ⟨mid, h, hlast⟩
    obtain ⟨hs, e, he, heq⟩ := tiles_cons.mp hlast
    have heq' : e = target := heq
    exact ⟨mid, h, hs, heq' ▸ he⟩
  · rintro ⟨s, h, hs, he⟩
    exact ⟨s, h, tiles_cons.mpr ⟨hs, target, he, rfl⟩⟩

theorem Tiles.le (hranges : Ascending nodes)
    (h : Tiles layer nodes target) : layer ≤ target := by
  induction nodes generalizing layer with
  | nil => exact le_of_eq h
  | cons n rest ih =>
    obtain ⟨hs, e, he, hrest⟩ := tiles_cons.mp h
    have hlt := hranges n List.mem_cons_self layer e hs he
    have hle := ih (fun m hm => hranges m (List.mem_cons_of_mem _ hm)) hrest
    omega

/-- The nodes of a chain start one behind the other. -/
theorem Tiles.nodup (hranges : Ascending nodes)
    (h : Tiles layer nodes target) : nodes.Nodup ∧ ∀ n ∈ nodes, ∃ s, n.start_layer = some s ∧ layer ≤ s := by
  induction nodes generalizing layer with
  | nil => exact ⟨List.nodup_nil, fun n hn => by cases hn⟩
  | cons n rest ih =>
    obtain ⟨hs, e, he, hrest⟩ := tiles_cons.mp h
    have hlt := hranges n List.mem_cons_self layer e hs he
    obtain ⟨hnodup, hall⟩ := ih (fun m hm => hranges m (List.mem_cons_of_mem _ hm)) hrest
    refine ⟨List.nodup_cons.mpr ⟨?_, hnodup⟩, ?_⟩
    · intro hmem
      obtain ⟨s, hs', hle⟩ := hall n hmem
      rw [hs] at hs'
      cases hs'
      omega
    · intro m hm
      rcases List.mem_cons.mp hm with rfl | hm
      · exact ⟨layer, hs, le_rfl⟩
      · obtain ⟨s, hs', hle⟩ := hall m hm
        exact ⟨s, hs', by omega⟩

end tiles

/-- The cost of a chain with one more node behind it. -/
theorem chain_cost_concat (latency : Node → Latency) (c : List Node) (m n : Node) :
    chain_cost latency (c ++ [m, n]) = chain_cost latency (c ++ [m]) + m.get_rtt_to n + latency n := by
  induction c with
  | nil => simp [chain_cost]
  | cons x c ih =>
    rcases c with _ | ⟨y, c⟩
    · simp only [List.cons_append, List.nil_append, chain_cost, add_assoc]
    · simp only [List.cons_append, chain_cost] at ih ⊢
      rw [ih]
      simp only [add_assoc]

/-! ## Nodes of a small model -/

/-- A node of the test model over four layers, with a range and the hops from it. -/
def serving_node (id : String) (start_layer end_layer : Int) (layer_latency_ms : Rat)
    (rtt_to_nodes : List (String × Latency)) : Node :=
  { layer_allocation.a100_80g (layer_allocation.build_model_info 4) id with
    start_layer := some start_layer
    end_layer := some end_layer
    avg_layer_latency_ms := some layer_latency_ms
    rtt_to_nodes := some rtt_to_nodes }

/-- The latency of a node, infinite where there is none. -/
def latency_of (n : Node) : Latency :=
  match n.layer_latency_ms with
  | .ok latency => latency
  | .error _ => ⊤

end scheduling.request_routing
