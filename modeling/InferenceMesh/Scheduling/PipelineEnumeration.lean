-- The two searches for pipelines: `has_full_pipeline` stops at the first chain
-- of ranges over all layers, and `pipeline_discovery` lists them all. Both come
-- to an end, and both speak of the same chains, each listed exactly once.
import InferenceMesh.Scheduling.RouterAgreement

open ordered_dict python state_exn
open scheduling.model_info scheduling.node scheduling.layer_allocation

namespace scheduling.request_routing

/-- Nodes whose ranges follow each other from the first layer to the last one. -/
structure FullChain (nodes : List Node) (num_layers : Int) (chain : List Node) : Prop where
  nonempty : chain ≠ []
  mem : ∀ n ∈ chain, n ∈ nodes
  tiles : Tiles 0 chain num_layers

theorem pipeline_iff {nodes : List Node} {num_layers : Int} {ids : List String} :
    Pipeline nodes num_layers ids ↔
      ∃ chain, FullChain nodes num_layers chain ∧ ids = chain.map Node.node_id := by
  constructor
  · rintro ⟨chain, hne, hmem, htiles, rfl⟩
    exact ⟨chain, ⟨hne, hmem, htiles⟩, rfl⟩
  · rintro ⟨chain, h, rfl⟩
    exact ⟨chain, h.nonempty, h.mem, h.tiles, rfl⟩

namespace RoundRobinPipelineRouting

/-! ## The recursion ends -/

/-- The nodes whose ranges start at a layer or behind it. -/
def ahead (nodes : List Node) (layer : Int) : List Node :=
  nodes.filter (fun n => n.start_layer.any (fun s => layer ≤ s))

theorem mem_ahead {nodes : List Node} {layer : Int} {n : Node} :
    n ∈ ahead nodes layer ↔ n ∈ nodes ∧ ∃ s, n.start_layer = some s ∧ layer ≤ s := by
  simp [ahead, Option.any_eq_true]

/-- A node of the chain is no longer ahead of the next one. -/
theorem ahead_lt {nodes : List Node} {layer : Int} {x : Node × Int}
    (hx : x ∈ starting_at nodes layer) (hlt : layer < x.2) :
    (ahead nodes x.2).length < (ahead nodes layer).length := by
  obtain ⟨hn, hs, _⟩ := mem_starting_at.mp hx
  have hsub : (ahead nodes x.2).Sublist (ahead nodes layer) := by
    apply List.monotone_filter_right
    intro n hn
    obtain ⟨s, hs, hle⟩ := (Option.any_eq_true _ _).mp hn
    refine (Option.any_eq_true _ _).mpr ⟨s, hs, ?_⟩
    simp only [decide_eq_true_eq] at *
    omega
  apply lt_of_le_of_ne hsub.length_le
  intro heq
  have hmem : x.1 ∈ ahead nodes layer := mem_ahead.mpr ⟨hn, layer, hs, le_rfl⟩
  rw [← hsub.eq_of_length heq] at hmem
  obtain ⟨_, s, hs', hle⟩ := mem_ahead.mp hmem
  rw [hs] at hs'
  cases hs'
  omega

/-- The bound on the depth of the search is never felt. -/
theorem chains_settle {nodes : List Node} {num_layers : Int} (fuel fuel' : Nat) (layer : Int)
    (path_ids : List String) (h : (ahead nodes layer).length < fuel)
    (h' : (ahead nodes layer).length < fuel') :
    chains nodes num_layers fuel layer path_ids = chains nodes num_layers fuel' layer path_ids := by
  induction fuel generalizing fuel' layer path_ids with
  | zero => omega
  | succ fuel ih =>
    obtain ⟨fuel', rfl⟩ : ∃ k, fuel' = k + 1 := ⟨fuel' - 1, by omega⟩
    unfold chains
    split
    · rfl
    · apply List.flatMap_congr
      intro x hx
      obtain ⟨hstart, hlt⟩ := List.mem_filter.mp (mem_by_end.mp hx)
      have hless := ahead_lt hstart (by simpa using hlt)
      exact ih fuel' x.2 _ (by omega) (by omega)

/-! ## No chain twice -/

theorem starting_at_ids {nodes : List Node} (hids : (nodes.map Node.node_id).Nodup) (layer : Int) :
    ((starting_at nodes layer).map (fun x => x.1.node_id)).Nodup := by
  apply List.Nodup.sublist _ hids
  unfold starting_at
  induction nodes with
  | nil => simp
  | cons n rest ih =>
    have hrest := ih (List.nodup_cons.mp hids).2
    rw [List.filterMap_cons]
    split
    · exact hrest.trans (List.sublist_cons_self _ _)
    · rename_i x hx
      have hnode : x.1 = n := by
        split at hx
        · split at hx
          · cases hx
            rfl
          · cases hx
        · cases hx
      rw [List.map_cons, List.map_cons, hnode]
      exact hrest.cons_cons _

/-- Every chain that is found goes on from the path. -/
theorem prefix_of_mem_chains {nodes : List Node} {num_layers : Int} {fuel : Nat} {layer : Int}
    {path_ids ids : List String} (h : ids ∈ chains nodes num_layers fuel layer path_ids) :
    ∃ rest, ids = path_ids ++ rest := by
  obtain ⟨chain, _, _, hids⟩ := (chains.spec fuel layer path_ids ids).1 h
  exact ⟨_, hids⟩

/-- Chains that go on with different nodes are different. -/
theorem branches_nodup {nodes : List Node} {num_layers : Int} {fuel : Nat}
    (path_ids : List String) {candidates : List (Node × Int)} (hids : (candidates.map (fun x => x.1.node_id)).Nodup)
    (hbranch : ∀ x ∈ candidates,
      (chains nodes num_layers fuel x.2 (path_ids ++ [x.1.node_id])).Nodup) :
    (candidates.flatMap
      (fun x => chains nodes num_layers fuel x.2 (path_ids ++ [x.1.node_id]))).Nodup := by
  refine List.nodup_flatMap.mpr ⟨hbranch, ?_⟩
  apply (List.pairwise_map.mp hids).imp
  intro x y hne
  refine List.disjoint_left.mpr (fun ids hx hy => hne ?_)
  obtain ⟨rest, hrest⟩ := prefix_of_mem_chains hx
  obtain ⟨rest', hrest'⟩ := prefix_of_mem_chains hy
  rw [hrest] at hrest'
  simp only [List.append_assoc, List.append_cancel_left_eq, List.cons_append, List.nil_append,
    List.cons.injEq] at hrest'
  exact hrest'.1

theorem chains_nodup {nodes : List Node} {num_layers : Int} (hids : (nodes.map Node.node_id).Nodup)
    (fuel : Nat) (layer : Int) (path_ids : List String) :
    (chains nodes num_layers fuel layer path_ids).Nodup := by
  induction fuel generalizing layer path_ids with
  | zero => exact List.nodup_nil
  | succ fuel ih =>
    unfold chains
    split
    · exact List.nodup_singleton _
    · apply branches_nodup
      · have hperm := (List.perm_insertionSort (fun x y : Node × Int => x.2 ≤ y.2)
          ((starting_at nodes layer).filter (fun x => x.2 > layer))).map (fun x => x.1.node_id)
        exact hperm.nodup_iff.mpr
          ((starting_at_ids hids layer).sublist (List.filter_sublist.map _))
      · exact fun x _ => ih x.2 _

theorem pipeline_discovery_nodup {nodes : List Node} (hids : (nodes.map Node.node_id).Nodup)
    (num_layers : Int) : (pipeline_discovery nodes num_layers).Nodup := by
  unfold pipeline_discovery
  split
  · exact List.nodup_nil
  · have hbranch : ∀ x ∈ starting_at nodes 0,
        (chains nodes num_layers (nodes.length + 1) x.2 ([] ++ [x.1.node_id])).Nodup :=
      fun x _ => chains_nodup hids (nodes.length + 1) x.2 _
    exact branches_nodup [] (starting_at_ids hids 0) hbranch

end RoundRobinPipelineRouting

open RoundRobinPipelineRouting

/-! ## Both searches -/

/-- The bound on the depth of the search for one chain is never felt. -/
theorem can_reach_target_settles {a : Allocator} {index : List (Int × Ref)} (fuel fuel' : Nat)
    (layer : Int) (h : (a.num_total_layers - layer).toNat < fuel)
    (h' : (a.num_total_layers - layer).toNat < fuel') :
    a.can_reach_target index fuel layer = a.can_reach_target index fuel' layer := by
  induction fuel generalizing fuel' layer with
  | zero => omega
  | succ fuel ih =>
    obtain ⟨fuel', rfl⟩ : ∃ k, fuel' = k + 1 := ⟨fuel' - 1, by omega⟩
    unfold Allocator.can_reach_target
    split
    · rfl
    · rename_i hlt
      congr 1
      funext x
      rcases (a.store x.2).end_layer with _ | e
      · rfl
      · by_cases hup : e > layer
        · simp only [ih fuel' e (by omega) (by omega)]
        · simp [hup]

/-- Both searches come to an end, they find chains in the same cases, and the second one lists each
chain exactly once and nothing else. -/
structure PipelinesEnumerated (a : Allocator) (nodes : List Node) (num_layers : Int) : Prop where
  search_ends : ∀ layer fuel, a.layers_left layer ≤ fuel →
    a.can_reach_target (a.start_to_nodes false) fuel layer =
      a.can_reach_target (a.start_to_nodes false) (a.layers_left layer) layer
  found : a.has_full_pipeline false = true ↔ ∃ chain, FullChain nodes num_layers chain
  discovery_ends : ∀ layer path_ids fuel, nodes.length + 1 ≤ fuel →
    chains nodes num_layers fuel layer path_ids =
      chains nodes num_layers (nodes.length + 1) layer path_ids
  discovered : pipeline_discovery nodes num_layers ≠ [] ↔
    ∃ chain, FullChain nodes num_layers chain
  sound : ∀ ids ∈ pipeline_discovery nodes num_layers,
    ∃ chain, FullChain nodes num_layers chain ∧ ids = chain.map Node.node_id
  exactly_once : ∀ chain, FullChain nodes num_layers chain →
    (pipeline_discovery nodes num_layers).count (chain.map Node.node_id) = 1

theorem Holds.ids_nodup {a : Allocator} {nodes : List Node} {num_layers : Int}
    (h : Holds a nodes num_layers) : (nodes.map Node.node_id).Nodup := by
  have hmap : nodes.map Node.node_id = a.nodes.map a.node_id := by
    rw [← h.nodes, List.map_map]
    rfl
  rw [hmap]
  exact h.views.ids_nodup h.views.nodup (fun _ hr => hr)

theorem Holds.ascending {a : Allocator} {nodes : List Node} {num_layers : Int}
    (h : Holds a nodes num_layers) : Ascending nodes := by
  intro n hn start_layer end_layer hs he
  rw [← h.nodes] at hn
  obtain ⟨r, hr, rfl⟩ := List.mem_map.mp hn
  exact h.views.ascending _ _ _ (h.views.allocation_of_range (h.views.listed r hr) hs he)

theorem pipelines_are_enumerated {a : Allocator} {nodes : List Node} {num_layers : Int}
    (h : Holds a nodes num_layers) : PipelinesEnumerated a nodes num_layers := by
  have hfound : ∀ ids, ids ∈ pipeline_discovery nodes num_layers ↔
      ∃ chain, FullChain nodes num_layers chain ∧ ids = chain.map Node.node_id :=
    fun ids => (mem_pipeline_discovery h.ascending).trans pipeline_iff
  refine ⟨?_, ?_, ?_, ?_, fun ids => (hfound ids).mp, ?_⟩
  · intro layer fuel hfuel
    unfold Allocator.layers_left at *
    exact can_reach_target_settles _ _ _ (by omega) (by omega)
  · rw [full_pipeline_iff h false]
    constructor
    · rintro ⟨chain, hne, hmem, htiles⟩
      exact ⟨chain, hne, fun n hn => (hmem n hn).1, htiles⟩
    · rintro ⟨chain, hchain⟩
      exact ⟨chain, hchain.nonempty, fun n hn => ⟨hchain.mem n hn, nofun⟩, hchain.tiles⟩
  · intro layer path_ids fuel hfuel
    have hle : (ahead nodes layer).length ≤ nodes.length := List.length_filter_le _ _
    exact chains_settle _ _ _ _ (by omega) (by omega)
  · constructor
    · intro hne
      obtain ⟨ids, hids⟩ := List.exists_mem_of_ne_nil _ hne
      obtain ⟨chain, hchain, _⟩ := (hfound ids).mp hids
      exact ⟨chain, hchain⟩
    · rintro ⟨chain, hchain⟩
      exact List.ne_nil_of_mem ((hfound _).mpr ⟨chain, hchain, rfl⟩)
  · intro chain hchain
    apply List.count_eq_one_of_mem (pipeline_discovery_nodup h.ids_nodup num_layers)
    exact (hfound _).mpr ⟨chain, hchain, rfl⟩

/-! ## Two nodes -/

/-- A pool of two nodes after its static allocation. -/
def allocated_pool : Allocator :=
  Call.global_allocation.after (pool (mixed_store (build_model_info 6)) (build_model_info 6) 2)

theorem allocated_pool_holds :
    Holds allocated_pool (allocated_pool.nodes.map allocated_pool.store) 6 where
  views := by
    have hinit : BookkeepingAgrees (build_model_info 6)
        (pool (mixed_store (build_model_info 6)) (build_model_info 6) 2) :=
      init_bookkeeping (by decide) (by decide)
    exact (bookkeeping_call (c := .global_allocation) hinit trivial).views
  nodes := rfl
  layers := by decide +kernel
  registered := by
    intro id r hr
    have hall : ∀ x ∈ allocated_pool.node_id_to_node.items, x.2 ∈ allocated_pool.nodes := by
      decide +kernel
    exact hall (id, r) (Dict.get?_eq_some.mp hr)

theorem allocated_pool_is_enumerated :
    PipelinesEnumerated allocated_pool (allocated_pool.nodes.map allocated_pool.store) 6 :=
  pipelines_are_enumerated allocated_pool_holds

end scheduling.request_routing
