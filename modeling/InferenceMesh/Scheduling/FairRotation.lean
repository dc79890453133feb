-- The round-robin router over a history of loads. Each call finds a chain of
-- free nodes at its first attempt, if there is one at all, so each call moves
-- the cursor by one, and the calls go round all pipelines.
import InferenceMesh.Scheduling.RoundRobin

open ordered_dict python state_exn except_list
open scheduling.node

namespace scheduling.request_routing.RoundRobinPipelineRouting

/-- No node of the path is overloaded. -/
def AllFree (nodes : List Node) (path : List String) : Prop :=
  ∀ n ∈ nodes, n.node_id ∈ path → n.is_overloaded = .ok false

section calls

variable {nodes : List Node} {num_layers : Int}

/-! ## One call on measured nodes -/

/-- The pipelines that the next call uses. -/
def current_pipelines (nodes : List Node) (num_layers : Int) (router : RoundRobinPipelineRouting) :
    List (List String) := router.pipelines.getD (pipeline_discovery nodes num_layers)

theorem current_pipelines_iff (hranges : Ascending nodes) {router : RoundRobinPipelineRouting}
    (hcached : Cached nodes num_layers router) (ids : List String) :
    ids ∈ current_pipelines nodes num_layers router ↔ Pipeline nodes num_layers ids := by
  unfold current_pipelines
  rcases h : router.pipelines with _ | pipelines
  · exact mem_pipeline_discovery hranges
  · exact hcached pipelines h ids

/-- One attempt finds a chain of free nodes, the pipeline itself if that is free, or there is
no such chain and the next attempt follows. -/
theorem select_succ (M : Measured nodes) (hids : (nodes.map Node.node_id).Nodup)
    (hranges : Ascending nodes) {pipelines : List (List String)} (hne : pipelines ≠ [])
    (hpipelines : ∀ ids ∈ pipelines, Pipeline nodes num_layers ids) (attempts : Nat)
    (router : RoundRobinPipelineRouting) :
    (∃ c latency, c ≠ [] ∧ FreeChain nodes num_layers 0 c ∧
      select nodes num_layers pipelines (attempts + 1) router =
        .ok (c.map Node.node_id, latency) { router with rr_cursor := router.rr_cursor + 1 } ∧
      (AllFree nodes (pipelines.getD (router.rr_cursor % pipelines.length) []) →
        c.map Node.node_id = pipelines.getD (router.rr_cursor % pipelines.length) [])) ∨
    ((∀ c, c ≠ [] → ¬ FreeChain nodes num_layers 0 c) ∧
      select nodes num_layers pipelines (attempts + 1) router =
        select nodes num_layers pipelines attempts
          { router with rr_cursor := router.rr_cursor + 1 }) := by
  have hpipeline := hpipelines _ (getD_mem hne router.rr_cursor)
  simp only [select, get_bind]
  generalize pipelines.getD (router.rr_cursor % pipelines.length) [] = ids at hpipeline ⊢
  obtain ⟨chain, hchain, hmem, htiles, rfl⟩ := id hpipeline
  have halloc : ∀ n ∈ chain, n ∈ nodes ∧ n.is_allocated = true :=
    fun n hn => ⟨hmem n hn, Tiles.allocated htiles n hn⟩
  obtain ⟨viable, husable, hcase⟩ := usable_path_iff M hids halloc
  rw [bind_of_ok (raised_of_ok husable router), set_bind]
  rcases hcase with ⟨rfl, hload⟩ | ⟨latency, rfl, hload⟩
  · -- Some node is overloaded, so the pipeline is repaired.
    obtain ⟨repaired, hrepair⟩ := attempt_repair_pipeline_returns M hids
      halloc
    obtain ⟨hsome, hnone⟩ := attempt_repair_pipeline.spec hids hranges hpipeline hrepair
    dsimp only
    rw [bind_of_ok (raised_of_ok hrepair _)]
    rcases repaired with _ | repaired
    · exact Or.inr ⟨hnone rfl, rfl⟩
    · left
      obtain ⟨c, hc, hchain', rfl⟩ := hsome repaired rfl
      have hcalloc : ∀ n ∈ c, n ∈ nodes ∧ n.is_allocated = true :=
        fun n hn => ⟨(hchain'.1 n hn).1, Tiles.allocated hchain'.2 n hn⟩
      obtain ⟨found, hfound, hcase⟩ := usable_path_iff M hids hcalloc
      rcases hcase with ⟨_, hbad⟩ | ⟨latency, rfl, _⟩
      · exact absurd (fun n hn => (hchain'.1 n hn).2) hbad
      · dsimp only
        rw [bind_of_ok (raised_of_ok hfound _)]
        refine ⟨c, latency, hc, hchain', rfl, ?_⟩
        intro hall
        refine absurd (fun n hn => hall n (hmem n hn) ?_) hload
        exact List.mem_map_of_mem hn
  · exact Or.inl ⟨chain, latency, hchain, ⟨fun n hn => ⟨hmem n hn, hload n hn⟩, htiles⟩, rfl,
      fun _ => rfl⟩

/-- Without a chain of free nodes, no attempt succeeds. -/
theorem select_none (M : Measured nodes) (hids : (nodes.map Node.node_id).Nodup)
    (hranges : Ascending nodes) {pipelines : List (List String)} (hne : pipelines ≠ [])
    (hpipelines : ∀ ids ∈ pipelines, Pipeline nodes num_layers ids)
    (hnone : ∀ c, c ≠ [] → ¬ FreeChain nodes num_layers 0 c) (attempts : Nat)
    (router : RoundRobinPipelineRouting) :
    ∃ router', select nodes num_layers pipelines attempts router = .ok ([], ⊤) router' := by
  induction attempts generalizing router with
  | zero => exact ⟨router, rfl⟩
  | succ attempts ih =>
    rcases select_succ M hids hranges hne hpipelines attempts router with
      ⟨c, _, hc, hfree, _⟩ | ⟨_, hnext⟩
    · exact absurd hfree (hnone c hc)
    · rw [hnext]
      exact ih _

/-- What a call returns on measured nodes: a chain of free nodes when there is one, and then the
cursor moves by one. A pipeline that is free is taken when its turn comes. -/
theorem find_optimal_path_returns (M : Measured nodes) (hids : (nodes.map Node.node_id).Nodup)
    (hranges : Ascending nodes) {router : RoundRobinPipelineRouting}
    (hcached : Cached nodes num_layers router) :
    (∃ c latency, c ≠ [] ∧ FreeChain nodes num_layers 0 c ∧
      find_optimal_path nodes num_layers router = .ok (c.map Node.node_id, latency)
        ⟨router.rr_cursor % (current_pipelines nodes num_layers router).length + 1,
          some (current_pipelines nodes num_layers router)⟩ ∧
      (AllFree nodes ((current_pipelines nodes num_layers router).getD
          (router.rr_cursor % (current_pipelines nodes num_layers router).length) []) →
        c.map Node.node_id = (current_pipelines nodes num_layers router).getD
          (router.rr_cursor % (current_pipelines nodes num_layers router).length) [])) ∨
    ((∀ c, c ≠ [] → ¬ FreeChain nodes num_layers 0 c) ∧
      ∃ router', find_optimal_path nodes num_layers router = .ok ([], ⊤) router') := by
  have hpipelines := current_pipelines_iff hranges hcached
  have hensure : ensure_pipelines nodes num_layers router =
      .ok (current_pipelines nodes num_layers router)
        ⟨router.rr_cursor, some (current_pipelines nodes num_layers router)⟩ := by
    unfold ensure_pipelines current_pipelines
    rw [get_bind]
    rcases router with ⟨cursor, _ | pipelines⟩
    · rfl
    · rfl
  unfold find_optimal_path
  by_cases hguard : (nodes.isEmpty || decide (num_layers ≤ 0)) = true
  · right
    rw [if_pos hguard]
    refine ⟨?_, router, rfl⟩
    rintro c hc ⟨hfree, htiles⟩
    rcases c with _ | ⟨n, rest⟩
    · exact hc rfl
    · have hn := (hfree n List.mem_cons_self).1
      obtain ⟨hs, e, he, hrest⟩ := tiles_cons.mp htiles
      have hlt := hranges n hn _ _ hs he
      have hle := hrest.le (fun m hm => hranges m (hfree m (List.mem_cons_of_mem _ hm)).1)
      rw [Bool.or_eq_true, decide_eq_true_eq, List.isEmpty_iff] at hguard
      rcases hguard with h | h
      · rw [h] at hn
        cases hn
      · omega
  · rw [if_neg hguard, bind_of_ok hensure]
    generalize current_pipelines nodes num_layers router = pipelines at hpipelines ⊢
    by_cases hne : pipelines = []
    · right
      rw [hne]
      refine ⟨?_, _, rfl⟩
      rintro c hc ⟨hfree, htiles⟩
      have hmem := (hpipelines (c.map Node.node_id)).mpr
        ⟨c, hc, fun n hn => (hfree n hn).1, htiles, rfl⟩
      rw [hne] at hmem
      cases hmem
    · have hempty : pipelines.isEmpty = false := by simpa using hne
      rw [hempty, if_neg Bool.false_ne_true, modify_bind]
      obtain ⟨attempts, hattempts⟩ :=
        Nat.exists_eq_succ_of_ne_zero (List.length_pos_of_ne_nil hne).ne'
      have hselect := select_succ M hids hranges hne (fun ids h => (hpipelines ids).mp h) attempts
        ⟨router.rr_cursor % pipelines.length, some pipelines⟩
      rw [Nat.mod_mod, ← Nat.succ_eq_add_one, ← hattempts] at hselect
      rcases hselect with ⟨c, latency, hc, hfree, hrun, hsame⟩ | ⟨hnone, _⟩
      · exact Or.inl ⟨c, latency, hc, hfree, hrun, hsame⟩
      · exact Or.inr ⟨hnone, select_none M hids hranges hne (fun ids h => (hpipelines ids).mp h) hnone
          pipelines.length _⟩

end calls

/-! ## A fixed allocation -/

/-- The id and the range of a node. -/
def place (n : Node) : String × Option Int × Option Int := (n.node_id, n.start_layer, n.end_layer)

/-- The nodes have the same ids and ranges. Their loads and measurements may differ. -/
def SameAllocation (nodes nodes' : List Node) : Prop := nodes.map place = nodes'.map place

theorem SameAllocation.symm {nodes nodes' : List Node} (h : SameAllocation nodes nodes') :
    SameAllocation nodes' nodes := Eq.symm h

theorem SameAllocation.twin {nodes nodes' : List Node} (h : SameAllocation nodes nodes') {n : Node}
    (hn : n ∈ nodes) : ∃ n' ∈ nodes', place n' = place n := by
  have hmem : place n ∈ nodes'.map place := h ▸ List.mem_map_of_mem hn
  exact List.mem_map.mp hmem

theorem SameAllocation.ids {nodes nodes' : List Node} (h : SameAllocation nodes nodes') :
    nodes.map Node.node_id = nodes'.map Node.node_id := by
  have hmap := congrArg (List.map Prod.fst) h
  rw [List.map_map, List.map_map] at hmap
  exact hmap

theorem SameAllocation.ascending {nodes nodes' : List Node} (h : SameAllocation nodes nodes')
    (hranges : Ascending nodes) : Ascending nodes' := by
  intro n hn s e hs he
  obtain ⟨m, hm, hplace⟩ := h.symm.twin hn
  simp only [place, Prod.mk.injEq] at hplace
  exact hranges m hm s e (hplace.2.1.trans hs) (hplace.2.2.trans he)

theorem SameAllocation.chain {nodes nodes' : List Node} (h : SameAllocation nodes nodes')
    {layer target : Int} {chain : List Node} (hmem : ∀ n ∈ chain, n ∈ nodes)
    (htiles : Tiles layer chain target) :
    ∃ chain', (∀ n ∈ chain', n ∈ nodes') ∧ Tiles layer chain' target ∧
      chain'.map Node.node_id = chain.map Node.node_id := by
  induction chain generalizing layer with
  | nil => exact ⟨[], by simp, htiles, rfl⟩
  | cons n rest ih =>
    obtain ⟨hs, e, he, hrest⟩ := tiles_cons.mp htiles
    obtain ⟨m, hm, hplace⟩ := h.twin (hmem n List.mem_cons_self)
    obtain ⟨chain', hmem', htiles', hids⟩ := ih (fun m hm => hmem m (List.mem_cons_of_mem _ hm)) hrest
    simp only [place, Prod.mk.injEq] at hplace
    refine ⟨m :: chain', ?_, ?_, ?_⟩
    · intro x hx
      rcases List.mem_cons.mp hx with rfl | hx
      · exact hm
      · exact hmem' x hx
    · exact tiles_cons.mpr ⟨hplace.2.1.trans hs, e, hplace.2.2.trans he, htiles'⟩
    · rw [List.map_cons, List.map_cons, hids, hplace.1]

theorem SameAllocation.pipeline {nodes nodes' : List Node} (h : SameAllocation nodes nodes')
    {num_layers : Int} {ids : List String} (hpipeline : Pipeline nodes num_layers ids) :
    Pipeline nodes' num_layers ids := by
  obtain ⟨chain, hne, hmem, htiles, rfl⟩ := hpipeline
  obtain ⟨chain', hmem', htiles', hids⟩ := h.chain hmem htiles
  refine ⟨chain', ?_, hmem', htiles', hids.symm⟩
  rintro rfl
  exact hne (List.map_eq_nil_iff.mp hids.symm)

theorem SameAllocation.cached {nodes nodes' : List Node} (h : SameAllocation nodes nodes')
    {num_layers : Int} {router : RoundRobinPipelineRouting}
    (hcached : Cached nodes num_layers router) : Cached nodes' num_layers router :=
  fun ps hps ids => (hcached ps hps ids).trans ⟨h.pipeline, h.symm.pipeline⟩

/-- What the discovery reads of a node that starts at a layer: its id and its end. -/
def id_and_end (x : Node × Int) : String × Int := (x.1.node_id, x.2)

/-- A place that starts at the layer: its id and where it ends. -/
def start_of (layer : Int) (x : String × Option Int × Option Int) : Option (String × Int) :=
  match x.2.1, x.2.2 with
  | some start_layer, some end_layer =>
    if start_layer = layer then some (x.1, end_layer) else none
  | _, _ => none

theorem starting_at_congr {nodes nodes' : List Node} (h : SameAllocation nodes nodes')
    (layer : Int) :
    (starting_at nodes layer).map id_and_end = (starting_at nodes' layer).map id_and_end := by
  have hplaces : ∀ nodes : List Node, (starting_at nodes layer).map id_and_end =
      (nodes.map place).filterMap (start_of layer) := by
    intro nodes
    unfold starting_at
    rw [List.map_filterMap, List.filterMap_map]
    apply List.filterMap_congr
    intro n _
    rcases hs : n.start_layer with _ | s
    · simp [start_of, place, hs]
    · rcases he : n.end_layer with _ | e
      · simp [start_of, place, hs, he]
      · by_cases hlayer : s = layer
        · simp [start_of, place, hs, he, hlayer, id_and_end]
        · simp [start_of, place, hs, he, hlayer]
  rw [hplaces, hplaces, h]

theorem chains_congr {nodes nodes' : List Node} (h : SameAllocation nodes nodes') (num_layers : Int)
    (fuel : Nat) (current_end : Int) (path_ids : List String) :
    chains nodes num_layers fuel current_end path_ids =
      chains nodes' num_layers fuel current_end path_ids := by
  induction fuel generalizing current_end path_ids with
  | zero => rfl
  | succ fuel ih =>
    unfold chains
    split
    · rfl
    · have hread : ∀ nodes : List Node, (by_end ((starting_at nodes current_end).filter
          (fun x => x.2 > current_end))).map id_and_end =
          (((starting_at nodes current_end).map id_and_end).filter
            (fun x => x.2 > current_end)).insertionSort (fun x y => x.2 ≤ y.2) := by
        intro nodes
        unfold by_end
        rw [List.map_insertionSort (r := fun x y : Node × Int => x.2 ≤ y.2)
          (s := fun x y : String × Int => x.2 ≤ y.2) id_and_end _ (fun _ _ _ _ => Iff.rfl),
          List.filter_map]
        rfl
      have hsame := (hread nodes).trans
        ((congrArg (fun l => (l.filter (fun x => x.2 > current_end)).insertionSort
          (fun x y : String × Int => x.2 ≤ y.2)) (starting_at_congr h current_end)).trans
            (hread nodes').symm)
      have hflat : ∀ nodes : List Node, (by_end ((starting_at nodes current_end).filter
          (fun x => x.2 > current_end))).flatMap
            (fun x => chains nodes' num_layers fuel x.2 (path_ids ++ [x.1.node_id])) =
          ((by_end ((starting_at nodes current_end).filter
            (fun x => x.2 > current_end))).map id_and_end).flatMap
              (fun x => chains nodes' num_layers fuel x.2 (path_ids ++ [x.1])) := by
        intro nodes
        rw [List.flatMap_map]
        rfl
      simp only [ih]
      rw [hflat nodes, hflat nodes', hsame]

/-- The discovery depends on the allocation only. -/
theorem pipeline_discovery_congr {nodes nodes' : List Node} (h : SameAllocation nodes nodes')
    (num_layers : Int) :
    pipeline_discovery nodes num_layers = pipeline_discovery nodes' num_layers := by
  have hlen : nodes.length = nodes'.length := by
    have hmap := congrArg List.length h
    rwa [List.length_map, List.length_map] at hmap
  have hempty : nodes = [] ↔ nodes' = [] := by
    rw [← List.length_eq_zero_iff, ← List.length_eq_zero_iff, hlen]
  unfold pipeline_discovery
  simp only [hempty, hlen, chains_congr h]
  split
  · rfl
  · have hflat : ∀ nodes : List Node, (starting_at nodes 0).flatMap
        (fun x => chains nodes' num_layers (nodes'.length + 1) x.2 [x.1.node_id]) =
          ((starting_at nodes 0).map id_and_end).flatMap
            (fun x => chains nodes' num_layers (nodes'.length + 1) x.2 [x.1]) := by
      intro nodes
      rw [List.flatMap_map]
      rfl
    rw [hflat nodes, hflat nodes', starting_at_congr h]

/-! ## Runs of calls -/

/-- A router that was fresh and has been called on an allocation, under any loads. -/
inductive Reached (allocation : List Node) (num_layers : Int) : RoundRobinPipelineRouting → Prop
  | fresh : Reached allocation num_layers init
  | call {router : RoundRobinPipelineRouting} {nodes : List Node} :
    Reached allocation num_layers router → SameAllocation allocation nodes → Measured nodes →
      Reached allocation num_layers (stateOf (find_optimal_path nodes num_layers router))

/-- Consecutive calls, each with the nodes as they are then. -/
def calls (num_layers : Int) : List (List Node) → RouteM (List (List String))
  | [] => pure []
  | nodes :: rest => do
    let found ← find_optimal_path nodes num_layers
    let others ← calls num_layers rest
    return found.1 :: others

section runs

variable {allocation : List Node} {num_layers : Int}

theorem Reached.cached (hids : (allocation.map Node.node_id).Nodup)
    (hranges : Ascending allocation) {router : RoundRobinPipelineRouting}
    (h : Reached allocation num_layers router) : Cached allocation num_layers router := by
  induction h with
  | fresh =>
    intro ps hps
    cases hps
  | @call router nodes _ hsame _ ih =>
    apply hsame.symm.cached
    exact ((find_optimal_path.spec (hsame.ids ▸ hids) (hsame.ascending hranges)).mono
      (fun _ hs => hs) (fun _ _ hq => hq.2) (fun _ _ he => he)).state (hsame.cached ih)

theorem current_pipelines_congr {nodes : List Node} (h : SameAllocation allocation nodes)
    (router : RoundRobinPipelineRouting) :
    current_pipelines nodes num_layers router = current_pipelines allocation num_layers router := by
  unfold current_pipelines
  rw [pipeline_discovery_congr h]

/-- While there is a chain of free nodes, the calls go through the pipelines in turn, and take those
that are free. -/
theorem calls_in_turn (hids : (allocation.map Node.node_id).Nodup) (hranges : Ascending allocation)
    {pipelines : List (List String)} (history : List (List Node))
    (hhistory : ∀ nodes ∈ history, SameAllocation allocation nodes ∧ Measured nodes ∧
      ∃ chain, chain ≠ [] ∧ FreeChain nodes num_layers 0 chain)
    (router : RoundRobinPipelineRouting) (hcached : Cached allocation num_layers router)
    (hcurrent : current_pipelines allocation num_layers router = pipelines) :
    ∃ paths router', calls num_layers history router = .ok paths router' ∧
      paths.length = history.length ∧ ∀ i nodes, history[i]? = some nodes →
        AllFree nodes (pipelines.getD ((router.rr_cursor + i) % pipelines.length) []) →
        paths[i]? = some (pipelines.getD ((router.rr_cursor + i) % pipelines.length) []) := by
  induction history generalizing router with
  | nil => exact ⟨[], router, rfl, rfl, fun i nodes h => by cases h⟩
  | cons nodes rest ih =>
    obtain ⟨hsame, M, chain, hchain, hfree⟩ := hhistory nodes List.mem_cons_self
    have hstep := find_optimal_path_returns M (hsame.ids ▸ hids) (hsame.ascending hranges)
      (hsame.cached hcached)
    rw [current_pipelines_congr hsame, hcurrent] at hstep
    rcases hstep with ⟨c, latency, _, _, hrun, htaken⟩ | ⟨hnone, _⟩
    · have hcached' : Cached allocation num_layers
          ⟨router.rr_cursor % pipelines.length + 1, some pipelines⟩ := by
        intro ps hps ids
        cases hps
        rw [← hcurrent]
        exact current_pipelines_iff hranges hcached ids
      obtain ⟨paths, router', hrest, hlen, hturns⟩ :=
        ih (fun nodes hn => hhistory nodes (List.mem_cons_of_mem _ hn)) _ hcached' rfl
      refine ⟨c.map Node.node_id :: paths, router', ?_, ?_, ?_⟩
      · unfold calls
        rw [bind_of_ok hrun, bind_of_ok hrest]
        rfl
      · rw [List.length_cons, List.length_cons, hlen]
      · intro i nodes' hi hall
        rcases i with _ | i
        · cases hi
          exact congrArg some (htaken hall)
        · have hturn : (router.rr_cursor % pipelines.length + 1 + i) % pipelines.length =
              (router.rr_cursor + (i + 1)) % pipelines.length := by
            rw [Nat.add_assoc, Nat.mod_add_mod, Nat.add_comm 1 i]
          have hrest' := hturns i nodes' hi
          simp only [hturn] at hrest'
          exact hrest' hall
    · exact absurd hfree (hnone chain hchain)

/-- A pipeline without an overloaded node is a chain of free nodes. -/
theorem free_chain_of_pipeline {nodes : List Node} {ids : List String}
    (hpipeline : Pipeline nodes num_layers ids) (hall : AllFree nodes ids) :
    ∃ chain, chain ≠ [] ∧ FreeChain nodes num_layers 0 chain := by
  obtain ⟨chain, hchain, hmem, htiles, rfl⟩ := hpipeline
  exact ⟨chain, hchain, fun n hn => ⟨hmem n hn, hall n (hmem n hn) (List.mem_map_of_mem hn)⟩, htiles⟩

theorem turns_eq_rotate (pipelines : List (List String)) (cursor : Nat) :
    (List.range pipelines.length).map
      (fun i => pipelines.getD ((cursor + i) % pipelines.length) []) = pipelines.rotate cursor := by
  apply List.ext_getElem
  · simp
  · intro i h h'
    have hlt : i < pipelines.length := by simpa using h
    rw [List.getElem_map, List.getElem_range, List.getElem_rotate,
      List.getD_eq_getElem _ _ (Nat.mod_lt _ (by omega))]
    simp only [Nat.add_comm cursor i]

/-- On a fixed allocation, whatever the loads were so far and are now, a call returns a chain of
nodes that are not overloaded, and the empty path only if there is none. As many calls as there are
pipelines return each of them exactly once, while none of them is overloaded. -/
theorem round_robin_selects_and_repairs (hids : (allocation.map Node.node_id).Nodup)
    (hranges : Ascending allocation) {router : RoundRobinPipelineRouting}
    (h : Reached allocation num_layers router) :
    (∀ nodes, SameAllocation allocation nodes → Measured nodes →
      ∃ path latency router',
        find_optimal_path nodes num_layers router = .ok (path, latency) router' ∧
        ((∃ chain, chain ≠ [] ∧ FreeChain nodes num_layers 0 chain ∧
            path = chain.map Node.node_id) ∨
          (path = [] ∧ ∀ chain, chain ≠ [] → ¬ FreeChain nodes num_layers 0 chain))) ∧
      ∀ history : List (List Node),
        history.length = (current_pipelines allocation num_layers router).length →
        (∀ nodes ∈ history, SameAllocation allocation nodes ∧ Measured nodes ∧
          ∀ ids ∈ current_pipelines allocation num_layers router, AllFree nodes ids) →
        ∃ paths router', calls num_layers history router = .ok paths router' ∧
          paths.Perm (current_pipelines allocation num_layers router) := by
  have hcached := h.cached hids hranges
  constructor
  · intro nodes hsame M
    rcases find_optimal_path_returns M (hsame.ids ▸ hids) (hsame.ascending hranges)
        (hsame.cached hcached) with ⟨c, latency, hc, hfree, hrun, _⟩ | ⟨hnone, router', hrun⟩
    · exact ⟨_, _, _, hrun, Or.inl ⟨c, hc, hfree, rfl⟩⟩
    · exact ⟨_, _, _, hrun, Or.inr ⟨rfl, hnone⟩⟩
  · intro history hlen hhistory
    by_cases hne : current_pipelines allocation num_layers router = []
    · rw [hne] at hlen ⊢
      rw [List.length_eq_zero_iff.mp hlen]
      exact ⟨[], router, rfl, List.Perm.refl _⟩
    · obtain ⟨paths, router', hrun, hpaths, hturns⟩ := calls_in_turn hids hranges history
        (fun nodes hn => ⟨(hhistory nodes hn).1, (hhistory nodes hn).2.1,
          free_chain_of_pipeline ((hhistory nodes hn).1.pipeline ((current_pipelines_iff hranges hcached
            _).mp (getD_mem hne 0))) ((hhistory nodes hn).2.2 _ (getD_mem hne 0))⟩)
        router hcached rfl
      refine ⟨paths, router', hrun, ?_⟩
      have hall : paths = (current_pipelines allocation num_layers router).rotate router.rr_cursor := by
        rw [← turns_eq_rotate]
        apply List.ext_getElem?
        intro i
        by_cases hi : i < history.length
        · rw [hturns i history[i] (List.getElem?_eq_getElem hi)
            ((hhistory _ (List.getElem_mem hi)).2.2 _ (getD_mem hne _)), List.getElem?_map,
            List.getElem?_range (hlen ▸ hi)]
          rfl
        · rw [List.getElem?_eq_none (by omega), List.getElem?_eq_none (by simp; omega)]
      rw [hall]
      exact List.rotate_perm _ _

end runs

/-- Two halves of the model, and a node that has all of it. All hops are known. -/
def two_routes : List Node :=
  [serving_node "first" 0 2 5 [("second", (1 : Rat)), ("whole", (1 : Rat))],
    serving_node "second" 2 4 5 [("first", (1 : Rat)), ("whole", (1 : Rat))],
    serving_node "whole" 0 4 12 [("first", (1 : Rat)), ("second", (1 : Rat))]]

theorem two_routes_ascending : Ascending two_routes := by
  intro n hn s e hs he
  fin_cases hn <;> cases hs <;> cases he <;> decide

theorem two_routes_measured : Measured two_routes := by
  have hlatency : ∀ n ∈ two_routes, n.layer_latency_ms = .ok (latency_of n) ∧ latency_of n ≠ ⊤ := by
    decide +kernel
  exact ⟨by decide +kernel, fun n hn _ _ => ⟨latency_of n, hlatency n hn⟩, by decide +kernel⟩

theorem two_routes_are_taken_in_turn :
    ∃ paths router', calls 4 [two_routes, two_routes] init = .ok paths router' ∧
      paths.Perm (current_pipelines two_routes 4 init) := by
  have hfree : ∀ n ∈ two_routes, n.is_overloaded = .ok false := by decide +kernel
  refine (round_robin_selects_and_repairs (by decide +kernel) two_routes_ascending .fresh).2
    [two_routes, two_routes] (by decide +kernel) ?_
  intro nodes hn
  simp only [List.mem_cons, List.not_mem_nil, or_false, or_self] at hn
  subst hn
  exact ⟨rfl, two_routes_measured, fun _ _ n hn _ => hfree n hn⟩

end scheduling.request_routing.RoundRobinPipelineRouting
