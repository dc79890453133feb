-- The round-robin router over a whole run. It discovers its pipelines once and
-- never again. Joins of other nodes and removals leave the cached nodes where
-- they were; a rebalance may not.
import InferenceMesh.Scheduling.Bootstrapped
import InferenceMesh.Scheduling.CachedPipelines
import InferenceMesh.Scheduling.DispatchLoad
import InferenceMesh.Scheduling.Marking

open ordered_dict python state_exn except_list
open scheduling.model_info scheduling.node scheduling.layer_allocation

namespace scheduling.layer_allocation

open Allocator

/-! ## The listed ids -/

/-- The listed nodes have different ids, all of them known, and the model is the given one. -/
structure ListedOnce (m : ModelInfo) (a : Allocator) : Prop where
  model : a.model_info = m
  once : (a.nodes.map a.node_id).Nodup
  known : ∀ r ∈ a.nodes, a.node_id_to_node.has (a.node_id r) = true

namespace ListedOnce

variable {m : ModelInfo} {a a' : Allocator}

/-- The same nodes are listed, with the same ids. -/
theorem congr (h : ListedOnce m a) (hmodel : a'.model_info = a.model_info)
    (hnodes : a'.nodes = a.nodes) (hids : ∀ r ∈ a.nodes, a'.node_id r = a.node_id r)
    (hknown : ∀ id, a.node_id_to_node.has id = true → a'.node_id_to_node.has id = true) :
    ListedOnce m a' := by
  refine ⟨hmodel.trans h.model, ?_, ?_⟩
  · rw [hnodes, List.map_congr_left hids]
    exact h.once
  · intro r hr
    rw [hnodes] at hr
    rw [hids r hr]
    exact hknown _ (h.known r hr)

theorem sort_nodes (h : ListedOnce m a) : ListedOnce m a.sort_nodes := by
  have hperm : a.sort_nodes.nodes.Perm a.nodes := sorted_desc_perm _ _
  exact ⟨h.model, (hperm.map _).nodup_iff.mpr h.once,
    fun r hr => h.known r (hperm.mem_iff.mp hr)⟩

/-- A node with a new id is listed at the end. -/
theorem register (h : ListedOnce m a) {r : Ref}
    (hnew : ¬ a.node_id_to_node.has (a.node_id r) = true) : ListedOnce m (a.register r) := by
  refine ⟨h.model, ?_, ?_⟩
  · show ((a.nodes ++ [r]).map a.node_id).Nodup
    rw [List.map_append, List.map_singleton, ← List.concat_eq_append, List.nodup_concat]
    refine ⟨?_, h.once⟩
    intro hmem
    obtain ⟨r', hr', hid⟩ := List.mem_map.mp hmem
    exact hnew (hid ▸ h.known r' hr')
  · intro r' hr'
    show (a.node_id_to_node.insert (a.node_id r) r).has (a.node_id r') = true
    rw [Dict.has_iff, Dict.get?_insert]
    split
    · exact ⟨r, rfl⟩
    · rename_i hne
      rcases List.mem_append.mp hr' with hr' | hr'
      · exact Dict.has_iff.mp (h.known r' hr')
      · rw [List.mem_singleton.mp hr'] at hne
        exact absurd rfl hne

/-- The node of an id goes, and the others keep theirs. -/
theorem unregister (h : ListedOnce m a) (node_id : String) :
    ListedOnce m (a.unregister node_id) := by
  have hsub : (a.unregister node_id).nodes.Sublist a.nodes := List.eraseP_sublist
  refine ⟨h.model, h.once.sublist (hsub.map _), ?_⟩
  intro r hr
  have hne : a.node_id r ≠ node_id := by
    intro heq
    obtain ⟨x, l₁, l₂, _, hx, hsplit, hrest⟩ := List.exists_of_eraseP
      (p := fun r => decide (a.node_id r = node_id)) (hsub.subset hr) (by simpa using heq)
    have hxid : a.node_id x = node_id := by simpa using hx
    have honce := h.once
    rw [hsplit, List.map_append, List.map_cons, List.nodup_middle, List.nodup_cons] at honce
    have hr' : r ∈ a.nodes.eraseP (fun r => decide (a.node_id r = node_id)) := hr
    rw [hrest] at hr'
    apply honce.1
    rw [← List.map_append, hxid, ← heq]
    exact List.mem_map_of_mem hr'
  show (a.node_id_to_node.erase node_id).has (a.node_id r) = true
  rw [Dict.has_iff, Dict.get?_erase, if_neg (Ne.symm hne)]
  exact Dict.has_iff.mp (h.known r (hsub.subset hr))

/-- A change of a node that is not listed, or that keeps its id. -/
theorem set_node (h : ListedOnce m a) {r : Ref} {n : Node}
    (hn : r ∈ a.nodes → n.node_id = a.node_id r) : ListedOnce m (a.set_node r n) := by
  refine h.congr rfl rfl (fun r' hr' => ?_) (fun _ hid => hid)
  by_cases hr : r' = r
  · subst hr
    rw [← hn hr']
    simp [Allocator.node_id, Allocator.set_node]
  · simp [Allocator.node_id, Allocator.set_node, hr]

end ListedOnce

theorem listed_once_kept (m : ModelInfo) : KeptOn (fun _ => True) (ListedOnce m) where
  listed := fun _ _ _ _ => trivial
  searched := fun _ _ _ _ _ _ => trivial
  allocates := by
    intro a r start_layer end_layer h _
    have hmoved := allocate_moved a r start_layer end_layer
    exact h.congr hmoved.alike.model_info hmoved.nodes (fun r' _ => hmoved.alike.node_id r')
      (fun id hid => allocate_knows hid r start_layer end_layer)
  deallocates := by
    intro a r h
    have hmoved := deallocate_moved a r
    refine h.congr hmoved.alike.model_info hmoved.nodes (fun r' _ => hmoved.alike.node_id r') ?_
    rw [deallocate_ids a r]
    exact fun id hid => hid
  declares := by
    intro a r h _
    by_cases hhas : a.node_id_to_node.has (a.node_id r) = true
    · rw [declare_known hhas]
      exact h.sort_nodes
    · rw [declare_new (Dict.has_eq_false.mp (by simpa using hhas))]
      exact (h.register hhas).sort_nodes

/-- At most the given node was listed or got another range. -/
structure OnlyMoves (r : Ref) (a₀ a : Allocator) : Prop where
  nodes : ∀ r' ∈ a.nodes, r' = r ∨ r' ∈ a₀.nodes
  store : ∀ r', r' ≠ r → a.store r' = a₀.store r'
  node_id : a.node_id r = a₀.node_id r

theorem declare_only_moves (r : Ref) (a₀ : Allocator) : Keeps (OnlyMoves r a₀) (declare r) := by
  apply Triple.of_state
  intro a h
  by_cases hhas : a.node_id_to_node.has (a.node_id r) = true
  · rw [declare_known hhas]
    exact ⟨fun r' hr' => h.nodes r' (mem_sort_nodes.mp hr'), h.store, h.node_id⟩
  · rw [declare_new (Dict.has_eq_false.mp (by simpa using hhas))]
    refine ⟨fun r' hr' => ?_, h.store, h.node_id⟩
    rcases List.mem_append.mp (mem_sort_nodes.mp hr') with hr' | hr'
    · exact h.nodes r' hr'
    · exact Or.inl (List.mem_singleton.mp hr')

theorem allocate_only_moves (r : Ref) (a₀ : Allocator) (start_layer end_layer : Int) :
    Keeps (OnlyMoves r a₀) (allocate r start_layer end_layer) := by
  apply Triple.of_state
  intro a h
  have hmoved := allocate_moved a r start_layer end_layer
  refine ⟨?_, fun r' hne => (hmoved.store r' hne).trans (h.store r' hne),
    (hmoved.alike.node_id r).trans h.node_id⟩
  rw [hmoved.nodes]
  exact h.nodes

theorem join_only_moves (r : Ref) (a₀ : Allocator) :
    Keeps (OnlyMoves r a₀) (layer_allocation.join r) := by
  apply Keeps.bind (declare_only_moves r a₀)
  intro _
  apply Keeps.bind Keeps.gets
  intro a
  rcases a.get_lightest_layer with _ | l
  · exact Keeps.throws _
  · exact allocate_only_moves r a₀ _ _

theorem leave_listed_once (m : ModelInfo) (node_id : String) :
    Keeps (ListedOnce m) (layer_allocation.leave node_id) := by
  apply KeptOn.reads
  intro a _
  split
  · exact Keeps.throws _
  · exact Keeps.bind ((listed_once_kept m).deallocate _)
      (fun _ => Keeps.modifies (fun _ h => h.unregister node_id))

theorem init_listed_once {store : Ref → Node} (m : ModelInfo) {strategy : Strategy}
    {nodes : List Ref} {rebalance_threshold : WithTop Rat} {iterations : Nat} {left_over : Bool}
    (hids : (nodes.map (fun r => (store r).node_id)).Nodup) :
    ListedOnce m
      (Allocator.init store m strategy nodes rebalance_threshold iterations left_over) := by
  have hperm : (sorted_desc (fun r => (store r).capacity) nodes).Perm nodes := sorted_desc_perm _ _
  have hids' : ((sorted_desc (fun r => (store r).capacity) nodes).map
      (fun r => (store r).node_id)).Nodup := (hperm.map _).nodup_iff.mpr hids
  exact ⟨rfl, hids', fun r hr => Dict.has_iff.mpr ⟨r, Dict.get?_insertAll hids' hr⟩⟩

end scheduling.layer_allocation

namespace scheduling.scheduler

open scheduling.request_routing
open Allocator
open RoundRobinPipelineRouting (Sound Unmoved CachedFrom seen_by)

/-! ## What a run keeps -/

theorem listed_once_events (m : ModelInfo) : KeptByEvents (OfAllocator (ListedOnce m)) where
  rebalances := kept_by_rebalance (kept_on_inside (listed_once_kept m))
  joins := kept_by_join (listed_once_kept m)
  leaves := fun left => on_allocator_keeps (leave_listed_once m left)
  counts := fun _ _ h => h.set_node (fun _ => rfl)
  queues := by
    intro s s' h hallocator _
    unfold OfAllocator
    rw [hallocator]
    exact h

/-- The operations on the nodes do not reach the router. -/
theorem operation_router (o : Operation) (s : Scheduler) :
    (o.after s).request_router = s.request_router := by
  have hframe : ∀ (s' : Scheduler) (a : Allocator), s'.request_router = s.request_router →
      { s' with layer_allocator := a }.request_router = s.request_router := fun _ _ h => h
  have hrebalance : KeptByRebalance (fun s' => s'.request_router = s.request_router) :=
    kept_by_frame hframe (fun _ _ h => h)
  have hkeeps : Keeps (fun s' => s'.request_router = s.request_router) o.run := by
    cases o with
    | new_node r n => exact Keeps.modifies (fun _ h => h)
    | join r wait =>
      exact join_keeps ⟨on_allocator_frame hframe _, fun _ _ => on_allocator_frame hframe _,
        on_allocator_frame hframe _, fun _ h => h⟩ wait
    | leave node_id =>
      apply Keeps.bind Keeps.gets
      intro _
      refine Keeps.cond (fun _ => Keeps.throws _) (fun _ => ?_)
      refine Keeps.bind (on_allocator_frame hframe _) (fun _ => ?_)
      exact Keeps.bind (Keeps.modifies (fun _ h => h)) (fun _ => after_removal_keeps hrebalance)
    | bootstrap clear_existing skip_warmup =>
      exact Keeps.bind (bootstrap_keeps hrebalance _ _) (fun _ => Keeps.pure _)
  exact hkeeps.state rfl

theorem operation_listed_once {m : ModelInfo} {s : Scheduler} {o : Operation}
    (h : ListedOnce m s.layer_allocator) (ho : o.Possible s) :
    ListedOnce m (o.after s).layer_allocator := by
  have K := listed_once_events m
  unfold Operation.after
  cases o with
  | new_node r n => exact h.set_node (fun hr => absurd hr ho.listed)
  | join r wait => exact (join_keeps (K.joins r) wait).state (s := s) h
  | leave node_id => exact (K.leave node_id).state (s := s) h
  | bootstrap clear_existing skip_warmup =>
    exact (Keeps.bind (bootstrap_keeps K.rebalances clear_existing skip_warmup)
      (fun _ => Keeps.pure _)).state (s := s) h

/-! ## Dispatches -/

/-- The path names listed nodes, each of them once, and their ranges follow each other over all
layers. -/
def Serves (s : Scheduler) (path : List String) : Prop :=
  ∃ chain : List Ref, chain.Nodup ∧ (∀ r ∈ chain, r ∈ s.nodes) ∧
    path = chain.map (fun r => (s.node r).node_id) ∧ path.Nodup ∧
    Tiles 0 (chain.map s.node) s.num_layers

/-- The same nodes are listed at the same places. Their loads may differ. -/
structure SamePlaces (s s' : Scheduler) : Prop where
  nodes : s'.nodes = s.nodes
  model_info : s'.model_info = s.model_info
  places : ∀ r, SamePlace (s.node r) (s'.node r)

theorem exists_refs {s : Scheduler} {chain : List Node} (h : ∀ n ∈ chain, n ∈ s.node_values) :
    ∃ refs : List Ref, (∀ r ∈ refs, r ∈ s.nodes) ∧ refs.map s.node = chain := by
  induction chain with
  | nil => exact ⟨[], by simp, rfl⟩
  | cons n rest ih =>
    obtain ⟨r, hr, rfl⟩ := List.mem_map.mp (h n List.mem_cons_self)
    obtain ⟨refs, hrefs, rfl⟩ := ih (fun m hm => h m (List.mem_cons_of_mem _ hm))
    exact ⟨r :: refs, List.forall_mem_cons.mpr ⟨hr, hrefs⟩, rfl⟩

/-- A sound path serves, also when the loads have changed. -/
theorem serves_of_sound {m : ModelInfo} {s s' : Scheduler} (h : ListedOnce m s.layer_allocator)
    (hsame : SamePlaces s s') {path : List String}
    (hsound : Sound s.node_values s.num_layers path) : Serves s' path := by
  obtain ⟨chain, hmem, htiles, hrising, rfl⟩ := hsound
  obtain ⟨refs, hrefs, rfl⟩ := exists_refs hmem
  have hnodup : refs.Nodup := (hrising.nodup htiles).of_map
  have hplaces : List.Forall₂ SamePlace (refs.map s.node) (refs.map s'.node) := by
    rw [List.forall₂_map_left_iff, List.forall₂_map_right_iff]
    exact List.forall₂_same.mpr (fun r _ => hsame.places r)
  have hlayers : s'.num_layers = s.num_layers := by
    unfold Scheduler.num_layers num_total_layers
    exact congrArg (fun m : ModelInfo => (m.num_layers : Int)) hsame.model_info
  refine ⟨refs, hnodup, ?_, ?_, ?_, ?_⟩
  · rw [hsame.nodes]
    exact hrefs
  · rw [← same_places_ids hplaces, List.map_map]
    rfl
  · rw [List.map_map]
    exact hnodup.map_on (fun r hr r' hr' hid =>
      List.inj_on_of_nodup_map h.once (hrefs r hr) (hrefs r' hr') hid)
  · rw [hlayers]
    exact same_places_tiles hplaces htiles

theorem assign_request_places (s : Scheduler) (node_id : String) :
    Keeps (SamePlaces s) (assign_request node_id) := by
  apply Keeps.bind Keeps.gets
  intro _
  split
  · exact Keeps.throws _
  · rename_i r _
    refine Keeps.bind (Keeps.modifies (fun _ h => ⟨h.nodes, h.model_info, h.places⟩)) (fun _ => ?_)
    apply Keeps.modifies
    intro s' h
    refine ⟨h.nodes, h.model_info, fun r' => ?_⟩
    have hplace := h.places r'
    by_cases hr : r' = r
    · subst hr
      simpa [Scheduler.node, Scheduler.modify_node, Allocator.set_node, Node.add_request,
        SamePlace] using hplace
    · simpa [Scheduler.node, Scheduler.modify_node, Allocator.set_node, hr] using hplace

/-- The router of a run: its cached pipelines are chains of the nodes that were seen. -/
def RoutesFrom (m : ModelInfo) (seen : List Node) (s : Scheduler) : Prop :=
  ∃ router, s.request_router = .rr router ∧ CachedFrom seen m.num_layers router

/-- The nodes as they were when the router cached its pipelines. -/
def seen_at_discovery (seen : List Node) (s : Scheduler) : List Node :=
  match s.request_router with
  | .rr router => seen_by seen s.node_values router
  | .dp => seen

/-- The ids in the cached pipelines. -/
def cached_ids (s : Scheduler) : List String :=
  match s.request_router with
  | .rr router => (router.pipelines.getD []).flatten
  | .dp => []

/-- No listed node with an id in the cached pipelines has another range than at the discovery. -/
def CacheUnmoved (seen : List Node) (s : Scheduler) : Prop :=
  ∀ n ∈ seen, ∀ r ∈ s.nodes, n.node_id ∈ cached_ids s → (s.node r).node_id = n.node_id →
    (s.node r).start_layer = n.start_layer ∧ (s.node r).end_layer = n.end_layer

instance (seen : List Node) (s : Scheduler) : Decidable (CacheUnmoved seen s) :=
  inferInstanceAs (Decidable (∀ n ∈ seen, ∀ r ∈ s.nodes, _))

theorem CacheUnmoved.path {seen : List Node} {s : Scheduler} (h : CacheUnmoved seen s)
    {router : RoundRobinPipelineRouting} (hrouter : s.request_router = .rr router) :
    ∀ ids ∈ router.pipelines.getD [], Unmoved seen s.node_values ids := by
  intro ids hids n hn k hk hpath hid
  obtain ⟨r, hr, rfl⟩ := List.mem_map.mp hk
  refine ⟨hid, h n hn r hr ?_ hid⟩
  unfold cached_ids
  rw [hrouter]
  exact List.mem_flatten.mpr ⟨ids, hids, hpath⟩

/-- The join of a node that no cached pipeline names leaves the cached nodes where they are. -/
theorem CacheUnmoved.join {seen : List Node} {s : Scheduler} (h : CacheUnmoved seen s) {r : Ref}
    (hnew : (s.node r).node_id ∉ cached_ids s) (wait : Bool) :
    CacheUnmoved seen ((Operation.join r wait).after s) := by
  have hjoin : KeptByJoin r (OfAllocator (OnlyMoves r s.layer_allocator)) :=
    ⟨on_allocator_keeps (declare_only_moves r _),
      fun _ _ => on_allocator_keeps (allocate_only_moves r _ _ _),
      on_allocator_keeps (join_only_moves r _), fun _ h => h⟩
  have hmoves : OnlyMoves r s.layer_allocator ((Operation.join r wait).after s).layer_allocator :=
    (join_keeps hjoin wait).state (s := s) ⟨fun _ hr => Or.inr hr, fun _ _ => rfl, rfl⟩
  have hcache : cached_ids ((Operation.join r wait).after s) = cached_ids s := by
    unfold cached_ids
    rw [operation_router]
  intro n hn r' hr' hid hsame
  rw [hcache] at hid
  by_cases heq : r' = r
  · have hname : (((Operation.join r wait).after s).node r).node_id = (s.node r).node_id :=
      hmoves.node_id
    rw [← hsame, heq, hname] at hid
    exact absurd hid hnew
  · have hnode : ((Operation.join r wait).after s).node r' = s.node r' := hmoves.store r' heq
    rw [hnode] at hsame ⊢
    exact h n hn r' ((hmoves.nodes r' hr').resolve_left heq) hid hsame

/-- So does the removal of a node, before any rebalance. -/
theorem CacheUnmoved.removed {seen : List Node} {s : Scheduler} (h : CacheUnmoved seen s)
    (hviews : Views s.layer_allocator) {node_id : String} {r : Ref}
    (hget : s.node_id_to_node.get? node_id = some r) :
    CacheUnmoved seen (scheduler.removed s node_id) := by
  have hleft := removed_left hviews hget
  intro n hn r' hr' hid hsame
  obtain ⟨hlisted, hne⟩ := (hleft.nodes r').mp hr'
  have hnode : (scheduler.removed s node_id).node r' = s.node r' := hleft.others r' hne
  rw [hnode] at hsame ⊢
  exact h n hn r' hlisted hid hsame

section dispatch

variable {m : ModelInfo} {seen : List Node} {s : Scheduler}

theorem num_layers_eq (h : ListedOnce m s.layer_allocator) : s.num_layers = m.num_layers := by
  unfold Scheduler.num_layers num_total_layers
  rw [h.model]

/-- A choice of the round-robin router changes the router and nothing else. -/
theorem find_optimal_path_by_rr {s : Scheduler} {router : RoundRobinPipelineRouting}
    (h : s.request_router = .rr router) :
    (∃ found router', find_optimal_path s = .ok found { s with request_router := .rr router' } ∧
      RoundRobinPipelineRouting.find_optimal_path s.node_values s.num_layers router =
        .ok found router') ∨
    (∃ e router', find_optimal_path s = .error e { s with request_router := .rr router' } ∧
      RoundRobinPipelineRouting.find_optimal_path s.node_values s.num_layers router =
        .error e router') := by
  unfold find_optimal_path
  rw [h]
  dsimp only
  rcases hrun : RoundRobinPipelineRouting.find_optimal_path s.node_values s.num_layers router with
    ⟨found, router'⟩ | ⟨e, router'⟩
  · exact Or.inl ⟨found, router', rfl, rfl⟩
  · exact Or.inr ⟨e, router', rfl, rfl⟩

/-- The router after a dispatch. -/
theorem dispatch_routes_from (hlisted : ListedOnce m s.layer_allocator)
    (hroutes : RoutesFrom m seen s) :
    RoutesFrom m (seen_at_discovery seen s) (stateOf (dispatch_next_request s)) := by
  obtain ⟨router, hrouter, hcached⟩ := hroutes
  have hfound := RoundRobinPipelineRouting.find_optimal_path_cached s.node_values hcached
  rw [← num_layers_eq hlisted] at hfound
  have hseen : seen_at_discovery seen s = seen_by seen s.node_values router := by
    unfold seen_at_discovery
    rw [hrouter]
  rw [hseen]
  rcases hqueue : s.request_queue with _ | ⟨req, rest⟩
  · rw [dispatch_next_request_empty hqueue]
    exact ⟨router, hrouter, hcached.seen_by⟩
  · rw [dispatch_next_request_eq hqueue]
    have hfind : Triple (fun s' => s' = { s with request_queue := rest }) find_optimal_path
        (fun _ => RoutesFrom m (seen_by seen s.node_values router))
        (fun _ => RoutesFrom m (seen_by seen s.node_values router)) := by
      apply Triple.of_state
      rintro _ rfl
      have hrouter' : { s with request_queue := rest }.request_router = .rr router := hrouter
      rcases find_optimal_path_by_rr hrouter' with ⟨found, router', hrun, hfind⟩ |
        ⟨e, router', hrun, hfind⟩
      all_goals
        rw [hrun]
        refine ⟨router', rfl, ?_⟩
        have hfind' : RoundRobinPipelineRouting.find_optimal_path s.node_values s.num_layers
          router = _ := hfind
        rw [hfind'] at hfound
        rw [← num_layers_eq hlisted]
        exact hfound
    refine (Triple.bind hfind ?_).state rfl
    rintro ⟨path, latency⟩
    refine Keeps.bind (Keeps.forEach _ (fun id _ => ?_)) (fun _ => Keeps.pure _)
    apply Keeps.bind Keeps.gets
    intro _
    split
    · exact Keeps.throws _
    · exact Keeps.bind (Keeps.modifies (fun _ h => h)) (fun _ => Keeps.modifies (fun _ h => h))

/-- While the cached nodes have not moved, the next dispatch returns a sound path or none. -/
theorem dispatch_serves (hlisted : ListedOnce m s.layer_allocator) (hroutes : RoutesFrom m seen s)
    (hunmoved : CacheUnmoved seen s) {request_id : String} {path : List String} {latency : Latency}
    {s' : Scheduler}
    (h : dispatch_next_request s = .ok (some (request_id, path, latency)) s') (hne : path ≠ []) :
    Serves s' path := by
  obtain ⟨router, hrouter, hcached⟩ := hroutes
  rcases hqueue : s.request_queue with _ | ⟨req, rest⟩
  · rw [dispatch_next_request_empty hqueue] at h
    cases h
  · rw [dispatch_next_request_eq hqueue] at h
    obtain ⟨found, s₁, hfind, h⟩ := bind_ok h
    obtain ⟨_, s₂, hassign, h⟩ := bind_ok h
    cases h
    have hrouter' : { s with request_queue := rest }.request_router = .rr router := hrouter
    rcases find_optimal_path_by_rr hrouter' with ⟨found', router', hrun, hchoice⟩ |
      ⟨e, router', hrun, _⟩
    · rw [hrun] at hfind
      cases hfind
      rw [← num_layers_eq hlisted] at hcached
      have hids : (s.node_values.map Node.node_id).Nodup := by
        unfold Scheduler.node_values
        rw [List.map_map]
        exact hlisted.once
      have hsound := (RoundRobinPipelineRouting.find_optimal_path_sound hids hcached
        (hunmoved.path hrouter) hchoice).resolve_left hne
      have hsame : SamePlaces s s' := by
        refine (Keeps.forEach found.1 (fun id _ => assign_request_places s id)).ok ?_ hassign
        exact ⟨rfl, rfl, fun _ => ⟨rfl, rfl, rfl⟩⟩
      exact serves_of_sound hlisted hsame hsound
    · rw [hrun] at hfind
      cases hfind

end dispatch

/-! ## Runs -/

/-- The states of a run, with the nodes as they were when the router cached its pipelines. -/
inductive Routed (s₀ : Scheduler) : List Node → Scheduler → Prop
  | start : Routed s₀ [] s₀
  | operation {seen : List Node} {s : Scheduler} {o : Operation} :
    Routed s₀ seen s → o.Possible s → Routed s₀ seen (o.after s)
  | update_node_info {seen : List Node} {s : Scheduler} (now : Rat) (r : Ref) (u : NodeUpdate) :
    Routed s₀ seen s → Routed s₀ seen (stateOf (update_node_info now r u s))
  | receive_request {seen : List Node} {s : Scheduler} (request : RequestSignal) :
    Routed s₀ seen s → Routed s₀ seen (stateOf (receive_request request s))
  | dispatch_next_request {seen : List Node} {s : Scheduler} :
    Routed s₀ seen s →
      Routed s₀ (seen_at_discovery seen s) (stateOf (dispatch_next_request s))

/-- What every run keeps: the listed ids differ, and the cached pipelines are chains of the nodes
that were seen. -/
structure Traced (m : ModelInfo) (seen : List Node) (s : Scheduler) : Prop where
  listed : ListedOnce m s.layer_allocator
  routes : RoutesFrom m seen s

theorem Routed.traced {m : ModelInfo} {s₀ s : Scheduler} {seen : List Node}
    (hrun : Routed s₀ seen s) (h : Traced m [] s₀) : Traced m seen s := by
  induction hrun with
  | start => exact h
  | @operation seen s o _ hpossible ih =>
    refine ⟨operation_listed_once ih.listed hpossible, ?_⟩
    unfold RoutesFrom
    rw [operation_router o s]
    exact ih.routes
  | update_node_info now r u _ ih => exact ⟨ih.listed.set_node (fun _ => rfl), ih.routes⟩
  | receive_request request _ ih => exact ⟨ih.listed, ih.routes⟩
  | dispatch_next_request _ ih =>
    exact ⟨(listed_once_events m).dispatch_next_request.state ih.listed,
      dispatch_routes_from ih.listed ih.routes⟩

section init

variable {store : Ref → Node} {m : ModelInfo} {nodes : List Ref} {min_nodes : Nat}
  {strategy : Strategy} {rebalance_threshold : WithTop Rat} {iterations : Nat}
  {warm_up_requests : Nat} {heartbeat_timeout : Rat}

theorem init_traced (hids : (nodes.map (fun r => (store r).node_id)).Nodup) :
    Traced m [] (Scheduler.init store m nodes min_nodes strategy (.rr .init) rebalance_threshold
      iterations warm_up_requests heartbeat_timeout) := by
  have hlisted : ListedOnce m
      (Allocator.init store m strategy nodes rebalance_threshold iterations true) :=
    init_listed_once m hids
  refine ⟨?_, .init, rfl, fun ids hids => by cases hids⟩
  unfold Scheduler.init
  split
  · exact (listed_once_kept m).global_allocation.state hlisted
  · exact hlisted

/-- In every run, a path that is dispatched while the cached nodes are where they were serves all
layers. -/
theorem dispatched_path_serves_while_the_cache_is_unmoved
    (hids : (nodes.map (fun r => (store r).node_id)).Nodup) {seen : List Node} {s : Scheduler}
    (hrun : Routed (Scheduler.init store m nodes min_nodes strategy (.rr .init) rebalance_threshold
      iterations warm_up_requests heartbeat_timeout) seen s)
    (hunmoved : CacheUnmoved seen s) {request_id : String} {path : List String} {latency : Latency}
    {s' : Scheduler}
    (h : dispatch_next_request s = .ok (some (request_id, path, latency)) s') (hne : path ≠ []) :
    Serves s' path := by
  have htraced := hrun.traced (init_traced hids)
  exact dispatch_serves htraced.listed htraced.routes hunmoved h hne

end init

/-! ## Three nodes -/

/-- A large node, a small one, and another small one that joins later. -/
def staged_store (r : Ref) : Node :=
  let n := if r = 0 then a100_80g (build_model_info 18) "a"
    else a100_40g (build_model_info 18) (if r = 1 then "b" else "c")
  { n with
    max_concurrent_requests := some 8
    max_sequence_length := some 256
    rtt_to_nodes := some [("a", 1), ("b", 1), ("c", 1)] }

/-- Two nodes share the layers, and two requests wait. -/
def two_requests : Scheduler :=
  stateOf (receive_request ⟨"q", none⟩ (stateOf (receive_request ⟨"p", none⟩
    (.init staged_store (build_model_info 18) [0, 1] 1 .dp (.rr .init) ⊤ 40 0 60))))

/-- The first request has been dispatched, and the third node has joined. -/
def joined_by_a_third : Scheduler :=
  (Operation.join 2 false).after (stateOf (dispatch_next_request two_requests))

/-- The layers have been allocated again, over three nodes. -/
def rebalanced_over_three : Scheduler := (Operation.bootstrap true true).after joined_by_a_third

/-- The id of the next request and its path. -/
def dispatched (s : Scheduler) : Option (String × List String) :=
  match dispatch_next_request s with
  | .ok (some (request_id, path, _)) _ => some (request_id, path)
  | _ => none

theorem dispatch_of_dispatched {s : Scheduler} {request_id : String} {path : List String}
    (h : dispatched s = some (request_id, path)) :
    ∃ latency, dispatch_next_request s =
      .ok (some (request_id, path, latency)) (stateOf (dispatch_next_request s)) := by
  unfold dispatched at h
  split at h
  · rename_i latency s' hrun
    cases h
    rw [hrun]
    exact ⟨latency, rfl⟩
  · cases h

/-- The two nodes of a path meet at a layer. -/
theorem Serves.meets {s : Scheduler} {id id' : String} (h : Serves s [id, id']) :
    ∃ r ∈ s.nodes, ∃ r' ∈ s.nodes, (s.node r).node_id = id ∧ (s.node r').node_id = id' ∧
      (s.node r).end_layer = (s.node r').start_layer := by
  obtain ⟨chain, _, hmem, hpath, _, htiles⟩ := h
  rcases chain with _ | ⟨r, _ | ⟨r', _ | ⟨r'', rest⟩⟩⟩
  · cases hpath
  · cases hpath
  · simp only [List.map_cons, List.map_nil, List.cons.injEq, and_true] at hpath
    obtain ⟨_, e, he, hrest⟩ := tiles_cons.mp htiles
    obtain ⟨hs, _⟩ := tiles_cons.mp hrest
    exact ⟨r, hmem r (by simp), r', hmem r' (by simp), hpath.1.symm, hpath.2.symm, he.trans hs.symm⟩
  · simp at hpath

theorem joined_by_a_third_routed :
    Routed (.init staged_store (build_model_info 18) [0, 1] 1 .dp (.rr .init) ⊤ 40 0 60)
      two_requests.node_values joined_by_a_third :=
  .operation (.dispatch_next_request (.receive_request _ (.receive_request _ .start))) trivial

/-- A join leaves the cached nodes alone, so the second request is served. -/
theorem second_request_is_served_after_the_join :
    Serves (stateOf (dispatch_next_request joined_by_a_third)) ["a", "b"] := by
  obtain ⟨latency, hrun⟩ := dispatch_of_dispatched (s := joined_by_a_third)
    (show _ = some ("q", ["a", "b"]) by decide +kernel)
  have hids : (([0, 1] : List Ref).map (fun r => (staged_store r).node_id)).Nodup := by decide
  exact dispatched_path_serves_while_the_cache_is_unmoved hids joined_by_a_third_routed
    (by decide +kernel) hrun (by simp)

/-- After a rebalance the cached path is still dispatched, and its second node has other layers. -/
theorem rebalance_leaves_a_stale_path :
    ¬ ∀ seen s, Routed (.init staged_store (build_model_info 18) [0, 1] 1 .dp (.rr .init) ⊤ 40 0 60)
      seen s → ∀ request_id path latency s',
        dispatch_next_request s = .ok (some (request_id, path, latency)) s' → path ≠ [] →
          Serves s' path := by
  intro hall
  obtain ⟨latency, hrun⟩ := dispatch_of_dispatched (s := rebalanced_over_three)
    (show _ = some ("q", ["a", "b"]) by decide +kernel)
  have hserves := hall _ rebalanced_over_three (.operation joined_by_a_third_routed trivial) _ _ _ _
    hrun (by simp)
  have hapart : ¬ ∃ r ∈ (stateOf (dispatch_next_request rebalanced_over_three)).nodes,
      ∃ r' ∈ (stateOf (dispatch_next_request rebalanced_over_three)).nodes,
        ((stateOf (dispatch_next_request rebalanced_over_three)).node r).node_id = "a" ∧
        ((stateOf (dispatch_next_request rebalanced_over_three)).node r').node_id = "b" ∧
          ((stateOf (dispatch_next_request rebalanced_over_three)).node r).end_layer =
            ((stateOf (dispatch_next_request rebalanced_over_three)).node r').start_layer := by
    decide +kernel
  exact hapart hserves.meets

end scheduling.scheduler
