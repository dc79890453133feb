-- What a dispatch does to the loads. The bound is not checked where a load goes
-- up: it holds because no router puts an overloaded node into a path, because
-- no node is in a path twice, and as long as the ids of a path lead to the nodes
-- that the router has looked at.
import InferenceMesh.Scheduling.FairRotation
import InferenceMesh.Scheduling.SchedulerView
import InferenceMesh.Scheduling.ShortestChain

open ordered_dict python state_exn
open scheduling.node scheduling.layer_allocation scheduling.request_routing

namespace scheduling.scheduler

open Allocator

/-! ## Loads -/

/-- The allocator with other numbers of current requests. -/
def with_loads (a : Allocator) (load : Ref → Int) : Allocator :=
  { a with store := fun r => { a.store r with current_requests := load r } }

theorem with_loads_self (a : Allocator) :
    with_loads a (fun r => (a.store r).current_requests) = a := rfl

theorem with_loads_twice (a : Allocator) (f g : Ref → Int) :
    with_loads (with_loads a f) g = with_loads a g := rfl

theorem with_loads_same (a : Allocator) (load : Ref → Int) :
    RoundRobinPipelineRouting.SameAllocation (a.nodes.map a.store)
      ((with_loads a load).nodes.map (with_loads a load).store) := by
  unfold RoundRobinPipelineRouting.SameAllocation
  rw [List.map_map, List.map_map]
  rfl

theorem add_request_eq (a : Allocator) (r : Ref) :
    a.set_node r (a.store r).add_request =
      with_loads a (fun r' => (a.store r').current_requests + if r' = r then 1 else 0) := by
  unfold set_node with_loads
  congr 1
  funext r'
  by_cases h : r' = r
  · subst h
    simp [Node.add_request]
  · simp [h]

/-- The reference is that of an id on the path. -/
def OnPath (s : Scheduler) (path : List String) (r : Ref) : Prop :=
  ∃ id ∈ path, s.node_id_to_node.get? id = some r

instance (s : Scheduler) (path : List String) (r : Ref) : Decidable (OnPath s path r) :=
  inferInstanceAs (Decidable (∃ id ∈ path, _))

/-- One request more on each node of the path, and nothing else. -/
structure Loaded (path : List String) (s s' : Scheduler) : Prop where
  allocator : s'.layer_allocator = with_loads s.layer_allocator
    (fun r => (s.node r).current_requests + if OnPath s path r then 1 else 0)
  counts : ∀ id, (s'.node_assigned_request_count.get? id).getD 0 =
    (s.node_assigned_request_count.get? id).getD 0 + if id ∈ path then 1 else 0
  queue : s'.request_queue = s.request_queue
  router : s'.request_router = s.request_router

theorem assign_request_eq {s : Scheduler} {id : String} {r : Ref}
    (h : s.node_id_to_node.get? id = some r) :
    assign_request id s = .ok () ((s.count_request id).modify_node r Node.add_request) := by
  unfold assign_request
  rw [get_bind, h]
  rfl

theorem assign_request_loaded {s : Scheduler} {id : String} {r : Ref}
    (h : s.node_id_to_node.get? id = some r) :
    Loaded [id] s ((s.count_request id).modify_node r Node.add_request) := by
  refine ⟨?_, ?_, rfl, rfl⟩
  · refine (add_request_eq s.layer_allocator r).trans ?_
    congr 1
    funext r'
    have hon : OnPath s [id] r' ↔ r' = r := by
      unfold OnPath
      simp [h, eq_comm]
    simp only [hon]
    rfl
  · intro id'
    show ((s.node_assigned_request_count.insert id _).get? id').getD 0 = _
    rw [Dict.get?_insert]
    by_cases heq : id = id'
    · subst heq
      simp
    · rw [if_neg heq]
      simp [Ne.symm heq]

theorem Loaded.ids {path : List String} {s s' : Scheduler} (h : Loaded path s s') :
    s'.node_id_to_node = s.node_id_to_node := by
  unfold Scheduler.node_id_to_node
  rw [h.allocator]
  rfl

/-- Each id of the path leads to a node of that id. -/
def Known (s : Scheduler) (path : List String) : Prop :=
  ∀ id ∈ path, ∃ r, s.node_id_to_node.get? id = some r ∧ (s.node r).node_id = id

theorem Known.named {s : Scheduler} {path : List String} (h : Known s path) {id : String} {r : Ref}
    (hid : id ∈ path) (hget : s.node_id_to_node.get? id = some r) : (s.node r).node_id = id := by
  obtain ⟨r', hget', hname⟩ := h id hid
  rw [hget] at hget'
  rw [Option.some.inj hget']
  exact hname

theorem Loaded.known {path ids : List String} {s s' : Scheduler} (h : Loaded path s s')
    (hknown : Known s ids) : Known s' ids := by
  intro id hid
  obtain ⟨r, hget, hname⟩ := hknown id hid
  refine ⟨r, by rw [h.ids]; exact hget, ?_⟩
  unfold Scheduler.node
  rw [h.allocator]
  exact hname

/-- The loads of a path add up, one node at a time. -/
theorem Loaded.cons {id : String} {rest : List String} {s s₁ s' : Scheduler}
    (hknown : Known s (id :: rest)) (hnew : id ∉ rest) (hfirst : Loaded [id] s s₁)
    (hrest : Loaded rest s₁ s') : Loaded (id :: rest) s s' := by
  refine ⟨?_, ?_, hrest.queue.trans hfirst.queue, hrest.router.trans hfirst.router⟩
  · rw [hrest.allocator, hfirst.allocator, with_loads_twice]
    congr 1
    funext r
    have hload : (s₁.node r).current_requests = (s.node r).current_requests +
        if OnPath s [id] r then 1 else 0 := by
      unfold Scheduler.node
      rw [hfirst.allocator]
      rfl
    have hon : OnPath s₁ rest r ↔ OnPath s rest r := by
      unfold OnPath
      rw [hfirst.ids]
    have hcons : OnPath s (id :: rest) r ↔ OnPath s [id] r ∨ OnPath s rest r := by
      simp [OnPath]
    -- A node has one id, so it is not counted twice.
    have hone : OnPath s [id] r → ¬ OnPath s rest r := by
      rintro ⟨id₁, hid₁, hget₁⟩ ⟨id₂, hid₂, hget₂⟩
      rw [List.mem_singleton.mp hid₁] at hget₁
      have hname := (hknown.named List.mem_cons_self hget₁).symm.trans
        (hknown.named (List.mem_cons_of_mem _ hid₂) hget₂)
      exact hnew (hname ▸ hid₂)
    rw [hload]
    simp only [hon, hcons]
    by_cases h₁ : OnPath s [id] r
    · simp [h₁, hone h₁]
    · simp [h₁]
  · intro id'
    rw [hrest.counts, hfirst.counts]
    by_cases heq : id' = id
    · subst heq
      simp [hnew]
    · simp [heq]

/-- Counting the request on the nodes of a path. -/
theorem assign_path {path : List String} {s : Scheduler} (hnodup : path.Nodup)
    (hknown : Known s path) :
    ∃ s', path.forM assign_request s = .ok () s' ∧ Loaded path s s' := by
  induction path generalizing s with
  | nil =>
    refine ⟨s, rfl, ?_, by simp, rfl, rfl⟩
    have hnone : ∀ r, ¬ OnPath s [] r := by simp [OnPath]
    simp only [hnone, if_false, add_zero]
    rfl
  | cons id rest ih =>
    obtain ⟨hnew, hrest⟩ := List.nodup_cons.mp hnodup
    obtain ⟨r, hr, _⟩ := hknown id List.mem_cons_self
    have hfirst := assign_request_loaded hr
    have hknown₁ := hfirst.known (fun id' hid' => hknown id' (List.mem_cons_of_mem id hid'))
    obtain ⟨s', hrun, hloaded⟩ := ih hrest hknown₁
    refine ⟨s', ?_, hfirst.cons hknown hnew hloaded⟩
    exact (bind_of_ok (assign_request_eq hr)).trans hrun

/-! ## The routers -/

open RoundRobinPipelineRouting (SameAllocation Cached Served)

/-- A chain of finite cost has no overloaded node. -/
theorem free_of_finite_cost {chain : List Node} (h : chain_cost latency_of chain ≠ ⊤) :
    ∀ n ∈ chain, n.is_overloaded = .ok false := by
  have hone : ∀ n : Node, latency_of n ≠ ⊤ → n.is_overloaded = .ok false := by
    intro n hfinite
    rcases hload : n.is_overloaded with e | b
    · exfalso
      apply hfinite
      unfold latency_of Node.layer_latency_ms
      rw [hload]
      rfl
    · cases b with
      | false => rfl
      | true =>
        exfalso
        apply hfinite
        unfold latency_of Node.layer_latency_ms
        rw [hload]
        rfl
  induction chain with
  | nil => exact fun n hn => by cases hn
  | cons n rest ih =>
    intro m hm
    rcases rest with _ | ⟨x, rest⟩
    · rw [List.mem_singleton.mp hm]
      exact hone n h
    · rw [chain_cost, WithTop.add_ne_top, WithTop.add_ne_top] at h
      rcases List.mem_cons.mp hm with rfl | hm
      · exact hone m h.1.1
      · exact ih h.2 m hm

/-- What a path of the router over ranges is. -/
theorem dp_served {nodes : List Node} {num_layers : Int} (hids : (nodes.map Node.node_id).Nodup)
    (hranges : Ascending nodes) {found : List String × Latency}
    (h : DynamicProgrammingRouting.find_optimal_path nodes num_layers = .ok found) :
    Served nodes num_layers found.1 := by
  by_cases hguard : num_layers ≤ 0 ∨ nodes = []
  · unfold DynamicProgrammingRouting.find_optimal_path at h
    rw [if_pos hguard] at h
    cases h
    exact Or.inl rfl
  · rw [not_or, not_le] at hguard
    have L : DynamicProgrammingRouting.Layout nodes latency_of := by
      refine ⟨hids, hranges, ?_⟩
      intro n _ _ x hx
      unfold latency_of
      rw [hx]
    rcases DynamicProgrammingRouting.find_optimal_path.spec L (by omega) hguard.2 h with
      ⟨rfl, _⟩ | ⟨chain, ⟨hmem, htiles⟩, hfinite, rfl, _⟩
    · exact Or.inl rfl
    · refine Or.inr ⟨chain, ?_, ⟨?_, htiles⟩, rfl⟩
      · rintro rfl
        have hzero : (0 : Int) = num_layers := htiles
        omega
      · exact fun n hn => ⟨(hmem n hn).1, free_of_finite_cost hfinite n hn⟩

/-- The listed nodes are the objects that their ids lead to, and their ranges ascend. -/
structure Listed (s : Scheduler) : Prop where
  objects : ∀ r ∈ s.nodes, s.node_id_to_node.get? (s.node r).node_id = some r
  nodup : s.nodes.Nodup
  ascending : Ascending s.node_values

theorem Listed.one_object {s : Scheduler} (h : Listed s) {r r' : Ref} (hr : r ∈ s.nodes)
    (hr' : r' ∈ s.nodes) (hid : (s.node r').node_id = (s.node r).node_id) : r' = r := by
  have hget := h.objects r' hr'
  rw [hid, h.objects r hr] at hget
  exact (Option.some.inj hget).symm

theorem Listed.ids {s : Scheduler} (h : Listed s) : (s.node_values.map Node.node_id).Nodup := by
  unfold Scheduler.node_values
  rw [List.map_map]
  exact h.nodup.map_on (fun r hr r' hr' hid => h.one_object hr' hr hid)

/-- The cache of a round-robin router is empty, or that of the allocation. -/
def RouterFits (s : Scheduler) : Prop :=
  match s.request_router with
  | .dp => True
  | .rr router => Cached s.node_values s.num_layers router

/-- The allocation is well kept, the router fits it, and no node has more requests than it takes. -/
structure LoadSafe (s : Scheduler) : Prop where
  listed : Listed s
  router : RouterFits s
  loads : ∀ r ∈ s.nodes, ∀ limit, (s.node r).max_requests = .ok limit →
    (s.node r).current_requests ≤ limit

/-- The router serves, and changes nothing but itself. -/
theorem find_optimal_path_served {s : Scheduler} (hlisted : Listed s) (hrouter : RouterFits s) :
    match find_optimal_path s with
    | .ok found s' => Served s.node_values s.num_layers found.1 ∧ RouterFits s' ∧
        ∃ router, s' = { s with request_router := router }
    | .error _ s' => RouterFits s' ∧ ∃ router, s' = { s with request_router := router } := by
  have hids := hlisted.ids
  have hranges := hlisted.ascending
  unfold find_optimal_path
  unfold RouterFits at hrouter
  rcases hr : s.request_router with _ | router
  · have hfits : RouterFits s := by
      unfold RouterFits
      rw [hr]
      trivial
    dsimp only
    rcases hrun : DynamicProgrammingRouting.find_optimal_path s.node_values s.num_layers with
      e | found
    · exact ⟨hfits, s.request_router, rfl⟩
    · exact ⟨dp_served hids hranges hrun, hfits, s.request_router, rfl⟩
  · rw [hr] at hrouter
    dsimp only at hrouter ⊢
    have hspec := RoundRobinPipelineRouting.find_optimal_path.spec hids hranges router hrouter
    rcases hrun : RoundRobinPipelineRouting.find_optimal_path s.node_values s.num_layers router with
      ⟨found, router'⟩ | ⟨e, router'⟩
    · rw [hrun] at hspec
      exact ⟨hspec.1, hspec.2, .rr router', rfl⟩
    · rw [hrun] at hspec
      exact ⟨hspec, .rr router', rfl⟩

/-- A path that is served has no node twice, and its nodes have room for a request. -/
theorem served_path {s : Scheduler} (hlisted : Listed s) {path : List String}
    (h : Served s.node_values s.num_layers path) :
    path.Nodup ∧ ∀ id ∈ path, ∃ r ∈ s.nodes, (s.node r).node_id = id ∧
      ∃ limit, (s.node r).max_requests = .ok limit ∧ (s.node r).current_requests < limit := by
  rcases h with rfl | ⟨chain, _, ⟨hfree, htiles⟩, rfl⟩
  · exact ⟨List.nodup_nil, fun id hid => by cases hid⟩
  · have hranges := hlisted.ascending
    have hnodup := (htiles.nodup (fun n hn => hranges n (hfree n hn).1)).1
    constructor
    · exact hnodup.map_on (fun n hn m hm heq =>
        List.inj_on_of_nodup_map hlisted.ids (hfree n hn).1 (hfree m hm).1 heq)
    · intro id hid
      obtain ⟨n, hn, rfl⟩ := List.mem_map.mp hid
      obtain ⟨hmem, hload⟩ := hfree n hn
      obtain ⟨r, hr, rfl⟩ := List.mem_map.mp hmem
      refine ⟨r, hr, rfl, ?_⟩
      unfold Node.is_overloaded at hload
      obtain ⟨limit, hlimit, hload⟩ := except_list.bind_eq_ok.mp hload
      refine ⟨limit, hlimit, ?_⟩
      have hnot : decide ((s.node r).current_requests ≥ limit) = false := Except.ok.inj hload
      rw [decide_eq_false_iff_not] at hnot
      omega

/-! ## Dispatches -/

/-- What the next dispatch does. A dispatch that raises changes no load. -/
def DispatchesOnce (s : Scheduler) : Prop :=
  match dispatch_next_request s with
  | .ok none s' => s.request_queue = [] ∧ s' = s
  | .ok (some (request_id, path, _)) s' =>
    (∃ req rest, s.request_queue = req :: rest ∧ request_id = req.request_id ∧
      s'.request_queue = rest) ∧
    s'.nodes = s.nodes ∧ path.Nodup ∧ (∀ id ∈ path, ∃ r ∈ s.nodes, (s.node r).node_id = id) ∧
    (∀ r ∈ s.nodes, s'.node r = { s.node r with
      current_requests :=
        (s.node r).current_requests + if (s.node r).node_id ∈ path then 1 else 0 }) ∧
    ∀ id, (s'.node_assigned_request_count.get? id).getD 0 =
      (s.node_assigned_request_count.get? id).getD 0 + if id ∈ path then 1 else 0
  | .error _ s' => ∀ r, s'.node r = s.node r

theorem dispatch_next_request_empty {s : Scheduler} (hqueue : s.request_queue = []) :
    dispatch_next_request s = .ok none s := by
  unfold dispatch_next_request
  rw [get_bind, hqueue]
  rfl

theorem dispatch_next_request_eq {s : Scheduler} {req : RequestSignal} {rest : List RequestSignal}
    (hqueue : s.request_queue = req :: rest) :
    dispatch_next_request s = (do
      let (path, latency) ← find_optimal_path
      path.forM assign_request
      return some (req.request_id, path, latency) : SchedM _) { s with request_queue := rest } := by
  unfold dispatch_next_request
  rw [get_bind, hqueue]
  rfl

/-! ### What a path changes -/

section loaded

variable {path : List String} {s s' : Scheduler} (h : Loaded path s s')
include h

theorem Loaded.nodes : s'.nodes = s.nodes := by
  unfold Scheduler.nodes
  rw [h.allocator]
  rfl

theorem Loaded.num_layers : s'.num_layers = s.num_layers := by
  unfold Scheduler.num_layers
  rw [h.allocator]
  rfl

theorem Loaded.same : SameAllocation s.node_values s'.node_values := by
  unfold Scheduler.node_values Scheduler.nodes Scheduler.node
  rw [h.allocator]
  exact with_loads_same _ _

theorem Loaded.node (hlisted : Listed s) (hknown : Known s path) {r : Ref} (hr : r ∈ s.nodes) :
    s'.node r = { s.node r with
      current_requests :=
        (s.node r).current_requests + if (s.node r).node_id ∈ path then 1 else 0 } := by
  have hon : OnPath s path r ↔ (s.node r).node_id ∈ path := by
    constructor
    · rintro ⟨id, hid, hget⟩
      rw [hknown.named hid hget]
      exact hid
    · intro hid
      exact ⟨_, hid, hlisted.objects r hr⟩
  unfold Scheduler.node at hon ⊢
  rw [h.allocator]
  unfold with_loads
  simp only [hon]
  rfl

theorem Loaded.listed (hlisted : Listed s) : Listed s' := by
  refine ⟨?_, by rw [h.nodes]; exact hlisted.nodup, h.same.ascending hlisted.ascending⟩
  intro r hr
  rw [h.nodes] at hr
  have hid : (s'.node r).node_id = (s.node r).node_id := by
    unfold Scheduler.node
    rw [h.allocator]
    rfl
  rw [h.ids, hid]
  exact hlisted.objects r hr

theorem Loaded.fits (hrouter : RouterFits s) : RouterFits s' := by
  unfold RouterFits at hrouter ⊢
  rw [h.router]
  rcases hkind : s.request_router with _ | router
  · trivial
  · rw [hkind] at hrouter
    dsimp only at hrouter ⊢
    rw [h.num_layers]
    exact h.same.cached hrouter

/-- A node of the path had room for one request more. -/
theorem Loaded.loads (hlisted : Listed s) (hknown : Known s path)
    (hroom : ∀ id ∈ path, ∃ r ∈ s.nodes, (s.node r).node_id = id ∧
      ∃ limit, (s.node r).max_requests = .ok limit ∧ (s.node r).current_requests < limit)
    (hloads : ∀ r ∈ s.nodes, ∀ limit, (s.node r).max_requests = .ok limit →
      (s.node r).current_requests ≤ limit) :
    ∀ r ∈ s'.nodes, ∀ limit, (s'.node r).max_requests = .ok limit →
      (s'.node r).current_requests ≤ limit := by
  intro r hr limit hlimit
  rw [h.nodes] at hr
  rw [h.node hlisted hknown hr] at hlimit ⊢
  have hlimit' : (s.node r).max_requests = .ok limit := hlimit
  have hold := hloads r hr limit hlimit'
  dsimp only
  split
  · rename_i hid
    obtain ⟨r', hr', hname, limit', hlimit'', hlt⟩ := hroom _ hid
    rw [hlisted.one_object hr hr' hname] at hlimit'' hlt
    rw [hlimit'] at hlimit''
    have hsame : limit = limit' := Except.ok.inj hlimit''
    omega
  · omega

end loaded

/-- A dispatch does what it says, and keeps the loads safe. -/
theorem dispatch_next_request.spec {s : Scheduler} (h : LoadSafe s) :
    DispatchesOnce s ∧ LoadSafe (stateOf (dispatch_next_request s)) := by
  unfold DispatchesOnce
  rcases hqueue : s.request_queue with _ | ⟨req, rest⟩
  · rw [dispatch_next_request_empty hqueue]
    exact ⟨⟨rfl, rfl⟩, h⟩
  · rw [dispatch_next_request_eq hqueue]
    have hlisted : Listed { s with request_queue := rest } :=
      ⟨h.listed.objects, h.listed.nodup, h.listed.ascending⟩
    have hserved := find_optimal_path_served hlisted h.router
    rcases hrun : find_optimal_path { s with request_queue := rest } with
      ⟨⟨path, latency⟩, s₁⟩ | ⟨e, s₁⟩
    · rw [hrun] at hserved
      obtain ⟨hpath, hfits, router, rfl⟩ := hserved
      obtain ⟨hnodup, hroom⟩ := served_path hlisted hpath
      have hlisted₁ : Listed { s with request_queue := rest, request_router := router } :=
        ⟨h.listed.objects, h.listed.nodup, h.listed.ascending⟩
      have hknown : Known { s with request_queue := rest, request_router := router } path := by
        intro id hid
        obtain ⟨r, hr, hname, _⟩ := hroom id hid
        exact ⟨r, hname ▸ h.listed.objects r hr, hname⟩
      obtain ⟨s', hassign, hloaded⟩ := assign_path hnodup hknown
      rw [bind_of_ok hrun]
      dsimp only
      rw [bind_of_ok hassign]
      refine ⟨⟨⟨req, rest, rfl, rfl, hloaded.queue⟩, hloaded.nodes, hnodup, ?_,
        fun r hr => hloaded.node hlisted₁ hknown hr, hloaded.counts⟩,
        hloaded.listed hlisted₁, hloaded.fits hfits,
        hloaded.loads hlisted₁ hknown hroom h.loads⟩
      intro id hid
      obtain ⟨r, hr, hname, _⟩ := hroom id hid
      exact ⟨r, hr, hname⟩
    · rw [hrun] at hserved
      rw [bind_of_error hrun]
      obtain ⟨hfits, router, rfl⟩ := hserved
      exact ⟨fun r => rfl, ⟨h.listed.objects, h.listed.nodup, h.listed.ascending⟩, hfits, h.loads⟩

/-- Dispatches, and requests that come in between them. -/
inductive Dispatched (s₀ : Scheduler) : Scheduler → Prop
  | start : Dispatched s₀ s₀
  | dispatch {s : Scheduler} : Dispatched s₀ s → Dispatched s₀ (stateOf (dispatch_next_request s))
  | receive {s : Scheduler} (request : RequestSignal) :
    Dispatched s₀ s → Dispatched s₀ (stateOf (receive_request request s))

/-- Over any number of dispatches on an allocation that stays fixed, no node gets more requests than
it takes, and each dispatch counts its request once, on the nodes of its path and nowhere else. -/
theorem dispatch_load_is_safe {s₀ s : Scheduler} (hlisted : Listed s₀) (hrouter : RouterFits s₀)
    (hloads : ∀ r ∈ s₀.nodes, ∀ limit, (s₀.node r).max_requests = .ok limit →
      (s₀.node r).current_requests ≤ limit)
    (hrun : Dispatched s₀ s) :
    (∀ r ∈ s.nodes, ∀ limit, (s.node r).max_requests = .ok limit →
      (s.node r).current_requests ≤ limit) ∧ DispatchesOnce s := by
  have hsafe : LoadSafe s := by
    induction hrun with
    | start => exact ⟨hlisted, hrouter, hloads⟩
    | dispatch _ ih => exact (dispatch_next_request.spec ih).2
    | receive request _ ih =>
      exact ⟨⟨ih.listed.objects, ih.listed.nodup, ih.listed.ascending⟩, ih.router, ih.loads⟩
  exact ⟨hsafe.loads, (dispatch_next_request.spec hsafe).1⟩

theorem listed_of_views {s : Scheduler} (hviews : Views s.layer_allocator) : Listed s := by
  refine ⟨hviews.listed, hviews.nodup, ?_⟩
  intro n hn start_layer end_layer hs he
  obtain ⟨r, hr, rfl⟩ := List.mem_map.mp hn
  have hget := hviews.listed r hr
  obtain ⟨hs', he'⟩ := hviews.ranges _ r hget
  rw [show (s.layer_allocator.store r).start_layer = some start_layer from hs] at hs'
  rw [show (s.layer_allocator.store r).end_layer = some end_layer from he] at he'
  obtain ⟨⟨s', e'⟩, halloc, hs''⟩ := Option.map_eq_some_iff.mp hs'.symm
  rw [halloc] at he'
  simp only [Option.map_some, Option.some.injEq] at he' hs''
  rw [he', ← hs'']
  exact hviews.ascending _ _ _ halloc

/-! ## A worker that joins twice -/

/-- A message of a worker that says how long its sequences may get. -/
def sized : NodeMessage := { joining "a" with max_sequence_length := some 256 }

/-- The worker has joined, and holds all layers. -/
def hosted_once : Scheduler :=
  Event.bootstrap_after_joins.after
    (Event.process_join.after ((Event.node_join 0 sized 0).after empty_scheduler))

/-- A request comes in for the worker. -/
def asked_once : Scheduler := (Event.receive_request ⟨"q", none⟩).after hosted_once

/-- The worker joins again, and a request comes in. -/
def asked_twice : Scheduler :=
  (Event.receive_request ⟨"q", none⟩).after
    (Event.process_join.after ((Event.node_join 1 sized 1).after hosted_once))

theorem hosted_once_views : Views hosted_once.layer_allocator := by
  have hrun : Reachable Event.Clean empty_scheduler hosted_once := by
    refine .event (.event (.event .start first_join_unused trivial) trivial ?_) trivial trivial
    intro r hr
    have hr' : r = 0 := by
      have h0 : ((Event.node_join 0 sized 0).after empty_scheduler).pending_joins.head? =
          some 0 := by decide +kernel
      rw [h0] at hr
      exact (Option.some.inj hr).symm
    rw [hr']
    decide +kernel
  exact (clean_run_placed (by decide) (by decide) hrun).views

theorem asked_twice_reached : Reachable (fun _ _ => True) empty_scheduler asked_twice := by
  have honce : Reachable (fun _ _ => True) empty_scheduler hosted_once :=
    .event (.event (.event .start first_join_unused trivial) trivial trivial) trivial trivial
  exact .event (.event (.event honce ⟨by decide +kernel, by decide +kernel, by decide +kernel⟩
    trivial) trivial trivial) trivial trivial

/-- The only node has no request, and takes some. -/
def OneIdleNode (s : Scheduler) : Prop :=
  s.nodes = [0] ∧ (s.node 0).current_requests = 0 ∧
    ∀ limit ∈ (s.node 0).max_requests.toOption, 0 ≤ limit

instance (s : Scheduler) : Decidable (OneIdleNode s) := by
  unfold OneIdleNode
  infer_instance

theorem OneIdleNode.loads {s : Scheduler} (h : OneIdleNode s) :
    ∀ r ∈ s.nodes, ∀ limit, (s.node r).max_requests = .ok limit →
      (s.node r).current_requests ≤ limit := by
  intro r hr limit hlimit
  rw [h.1] at hr
  rw [List.mem_singleton.mp hr] at hlimit ⊢
  rw [h.2.1]
  exact h.2.2 limit (by rw [hlimit]; rfl)

/-- The router has no pipelines yet. -/
def caches_nothing : Router → Bool
  | .dp => true
  | .rr router => router.pipelines.isNone

/-- The dispatch takes the path of the node "a" and leaves the first object without load. -/
def dispatches_uncharged (s : Scheduler) : Bool :=
  match dispatch_next_request s with
  | .ok (some found) s' => decide (found.2.1 = ["a"] ∧ (s'.node 0).current_requests = 0)
  | _ => false

/-- The request is counted on its only node. -/
theorem asked_once_is_charged : DispatchesOnce asked_once := by
  refine (dispatch_load_is_safe (listed_of_views hosted_once_views) ?_
    (OneIdleNode.loads (by decide +kernel)) (.receive ⟨"q", none⟩ .start)).2
  have hempty : caches_nothing hosted_once.request_router = true := by decide +kernel
  unfold caches_nothing at hempty
  unfold RouterFits
  rcases hkind : hosted_once.request_router with _ | ⟨n, pipelines⟩
  · trivial
  · rw [hkind] at hempty
    intro ps hps
    have hnone : pipelines = none := Option.isNone_iff_eq_none.mp hempty
    rw [hnone] at hps
    cases hps

/-- The request goes to the listed object, and is counted on the one that the id leads to. -/
theorem rejoined_worker_is_not_charged :
    ¬ ∀ s, Reachable (fun _ _ => True) empty_scheduler s →
      (∀ r ∈ s.nodes, ∀ limit, (s.node r).max_requests = .ok limit →
        (s.node r).current_requests ≤ limit) → DispatchesOnce s := by
  intro hall
  have hone : OneIdleNode asked_twice := by decide +kernel
  have honce : DispatchesOnce asked_twice := hall asked_twice asked_twice_reached hone.loads
  have hrun : dispatches_uncharged asked_twice = true := by decide +kernel
  unfold dispatches_uncharged at hrun
  unfold DispatchesOnce at honce
  rcases hdispatch : dispatch_next_request asked_twice with ⟨_ | ⟨id, path, latency⟩, s'⟩ | ⟨e, s'⟩
  · rw [hdispatch] at hrun
    cases hrun
  · rw [hdispatch] at hrun honce
    obtain ⟨hpath, hunchanged⟩ := of_decide_eq_true hrun
    have hcharged := honce.2.2.2.2.1 0 (by rw [hone.1]; exact List.mem_singleton_self 0)
    have hname : (asked_twice.node 0).node_id = "a" := by decide +kernel
    rw [hcharged] at hunchanged
    simp [hone.2.1, hname, show path = ["a"] from hpath] at hunchanged
  · rw [hdispatch] at hrun
    cases hrun

end scheduling.scheduler
