-- Three searches for a chain: the router over ranges, the round-robin router
-- and the readiness check. The round-robin router alone does not ask whether a
-- node is active, so they agree as long as inactive nodes are in no chain.
import InferenceMesh.Scheduling.FairRotation
import InferenceMesh.Scheduling.FullPipeline
import InferenceMesh.Scheduling.ShortestChain

open ordered_dict python state_exn except_list
open scheduling.node scheduling.layer_allocation

namespace scheduling.request_routing

open RoundRobinPipelineRouting (Measured Cached Reached calls init current_pipelines AllFree)

/-- A chain over all layers of nodes that are active and not overloaded. -/
def ServingChain (nodes : List Node) (num_layers : Int) (chain : List Node) : Prop :=
  chain ≠ [] ∧ FreeChain nodes num_layers 0 chain ∧ ∀ n ∈ chain, n.is_active = true

/-- The router over ranges finds a path. -/
def DpFinds (nodes : List Node) (num_layers : Int) : Prop :=
  ∃ path latency, DynamicProgrammingRouting.find_optimal_path nodes num_layers =
    .ok (path, latency) ∧ path ≠ []

/-- A fresh round-robin router finds a path. -/
def RrFinds (nodes : List Node) (num_layers : Int) : Prop :=
  ∃ path latency router', RoundRobinPipelineRouting.find_optimal_path nodes num_layers init =
    .ok (path, latency) router' ∧ path ≠ []

/-- All nodes of the path are active. -/
def AllActive (nodes : List Node) (path : List String) : Prop :=
  ∀ n ∈ nodes, n.node_id ∈ path → n.is_active = true

/-- The nodes are those of an allocator. -/
structure Holds (a : Allocator) (nodes : List Node) (num_layers : Int) : Prop where
  views : Views a
  nodes : a.nodes.map a.store = nodes
  layers : a.num_total_layers = num_layers
  registered : ∀ id r, a.node_id_to_node.get? id = some r → r ∈ a.nodes

/-- The routers and the readiness check decide the same, and no router ever returns an inactive
node. -/
structure RoutersAgree (nodes : List Node) (num_layers : Int) : Prop where
  routers : DpFinds nodes num_layers ↔ RrFinds nodes num_layers
  chain : RrFinds nodes num_layers ↔ ∃ chain, ServingChain nodes num_layers chain
  ready : ∀ a, Holds a nodes num_layers → (∀ n ∈ nodes, n.is_overloaded = .ok false) →
    (a.has_full_pipeline true = true ↔ ∃ chain, ServingChain nodes num_layers chain)
  dp_active : ∀ path latency, DynamicProgrammingRouting.find_optimal_path nodes num_layers =
    .ok (path, latency) → AllActive nodes path
  rr_active : ∀ count paths router', calls num_layers (List.replicate count nodes) init =
    .ok paths router' → ∀ path ∈ paths, AllActive nodes path

/-! ## The readiness check -/

theorem full_pipeline_iff {a : Allocator} {nodes : List Node} {num_layers : Int}
    (h : Holds a nodes num_layers) (active_only : Bool) :
    a.has_full_pipeline active_only = true ↔ ∃ chain, chain ≠ [] ∧
      (∀ n ∈ chain, n ∈ nodes ∧ (active_only = true → n.is_active = true)) ∧
        Tiles 0 chain num_layers := by
  have hspan : ∀ s e, a.Spans active_only s e ↔
      ∃ n ∈ nodes, (active_only = true → n.is_active = true) ∧ n.start_layer = some s ∧ n.end_layer = some e := by
    intro s e
    constructor
    · rintro ⟨id, r, hget, halloc, hactive⟩
      obtain ⟨hs, he⟩ := h.views.ranges id r hget
      rw [halloc] at hs he
      refine ⟨a.store r, ?_, hactive, hs, he⟩
      rw [← h.nodes]
      exact List.mem_map_of_mem (h.registered id r hget)
    · rintro ⟨n, hn, hactive, hs, he⟩
      rw [← h.nodes] at hn
      obtain ⟨r, hr, rfl⟩ := List.mem_map.mp hn
      have hget := h.views.listed r hr
      obtain ⟨hs', he'⟩ := h.views.ranges _ r hget
      rw [hs] at hs'
      rw [he] at he'
      obtain ⟨⟨s', e'⟩, halloc, hs''⟩ := Option.map_eq_some_iff.mp hs'.symm
      rw [halloc] at he'
      simp only [Option.map_some, Option.some.injEq] at he' hs''
      refine ⟨_, r, hget, ?_, hactive⟩
      rw [halloc, he', hs'']
  have hchain : ∀ s e, a.Chain active_only s e ↔
      ∃ chain, (∀ n ∈ chain, n ∈ nodes ∧ (active_only = true → n.is_active = true)) ∧
        Tiles s chain e := by
    intro s e
    constructor
    · intro hsteps
      induction hsteps using Relation.ReflTransGen.head_induction_on with
      | refl => exact ⟨[], by simp, rfl⟩
      | head hstep _ ih =>
        obtain ⟨n, hn, hactive, hs, he⟩ := (hspan _ _).mp hstep
        obtain ⟨chain, hmem, htiles⟩ := ih
        refine ⟨n :: chain, ?_, tiles_cons.mpr ⟨hs, _, he, htiles⟩⟩
        intro m hm
        rcases List.mem_cons.mp hm with rfl | hm
        · exact ⟨hn, hactive⟩
        · exact hmem m hm
    · rintro ⟨chain, hmem, htiles⟩
      induction chain generalizing s with
      | nil =>
        rw [show s = e from htiles]
        exact Relation.ReflTransGen.refl
      | cons n rest ih =>
        obtain ⟨hs, m, he, hrest⟩ := tiles_cons.mp htiles
        obtain ⟨hn, hactive⟩ := hmem n List.mem_cons_self
        exact Relation.ReflTransGen.head ((hspan s m).mpr ⟨n, hn, hactive, hs, he⟩)
          (ih m (fun x hx => hmem x (List.mem_cons_of_mem _ hx)) hrest)
  rw [has_full_pipeline_iff h.views, h.layers, hchain]
  constructor
  · rintro ⟨hpos, chain, hmem, htiles⟩
    refine ⟨chain, ?_, hmem, htiles⟩
    rintro rfl
    have hzero : (0 : Int) = num_layers := htiles
    omega
  · rintro ⟨chain, hne, hmem, htiles⟩
    refine ⟨?_, chain, hmem, htiles⟩
    rcases chain with _ | ⟨n, rest⟩
    · exact absurd rfl hne
    · obtain ⟨hs, m, he, hrest⟩ := tiles_cons.mp htiles
      obtain ⟨hn, hactive⟩ := hmem n List.mem_cons_self
      have hlt := Spans.lt h.views ((hspan 0 m).mpr ⟨n, hn, hactive, hs, he⟩)
      have hle := Chain.le h.views ((hchain m num_layers).mpr
        ⟨rest, fun x hx => hmem x (List.mem_cons_of_mem _ hx), hrest⟩)
      omega

/-! ## The router over ranges -/

section

variable {nodes : List Node} {num_layers : Int}

/-- A chain of measured nodes has a finite cost exactly when none of them is overloaded. -/
theorem chain_cost_finite_iff (M : Measured nodes) {chain : List Node} {layer target : Int}
    (hmem : ∀ n ∈ chain, n ∈ nodes) (htiles : Tiles layer chain target) :
    chain_cost latency_of chain ≠ ⊤ ↔ ∀ n ∈ chain, n.is_overloaded = .ok false := by
  have halloc := RoundRobinPipelineRouting.Tiles.allocated htiles
  clear htiles
  have hone : ∀ n ∈ chain, latency_of n ≠ ⊤ ↔ n.is_overloaded = .ok false := by
    intro n hn
    obtain ⟨b, hb⟩ := M.load n (hmem n hn) (halloc n hn)
    cases b with
    | true =>
      have htop : n.layer_latency_ms = .ok ⊤ := by
        unfold Node.layer_latency_ms
        rw [hb]
        rfl
      simp [latency_of, htop, hb]
    | false =>
      obtain ⟨x, hx, hfinite⟩ := M.latency n (hmem n hn) (halloc n hn) hb
      simp [latency_of, hx, hfinite, hb]
  induction chain with
  | nil => simp [chain_cost]
  | cons n rest ih =>
    have ih' := ih (fun m hm => hmem m (List.mem_cons_of_mem _ hm))
      (fun m hm => halloc m (List.mem_cons_of_mem _ hm))
      (fun m hm => hone m (List.mem_cons_of_mem _ hm))
    rw [List.forall_mem_cons]
    rcases rest with _ | ⟨m, rest⟩
    · simp [chain_cost, hone n List.mem_cons_self]
    · have hrtt := M.rtt n (hmem n List.mem_cons_self) m (hmem m (by simp))
        (halloc n List.mem_cons_self) (halloc m (by simp))
      have hfirst := hone n List.mem_cons_self
      rw [chain_cost, WithTop.add_ne_top, WithTop.add_ne_top]
      exact ⟨fun h => ⟨hfirst.mp h.1.1, ih'.mp h.2⟩, fun h => ⟨⟨hfirst.mpr h.1, hrtt⟩, ih'.mpr h.2⟩⟩

/-- What the router over ranges returns on measured nodes. -/
theorem dp_outcome (M : Measured nodes) (hids : (nodes.map Node.node_id).Nodup)
    (hranges : Ascending nodes) :
    ∃ path latency, DynamicProgrammingRouting.find_optimal_path nodes num_layers =
        .ok (path, latency) ∧
      ((∃ chain, ServingChain nodes num_layers chain ∧ path = chain.map Node.node_id) ∨
        (path = [] ∧ ∀ chain, ¬ ServingChain nodes num_layers chain)) := by
  by_cases hguard : num_layers ≤ 0 ∨ nodes = []
  · refine ⟨[], 0, if_pos hguard, Or.inr ⟨rfl, ?_⟩⟩
    rintro chain ⟨hne, ⟨hfree, htiles⟩, _⟩
    rcases chain with _ | ⟨n, rest⟩
    · exact hne rfl
    · have hn := (hfree n List.mem_cons_self).1
      obtain ⟨hs, e, he, hrest⟩ := tiles_cons.mp htiles
      have hlt := hranges n hn _ _ hs he
      have hle := hrest.le (fun m hm => hranges m (hfree m (List.mem_cons_of_mem _ hm)).1)
      rcases hguard with h | h
      · omega
      · rw [h] at hn
        cases hn
  · rw [not_or, not_le] at hguard
    have hlatency : ∀ n ∈ nodes, n.is_allocated = true → ∃ x, n.layer_latency_ms = .ok x := by
      intro n hn halloc
      obtain ⟨b, hb⟩ := M.load n hn halloc
      cases b with
      | true =>
        refine ⟨⊤, ?_⟩
        unfold Node.layer_latency_ms
        rw [hb]
        rfl
      | false =>
        obtain ⟨x, hx, _⟩ := M.latency n hn halloc hb
        exact ⟨x, hx⟩
    obtain ⟨⟨path, latency⟩, hfound⟩ :=
      DynamicProgrammingRouting.find_optimal_path_returns hlatency
    have L : DynamicProgrammingRouting.Layout nodes latency_of := by
      refine ⟨hids, hranges, ?_⟩
      intro n _ _ x hx
      unfold latency_of
      rw [hx]
    refine ⟨path, latency, hfound, ?_⟩
    rcases DynamicProgrammingRouting.find_optimal_path.spec L (by omega) hguard.2 hfound with
      ⟨heq, hall⟩ | ⟨chain, ⟨hmem, htiles⟩, hfinite, heq, _⟩
    · cases heq
      refine Or.inr ⟨rfl, ?_⟩
      rintro chain ⟨_, ⟨hfree, htiles⟩, hactive⟩
      have htop := hall chain ⟨fun n hn => ⟨(hfree n hn).1, hactive n hn⟩, htiles⟩
      exact (chain_cost_finite_iff M (fun n hn => (hfree n hn).1) htiles).mpr
        (fun n hn => (hfree n hn).2) htop
    · cases heq
      have hload := (chain_cost_finite_iff M (fun n hn => (hmem n hn).1) htiles).mp hfinite
      refine Or.inl ⟨chain, ⟨?_, ⟨fun n hn => ⟨(hmem n hn).1, hload n hn⟩, htiles⟩,
        fun n hn => (hmem n hn).2⟩, rfl⟩
      rintro rfl
      have hzero : (0 : Int) = num_layers := htiles
      omega

/-! ## The agreement -/

/-- What a fresh round-robin router returns on measured nodes. -/
theorem rr_outcome (M : Measured nodes) (hids : (nodes.map Node.node_id).Nodup)
    (hranges : Ascending nodes) :
    ∃ path latency router',
      RoundRobinPipelineRouting.find_optimal_path nodes num_layers init = .ok (path, latency) router' ∧
      ((∃ chain, chain ≠ [] ∧ FreeChain nodes num_layers 0 chain ∧ path = chain.map Node.node_id) ∨
        (path = [] ∧ ∀ chain, chain ≠ [] → ¬ FreeChain nodes num_layers 0 chain)) := by
  have hempty : Cached nodes num_layers init := fun ps hps => by cases hps
  rcases RoundRobinPipelineRouting.find_optimal_path_returns M hids hranges hempty with
    ⟨c, latency, hc, hfree, hrun, _⟩ | ⟨hnone, router', hrun⟩
  · exact ⟨_, _, _, hrun, Or.inl ⟨c, hc, hfree, rfl⟩⟩
  · exact ⟨_, _, _, hrun, Or.inr ⟨rfl, hnone⟩⟩

theorem allActive_of_chain (hids : (nodes.map Node.node_id).Nodup) {chain : List Node}
    (hmem : ∀ n ∈ chain, n ∈ nodes) :
    AllActive nodes (chain.map Node.node_id) ↔ ∀ n ∈ chain, n.is_active = true := by
  constructor
  · intro h n hn
    exact h n (hmem n hn) (List.mem_map_of_mem hn)
  · intro h n hn hid
    obtain ⟨m, hm, heq⟩ := List.mem_map.mp hid
    rw [← List.inj_on_of_nodup_map hids (hmem m hm) hn heq]
    exact h m hm

/-- Every path of a run of calls is served. -/
theorem calls_served (hids : (nodes.map Node.node_id).Nodup) (hranges : Ascending nodes)
    (count : Nat) {router router' : RoundRobinPipelineRouting} {paths : List (List String)}
    (hcached : Cached nodes num_layers router)
    (h : calls num_layers (List.replicate count nodes) router = .ok paths router') :
    ∀ path ∈ paths, RoundRobinPipelineRouting.Served nodes num_layers path := by
  induction count generalizing router paths with
  | zero =>
    cases h
    exact fun path hp => by cases hp
  | succ count ih =>
    rw [List.replicate_succ] at h
    unfold calls at h
    obtain ⟨found, router₁, hfirst, h⟩ := bind_ok h
    obtain ⟨others, router₂, hrest, h⟩ := bind_ok h
    cases h
    obtain ⟨hserved, hcached'⟩ :=
      (RoundRobinPipelineRouting.find_optimal_path.spec hids hranges).ok hcached hfirst
    intro path hp
    rcases List.mem_cons.mp hp with rfl | hp
    · exact hserved
    · exact ih hcached' hrest path hp

end

/-- The routers and the readiness check agree exactly when every chain of nodes that are not
overloaded is made of active nodes. -/
theorem routers_agree_iff {nodes : List Node} {num_layers : Int}
    (hids : (nodes.map Node.node_id).Nodup) (hranges : Ascending nodes) (M : Measured nodes) :
    RoutersAgree nodes num_layers ↔ ∀ chain, chain ≠ [] → FreeChain nodes num_layers 0 chain →
      ∀ n ∈ chain, n.is_active = true := by
  obtain ⟨dp_path, dp_latency, hdp, hdpcase⟩ := dp_outcome M hids hranges
  obtain ⟨rr_path, rr_latency, router', hrr, hrrcase⟩ :=
    rr_outcome M hids hranges
  have hempty : Cached nodes num_layers init := fun ps hps => by cases hps
  have hdpfinds : DpFinds nodes num_layers ↔ ∃ chain, ServingChain nodes num_layers chain := by
    constructor
    · rintro ⟨path, latency, hrun, hne⟩
      rw [hdp] at hrun
      cases hrun
      rcases hdpcase with ⟨chain, hchain, _⟩ | ⟨hnil, _⟩
      · exact ⟨chain, hchain⟩
      · exact absurd hnil hne
    · rintro ⟨chain, hchain⟩
      refine ⟨dp_path, dp_latency, hdp, ?_⟩
      rcases hdpcase with ⟨c, hc, rfl⟩ | ⟨_, hnone⟩
      · simpa using hc.1
      · exact absurd hchain (hnone chain)
  have hrrfinds : RrFinds nodes num_layers ↔
      ∃ chain, chain ≠ [] ∧ FreeChain nodes num_layers 0 chain := by
    constructor
    · rintro ⟨path, latency, router, hrun, hne⟩
      rw [hrr] at hrun
      cases hrun
      rcases hrrcase with ⟨chain, hchain, hfree, _⟩ | ⟨hnil, _⟩
      · exact ⟨chain, hchain, hfree⟩
      · exact absurd hnil hne
    · rintro ⟨chain, hchain, hfree⟩
      refine ⟨rr_path, rr_latency, router', hrr, ?_⟩
      rcases hrrcase with ⟨c, hc, _, rfl⟩ | ⟨_, hnone⟩
      · simpa using hc
      · exact absurd hfree (hnone chain hchain)
  constructor
  · -- Each free chain is a pipeline whose turn comes.
    intro hagree chain hchain hfree n hn
    set pipelines := current_pipelines nodes num_layers init with hpipelines
    have hmem : chain.map Node.node_id ∈ pipelines :=
      (RoundRobinPipelineRouting.current_pipelines_iff hranges hempty _).mpr
        ⟨chain, hchain, fun n hn => (hfree.1 n hn).1, hfree.2, rfl⟩
    obtain ⟨k, hk, hget⟩ := List.getElem_of_mem hmem
    have hhistory : ∀ nodes' ∈ List.replicate pipelines.length nodes,
        RoundRobinPipelineRouting.SameAllocation nodes nodes' ∧ Measured nodes' ∧
          ∃ chain, chain ≠ [] ∧ FreeChain nodes' num_layers 0 chain := by
      intro nodes' hn'
      rw [List.eq_of_mem_replicate hn']
      exact ⟨rfl, M, chain, hchain, hfree⟩
    obtain ⟨paths, router, hrun, hlen, hturns⟩ := RoundRobinPipelineRouting.calls_in_turn hids
      hranges _ hhistory init hempty hpipelines.symm
    have hturn : pipelines.getD (((init).rr_cursor + k) % pipelines.length) [] =
        chain.map Node.node_id := by
      rw [show (init).rr_cursor = 0 from rfl, Nat.zero_add, Nat.mod_eq_of_lt hk,
        List.getD_eq_getElem _ _ hk, hget]
    have htaken := hturns k nodes (by rw [List.getElem?_replicate, if_pos hk])
    rw [hturn] at htaken
    have hpath := hagree.rr_active _ paths router hrun (chain.map Node.node_id)
      (List.mem_of_getElem? (htaken (by
        intro m hm hid
        obtain ⟨x, hx, heq⟩ := List.mem_map.mp hid
        rw [← List.inj_on_of_nodup_map hids (hfree.1 x hx).1 hm heq]
        exact (hfree.1 x hx).2)))
    exact hpath n (hfree.1 n hn).1 (List.mem_map_of_mem hn)
  · intro hactive
    have hserving : (∃ chain, ServingChain nodes num_layers chain) ↔
        ∃ chain, chain ≠ [] ∧ FreeChain nodes num_layers 0 chain := by
      constructor
      · rintro ⟨chain, hchain, hfree, _⟩
        exact ⟨chain, hchain, hfree⟩
      · rintro ⟨chain, hchain, hfree⟩
        exact ⟨chain, hchain, hfree, hactive chain hchain hfree⟩
    refine ⟨by rw [hdpfinds, hrrfinds, hserving], by rw [hrrfinds, hserving], ?_, ?_, ?_⟩
    · intro a hholds hload
      rw [full_pipeline_iff hholds true]
      constructor
      · rintro ⟨chain, hchain, hmem, htiles⟩
        exact ⟨chain, hchain, ⟨fun n hn => ⟨(hmem n hn).1, hload n (hmem n hn).1⟩, htiles⟩,
          fun n hn => (hmem n hn).2 rfl⟩
      · rintro ⟨chain, hchain, ⟨hfree, htiles⟩, hall⟩
        exact ⟨chain, hchain, fun n hn => ⟨(hfree n hn).1, fun _ => hall n hn⟩, htiles⟩
    · intro path latency hrun
      rw [hdp] at hrun
      cases hrun
      rcases hdpcase with ⟨chain, hchain, rfl⟩ | ⟨rfl, _⟩
      · exact (allActive_of_chain hids (fun n hn => (hchain.2.1.1 n hn).1)).mpr hchain.2.2
      · exact fun n _ hid => by cases hid
    · intro count paths router hrun path hp
      rcases calls_served hids hranges count hempty hrun path hp with rfl | ⟨chain, hchain, hfree, rfl⟩
      · exact fun n _ hid => by cases hid
      · exact (allActive_of_chain hids (fun n hn => (hfree.1 n hn).1)).mpr
          (hactive chain hchain hfree)

/-- Two routes of active nodes. -/
theorem two_routes_agree : RoutersAgree RoundRobinPipelineRouting.two_routes 4 := by
  have hactive : ∀ n ∈ RoundRobinPipelineRouting.two_routes, n.is_active = true := by decide +kernel
  exact (routers_agree_iff (by decide +kernel) RoundRobinPipelineRouting.two_routes_ascending
    RoundRobinPipelineRouting.two_routes_measured).mpr
      (fun chain _ hfree n hn => hactive n (hfree.1 n hn).1)

/-- A node of all layers that is not active, for example since its range was just changed. -/
def inactive_host : List Node := [{ serving_node "whole" 0 4 12 [] with is_active := false }]

/-- The path of the round-robin router. -/
def rr_path (nodes : List Node) (num_layers : Int) : List String :=
  match RoundRobinPipelineRouting.find_optimal_path nodes num_layers init with
  | .ok found _ => found.1
  | .error _ _ => []

/-- The round-robin router returns the inactive node, and the router over ranges returns nothing. -/
theorem inactive_host_is_routed_to : ¬ RoutersAgree inactive_host 4 := by
  intro h
  have hpath : rr_path inactive_host 4 = ["whole"] := by decide +kernel
  unfold rr_path at hpath
  rcases hrun : RoundRobinPipelineRouting.find_optimal_path inactive_host 4 init with
    ⟨⟨path, latency⟩, router⟩ | ⟨e, router⟩
  · rw [hrun] at hpath
    have hfinds : RrFinds inactive_host 4 := ⟨path, latency, router, hrun, by
      rw [show path = ["whole"] from hpath]
      simp⟩
    obtain ⟨path', latency', hrun', hne⟩ := h.routers.mpr hfinds
    have hnothing : DynamicProgrammingRouting.find_optimal_path inactive_host 4 = .ok ([], ⊤) := by
      decide +kernel
    rw [hnothing] at hrun'
    cases hrun'
    exact hne rfl
  · rw [hrun] at hpath
    cases hpath

end scheduling.request_routing
