-- What the warm-up and the router minimise. The warm-up pays the latency of a
-- node for each of its layers, the router pays it once for each node, so the
-- chain that the router picks need not be the one that is fastest by layers.
import InferenceMesh.Lib.Tilings
import InferenceMesh.Scheduling.ShortestChain

open scheduling.layer_allocation scheduling.node

namespace scheduling.request_routing

/-! ## The latency by layers -/

/-- What the layer-level search pays on a chain: the latency of a node for each of its layers, and
the hops between the nodes. -/
def end_to_end (latency : Node → Latency) : List Node → Latency
  | [] => 0
  | [n] => n.num_current_layers.toNat • latency n
  | n :: m :: rest =>
    n.num_current_layers.toNat • latency n + n.get_rtt_to m + end_to_end latency (m :: rest)

/-- The host of each layer along a chain. -/
def by_layer (chain : List Node) : List Node :=
  chain.flatMap (fun n => List.replicate n.num_current_layers.toNat n)

theorem get_rtt_to_self (n : Node) : n.get_rtt_to n = 0 := by
  unfold Node.get_rtt_to
  rw [if_pos rfl]
  rfl

/-- The layers of one node, in front of those of the next one. -/
theorem chain_cost_replicate (latency : Node → Latency) (n m : Node) (rest : List Node) (k : Nat) :
    chain_cost latency (List.replicate (k + 1) n ++ m :: rest) =
      (k + 1) • latency n + n.get_rtt_to m + chain_cost latency (m :: rest) := by
  induction k with
  | zero => simp [chain_cost]
  | succ k ih =>
    rw [List.replicate_succ, List.cons_append]
    rw [List.replicate_succ, List.cons_append] at ih ⊢
    rw [chain_cost, get_rtt_to_self, ih, succ_nsmul' _ (k + 1)]
    simp only [add_zero, add_assoc]

theorem chain_cost_replicate_last (latency : Node → Latency) (n : Node) (k : Nat) :
    chain_cost latency (List.replicate (k + 1) n) = (k + 1) • latency n := by
  induction k with
  | zero => simp [chain_cost]
  | succ k ih =>
    rw [List.replicate_succ] at ih ⊢
    rw [List.replicate_succ, chain_cost, get_rtt_to_self, ih, succ_nsmul' _ (k + 1), add_zero]

/-- The latency by layers is what a route over the layers pays. -/
theorem chain_cost_by_layer (latency : Node → Latency) {chain : List Node}
    (hlayers : ∀ n ∈ chain, 0 < n.num_current_layers) :
    chain_cost latency (by_layer chain) = end_to_end latency chain := by
  induction chain with
  | nil => rfl
  | cons n rest ih =>
    obtain ⟨k, hk⟩ := Nat.exists_eq_succ_of_ne_zero
      (by have := hlayers n List.mem_cons_self; omega : n.num_current_layers.toNat ≠ 0)
    have ih := ih (fun m hm => hlayers m (List.mem_cons_of_mem _ hm))
    unfold by_layer at ih ⊢
    rw [List.flatMap_cons, hk]
    rcases rest with _ | ⟨m, rest⟩
    · rw [List.flatMap_nil, List.append_nil, chain_cost_replicate_last, end_to_end, hk]
    · obtain ⟨j, hj⟩ := Nat.exists_eq_succ_of_ne_zero
        (by have := hlayers m (List.mem_cons_of_mem _ List.mem_cons_self); omega :
          m.num_current_layers.toNat ≠ 0)
      obtain ⟨others, hothers⟩ : ∃ others, (m :: rest).flatMap
          (fun n => List.replicate n.num_current_layers.toNat n) = m :: others := by
        rw [List.flatMap_cons, hj, List.replicate_succ, List.cons_append]
        exact ⟨_, rfl⟩
      rw [hothers] at ih ⊢
      rw [chain_cost_replicate, ih, end_to_end, hk]

/-! ## Healthy nodes -/

/-- A range of layers and the node that hosts it. -/
structure Shard where
  node_id : String
  start_layer : Int
  end_layer : Int
  deriving DecidableEq

/-- The range of an allocated node. -/
def shard_of (n : Node) : Shard := ⟨n.node_id, n.start_layer.getD 0, n.end_layer.getD 0⟩

/-- Active nodes with ranges and ids of their own that take requests, with finite latencies. -/
structure Healthy (nodes : List Node) : Prop where
  ids : (nodes.map Node.node_id).Nodup
  ranges : Ascending nodes
  allocated : ∀ n ∈ nodes, n.is_allocated = true
  active : ∀ n ∈ nodes, n.is_active = true
  free : ∀ n ∈ nodes, n.is_overloaded = .ok false
  latency : ∀ n ∈ nodes, ∃ x : Rat, n.layer_latency_ms = .ok (x : Latency)
  rtt : ∀ n ∈ nodes, ∀ m ∈ nodes, n.get_rtt_to m ≠ ⊤

/-- The chain that the router returns is the fastest one by layers. -/
def Optimises (nodes : List Node) (num_layers : Int) : Prop :=
  (∃ chain, ActiveChain nodes num_layers chain) →
    ∃ chain cost, DynamicProgrammingRouting.find_optimal_path nodes num_layers =
        .ok (chain.map Node.node_id, cost) ∧ ActiveChain nodes num_layers chain ∧
      ∀ other, ActiveChain nodes num_layers other →
        end_to_end latency_of chain ≤ end_to_end latency_of other

def layer_weight (n : Node) : Rat := (latency_of n).untopD 0

def hop_time (n m : Node) : Rat := (n.get_rtt_to m).untopD 0

/-- The ranges of a layout do for each other: a chain that does not use a range of another chain
either is one range alone or goes without one layer there. -/
abbrev InterchangeableShards (layout : List Shard) (num_layers : Int) : Prop :=
  tilings.Interchangeable Shard.start_layer Shard.end_layer layout num_layers

section healthy

variable {nodes : List Node} {chain : List Node} {num_layers : Int}

theorem latency_of_eq {n : Node} {x : Latency} (h : n.layer_latency_ms = .ok x) :
    latency_of n = x := by
  unfold latency_of
  rw [h]

theorem Healthy.latency_eq (H : Healthy nodes) {n : Node} (hn : n ∈ nodes) :
    n.layer_latency_ms = .ok (latency_of n) ∧ latency_of n = (layer_weight n : Latency) := by
  obtain ⟨x, hx⟩ := H.latency n hn
  unfold layer_weight
  rw [latency_of_eq hx]
  exact ⟨hx, rfl⟩

theorem Healthy.rtt_eq (H : Healthy nodes) {n m : Node} (hn : n ∈ nodes) (hm : m ∈ nodes) :
    n.get_rtt_to m = (hop_time n m : Latency) := by
  unfold hop_time
  obtain ⟨x, hx⟩ := WithTop.ne_top_iff_exists.mp (H.rtt n hn m hm)
  rw [← hx]
  rfl

theorem start_of_shard {n : Node} (h : n.is_allocated = true) :
    n.start_layer = some (shard_of n).start_layer ∧ n.end_layer = some (shard_of n).end_layer := by
  unfold Node.is_allocated at h
  obtain ⟨hs, he⟩ := Bool.and_eq_true_iff.mp h
  obtain ⟨s, hs⟩ := Option.isSome_iff_exists.mp hs
  obtain ⟨e, he⟩ := Option.isSome_iff_exists.mp he
  unfold shard_of
  rw [hs, he]
  exact ⟨rfl, rfl⟩

theorem num_current_layers_eq {n : Node} (h : n.is_allocated = true) :
    n.num_current_layers = (shard_of n).end_layer - (shard_of n).start_layer := by
  obtain ⟨hs, he⟩ := start_of_shard h
  unfold Node.num_current_layers
  rw [hs, he]

theorem Healthy.shard_pos (H : Healthy nodes) {n : Node} (hn : n ∈ nodes) :
    (shard_of n).start_layer < (shard_of n).end_layer := by
  obtain ⟨hs, he⟩ := start_of_shard (H.allocated n hn)
  exact H.ranges n hn _ _ hs he

theorem tiles_iff (hall : ∀ n ∈ chain, n.is_allocated = true) {layer : Int} :
    Tiles layer chain num_layers ↔ tilings.Tiles (Shard.start_layer ∘ shard_of)
      (Shard.end_layer ∘ shard_of) layer chain num_layers := by
  induction chain generalizing layer with
  | nil => exact Iff.rfl
  | cons n rest ih =>
    obtain ⟨hs, he⟩ := start_of_shard (hall n List.mem_cons_self)
    have ih := @ih fun m hm => hall m (List.mem_cons_of_mem _ hm)
    rw [tiles_cons, tilings.Tiles, hs, he, Option.some.injEq]
    refine and_congr Iff.rfl ?_
    rw [← ih]
    constructor
    · rintro ⟨e, heq, h⟩
      obtain rfl := Option.some.inj heq
      exact h
    · exact fun h => ⟨_, rfl, h⟩

/-- The chains of the model are the chains of the library. -/
theorem Healthy.active_chain_iff (H : Healthy nodes) : ActiveChain nodes num_layers chain ↔
    tilings.Chain (Shard.start_layer ∘ shard_of) (Shard.end_layer ∘ shard_of) nodes num_layers
      chain := by
  constructor
  · rintro ⟨hmem, htiles⟩
    exact ⟨fun n hn => (hmem n hn).1,
      (tiles_iff (fun n hn => H.allocated n (hmem n hn).1)).mp htiles⟩
  · rintro ⟨hmem, htiles⟩
    exact ⟨fun n hn => ⟨hmem n hn, H.active n (hmem n hn)⟩,
      (tiles_iff (fun n hn => H.allocated n (hmem n hn))).mpr htiles⟩

/-- What the router minimises. -/
theorem Healthy.chain_cost_eq (H : Healthy nodes) (hmem : ∀ n ∈ chain, n ∈ nodes) :
    chain_cost latency_of chain = ((tilings.cost layer_weight hop_time chain : Rat) : Latency) := by
  induction chain with
  | nil => rfl
  | cons n rest ih =>
    have hn := hmem n List.mem_cons_self
    have ih := ih (fun m hm => hmem m (List.mem_cons_of_mem _ hm))
    rcases rest with _ | ⟨m, rest⟩
    · exact (H.latency_eq hn).2
    · have hm := hmem m (List.mem_cons_of_mem _ List.mem_cons_self)
      rw [chain_cost, ih, (H.latency_eq hn).2, H.rtt_eq hn hm, tilings.cost]
      simp only [WithTop.coe_add]

theorem Healthy.layers_eq (H : Healthy nodes) {n : Node} (hn : n ∈ nodes) :
    n.num_current_layers.toNat • latency_of n = ((tilings.layered (Shard.start_layer ∘ shard_of)
      (Shard.end_layer ∘ shard_of) layer_weight n : Rat) : Latency) := by
  have hpos := H.shard_pos hn
  rw [(H.latency_eq hn).2, ← WithTop.coe_nsmul, WithTop.coe_inj, nsmul_eq_mul,
    num_current_layers_eq (H.allocated n hn), tilings.layered, mul_comm]
  congr 1
  have hcast : (((shard_of n).end_layer - (shard_of n).start_layer).toNat : Int) =
      (shard_of n).end_layer - (shard_of n).start_layer := Int.toNat_of_nonneg (by omega)
  exact_mod_cast congrArg (fun i : Int => (i : Rat)) hcast

/-- What the warm-up minimises. -/
theorem Healthy.end_to_end_eq (H : Healthy nodes) (hmem : ∀ n ∈ chain, n ∈ nodes) :
    end_to_end latency_of chain = ((tilings.cost (tilings.layered (Shard.start_layer ∘ shard_of)
      (Shard.end_layer ∘ shard_of) layer_weight) hop_time chain : Rat) : Latency) := by
  induction chain with
  | nil => rfl
  | cons n rest ih =>
    have hn := hmem n List.mem_cons_self
    have ih := ih (fun m hm => hmem m (List.mem_cons_of_mem _ hm))
    rcases rest with _ | ⟨m, rest⟩
    · exact H.layers_eq hn
    · have hm := hmem m (List.mem_cons_of_mem _ List.mem_cons_self)
      rw [end_to_end, ih, H.layers_eq hn, H.rtt_eq hn hm, tilings.cost]
      simp only [WithTop.coe_add]

end healthy

/-! ## Interchangeable layouts -/

/-- The router returns a chain of the least cost. -/
theorem Healthy.router_returns_least {nodes : List Node} {num_layers : Int}
    (hlayers : 1 ≤ num_layers) (H : Healthy nodes)
    (hexists : ∃ chain, ActiveChain nodes num_layers chain) :
    ∃ chain cost, DynamicProgrammingRouting.find_optimal_path nodes num_layers =
        .ok (chain.map Node.node_id, cost) ∧ ActiveChain nodes num_layers chain ∧
      ∀ other, ActiveChain nodes num_layers other →
        tilings.cost layer_weight hop_time chain ≤ tilings.cost layer_weight hop_time other := by
  obtain ⟨some_chain, hsome⟩ := hexists
  have hnodes : nodes ≠ [] := by
    rintro rfl
    have hnil := List.eq_nil_iff_forall_not_mem.mpr fun n hn =>
      List.not_mem_nil (hsome.1 n hn).1
    rw [hnil] at hsome
    have hzero : (0 : Int) = num_layers := hsome.2
    omega
  have hcost : ∀ chain, ActiveChain nodes num_layers chain → chain_cost latency_of chain =
      ((tilings.cost layer_weight hop_time chain : Rat) : Latency) :=
    fun chain hchain => H.chain_cost_eq fun n hn => (hchain.1 n hn).1
  obtain ⟨hnone, hfound⟩ := DynamicProgrammingRouting.dp_router_is_exact hlayers hnodes H.ids
    H.ranges (fun n hn _ => (H.latency_eq hn).1)
  have hsome_cost : DynamicProgrammingRouting.find_optimal_path nodes num_layers ≠ .ok ([], ⊤) := by
    intro h
    have htop := hnone.mp h some_chain hsome
    rw [hcost some_chain hsome] at htop
    exact WithTop.coe_ne_top htop
  obtain ⟨chain, hchain, _, hreturn, hleast⟩ := hfound hsome_cost
  refine ⟨chain, _, hreturn, hchain, fun other hother => ?_⟩
  have hle := hleast other hother
  rw [hcost chain hchain, hcost other hother] at hle
  exact WithTop.coe_le_coe.mp hle

theorem Healthy.end_to_end_le_iff {nodes : List Node} {num_layers : Int} {chain other : List Node}
    (H : Healthy nodes) (hchain : ActiveChain nodes num_layers chain)
    (hother : ActiveChain nodes num_layers other) :
    end_to_end latency_of chain ≤ end_to_end latency_of other ↔
      tilings.cost (tilings.layered (Shard.start_layer ∘ shard_of) (Shard.end_layer ∘ shard_of)
          layer_weight) hop_time chain ≤
        tilings.cost (tilings.layered (Shard.start_layer ∘ shard_of) (Shard.end_layer ∘ shard_of)
          layer_weight) hop_time other := by
  rw [H.end_to_end_eq (fun n hn => (hchain.1 n hn).1),
    H.end_to_end_eq (fun n hn => (hother.1 n hn).1), WithTop.coe_le_coe]

/-- On a layout whose ranges do for each other, the router minimises what the warm-up does. -/
theorem optimises_of_interchangeable {nodes : List Node} {num_layers : Int}
    (hlayers : 1 ≤ num_layers) (H : Healthy nodes)
    (hinter : InterchangeableShards (nodes.map shard_of) num_layers) :
    Optimises nodes num_layers := by
  intro hexists
  obtain ⟨chain, cost, hreturn, hchain, hleast⟩ := H.router_returns_least hlayers hexists
  refine ⟨chain, cost, hreturn, hchain, fun other hother => ?_⟩
  have hinter' := hinter.of_map (f := shard_of) fun n hn m hm heq =>
    List.inj_on_of_nodup_map H.ids hn hm (congrArg Shard.node_id heq)
  rw [H.end_to_end_le_iff hchain hother]
  exact tilings.layered_le (fun n hn => H.shard_pos hn) hinter' (H.active_chain_iff.mp hchain)
    (H.active_chain_iff.mp hother) (hleast other hother)

/-! ## Other layouts -/

section latencies

variable (weight : Shard → Rat) (hop : Shard → Shard → Rat) (layout : List Shard)

/-- An idle node with a range of the layout and the given latencies. -/
def node_for (shard : Shard) : Node :=
  { a100_80g (build_model_info 4) shard.node_id with
    start_layer := some shard.start_layer
    end_layer := some shard.end_layer
    avg_layer_latency_ms := some (weight shard : Latency)
    rtt_to_nodes := some (layout.map (fun x => (x.node_id, (hop shard x : Latency))))
    force_max_concurrent_requests := true }

variable {weight hop layout}

theorem node_for_latency (v : Shard) :
    (node_for weight hop layout v).layer_latency_ms = .ok (weight v : Latency) := by
  have hload : (node_for weight hop layout v).layer_latency_ms =
      .ok ((weight v : Latency) + ((1 / 20 * (((0 : Int) : Rat) / ((16 : Int) : Rat)) : Rat) :
        Latency)) := rfl
  rw [hload]
  simp

theorem node_for_rtt (hids : (layout.map Shard.node_id).Nodup) {v w : Shard} (hv : v ∈ layout)
    (hw : w ∈ layout) (hne : v ≠ w) :
    (node_for weight hop layout v).get_rtt_to (node_for weight hop layout w) =
      (hop v w : Latency) := by
  have hnodes : node_for weight hop layout v ≠ node_for weight hop layout w := fun heq =>
    hne (List.inj_on_of_nodup_map hids hv hw (congrArg Node.node_id heq))
  obtain ⟨x, hx⟩ : ∃ x, (layout.map (fun x => (x.node_id, (hop v x : Latency)))).find?
      (fun x => x.1 = w.node_id) = some x := by
    rw [← Option.isSome_iff_exists, List.find?_isSome]
    exact ⟨_, List.mem_map_of_mem hw, by simp⟩
  have hid := List.find?_some hx
  obtain ⟨u, hu, rfl⟩ := List.mem_map.mp (List.mem_of_find?_eq_some hx)
  have huw : u = w := List.inj_on_of_nodup_map hids hu hw (by simpa using hid)
  unfold Node.get_rtt_to
  rw [if_neg hnodes]
  show (match (layout.map (fun x => (x.node_id, (hop v x : Latency)))).find?
    (fun x => x.1 = w.node_id) with | none => ⊤ | some (_, rtt) => rtt) = _
  rw [hx, huw]

theorem node_for_healthy (hids : (layout.map Shard.node_id).Nodup)
    (hranges : ∀ v ∈ layout, v.start_layer < v.end_layer) :
    Healthy (layout.map (node_for weight hop layout)) := by
  refine ⟨?_, ?_, ?_, ?_, ?_, ?_, ?_⟩
  · rw [List.map_map]
    exact hids
  · intro n hn s e hs he
    obtain ⟨v, hv, rfl⟩ := List.mem_map.mp hn
    cases hs
    cases he
    exact hranges v hv
  · intro n hn
    obtain ⟨v, _, rfl⟩ := List.mem_map.mp hn
    rfl
  · intro n hn
    obtain ⟨v, _, rfl⟩ := List.mem_map.mp hn
    rfl
  · intro n hn
    obtain ⟨v, _, rfl⟩ := List.mem_map.mp hn
    rfl
  · intro n hn
    obtain ⟨v, _, rfl⟩ := List.mem_map.mp hn
    exact ⟨_, node_for_latency v⟩
  · intro n hn m hm
    obtain ⟨v, hv, rfl⟩ := List.mem_map.mp hn
    obtain ⟨w, hw, rfl⟩ := List.mem_map.mp hm
    by_cases hne : v = w
    · rw [hne, get_rtt_to_self]
      exact WithTop.coe_ne_top
    · rw [node_for_rtt hids hv hw hne]
      exact WithTop.coe_ne_top

theorem node_for_weight (v : Shard) : layer_weight (node_for weight hop layout v) = weight v := by
  unfold layer_weight
  rw [latency_of_eq (node_for_latency v)]
  rfl

theorem node_for_hop (hids : (layout.map Shard.node_id).Nodup) {v w : Shard} (hv : v ∈ layout)
    (hw : w ∈ layout) (hne : v ≠ w) :
    hop_time (node_for weight hop layout v) (node_for weight hop layout w) = hop v w := by
  unfold hop_time
  rw [node_for_rtt hids hv hw hne]
  rfl

theorem node_for_cost {num_layers : Int} {c : List Shard} {f : Node → Rat} {g : Shard → Rat}
    (hids : (layout.map Shard.node_id).Nodup)
    (hranges : ∀ v ∈ layout, v.start_layer < v.end_layer)
    (hc : tilings.Chain Shard.start_layer Shard.end_layer layout num_layers c)
    (hfg : ∀ v, f (node_for weight hop layout v) = g v) :
    tilings.cost f hop_time (c.map (node_for weight hop layout)) = tilings.cost g hop c := by
  rw [tilings.cost_map]
  exact tilings.cost_congr (hc.tiles.nodup (hc.pos hranges)) (fun v _ => hfg v)
    fun v hv w hw => node_for_hop hids (hc.members v hv) (hc.members w hw)

theorem node_for_shards : (layout.map (node_for weight hop layout)).map shard_of = layout := by
  rw [List.map_map]
  exact List.map_id layout

/-- A chain of the layout is a chain of its nodes. -/
theorem node_for_active {num_layers : Int} {c : List Shard}
    (H : Healthy (layout.map (node_for weight hop layout)))
    (hc : tilings.Chain Shard.start_layer Shard.end_layer layout num_layers c) :
    ActiveChain (layout.map (node_for weight hop layout)) num_layers
      (c.map (node_for weight hop layout)) := by
  refine H.active_chain_iff.mpr ⟨fun n hn => ?_, tilings.tiles_map.mpr hc.tiles⟩
  obtain ⟨v, hv, rfl⟩ := List.mem_map.mp hn
  exact List.mem_map_of_mem (hc.members v hv)

/-- Each chain of the nodes is one of the layout. -/
theorem exists_shards_of_active {num_layers : Int} {chain : List Node}
    (H : Healthy (layout.map (node_for weight hop layout)))
    (h : ActiveChain (layout.map (node_for weight hop layout)) num_layers chain) :
    ∃ c, tilings.Chain Shard.start_layer Shard.end_layer layout num_layers c ∧
      chain = c.map (node_for weight hop layout) := by
  have hchain := (H.active_chain_iff.mp h).map
  rw [node_for_shards] at hchain
  refine ⟨chain.map shard_of, hchain, ?_⟩
  rw [List.map_map]
  symm
  refine (List.map_congr_left fun n hn => ?_).trans (List.map_id chain)
  obtain ⟨v, _, rfl⟩ := List.mem_map.mp (h.1 n hn).1
  rfl

end latencies

/-- Chains of the same ids are the same. -/
theorem chain_ext {nodes a b : List Node} (hids : (nodes.map Node.node_id).Nodup)
    (ha : ∀ n ∈ a, n ∈ nodes) (hb : ∀ n ∈ b, n ∈ nodes)
    (h : a.map Node.node_id = b.map Node.node_id) : a = b := by
  induction a generalizing b with
  | nil => exact (List.map_eq_nil_iff.mp h.symm).symm
  | cons n a ih =>
    rcases b with _ | ⟨m, b⟩
    · cases h
    · obtain ⟨hid, hrest⟩ := List.cons.inj h
      rw [List.inj_on_of_nodup_map hids (ha n List.mem_cons_self) (hb m List.mem_cons_self) hid,
        ih (fun x hx => ha x (List.mem_cons_of_mem _ hx))
          (fun x hx => hb x (List.mem_cons_of_mem _ hx)) hrest]

/-- Where the router is always as fast as the warm-up, the ranges do for each other. -/
theorem interchangeable_of_optimises {layout : List Shard} {num_layers : Int}
    (hlayers : 1 ≤ num_layers) (hids : (layout.map Shard.node_id).Nodup)
    (hranges : ∀ v ∈ layout, v.start_layer < v.end_layer)
    (h : ∀ nodes, Healthy nodes → nodes.map shard_of = layout → Optimises nodes num_layers) :
    InterchangeableShards layout num_layers := by
  by_contra hnot
  obtain ⟨weight, hop, _, _, ⟨c₀, hc₀⟩, hbeaten⟩ := tilings.costs_disagree hranges hnot
  have H : Healthy (layout.map (node_for weight hop layout)) := node_for_healthy hids hranges
  have hexists := Exists.intro _ (node_for_active H hc₀)
  obtain ⟨chain, cost, hreturn, hchain, hfastest⟩ := h _ H node_for_shards hexists
  -- The chain that is returned is one of the least cost.
  obtain ⟨chain', cost', hreturn', hchain', hleast⟩ := H.router_returns_least hlayers hexists
  rw [hreturn'] at hreturn
  obtain rfl := chain_ext H.ids (fun n hn => (hchain.1 n hn).1) (fun n hn => (hchain'.1 n hn).1)
    (Prod.mk.inj (Except.ok.inj hreturn)).1.symm
  obtain ⟨c, hc, rfl⟩ := exists_shards_of_active H hchain
  -- So another chain is faster by layers.
  obtain ⟨d, hd, hlt⟩ := hbeaten c hc fun d hd => by
    have hle := hleast _ (node_for_active H hd)
    rw [node_for_cost hids hranges hc node_for_weight,
      node_for_cost hids hranges hd node_for_weight] at hle
    exact hle
  have hle := (H.end_to_end_le_iff hchain (node_for_active H hd)).mp
    (hfastest _ (node_for_active H hd))
  have hlayered : ∀ v, tilings.layered (Shard.start_layer ∘ shard_of) (Shard.end_layer ∘ shard_of)
      layer_weight (node_for weight hop layout v) =
        tilings.layered Shard.start_layer Shard.end_layer weight v := by
    intro v
    unfold tilings.layered
    rw [node_for_weight]
    rfl
  rw [node_for_cost hids hranges hc hlayered, node_for_cost hids hranges hd hlayered] at hle
  exact absurd hlt (not_lt.mpr hle)

/-- For all latencies the router and the warm-up minimise the same quantity if and only if the
ranges of the layout do for each other. -/
theorem cost_models_agree_iff {layout : List Shard} {num_layers : Int} (hlayers : 1 ≤ num_layers)
    (hids : (layout.map Shard.node_id).Nodup)
    (hranges : ∀ v ∈ layout, v.start_layer < v.end_layer) :
    (∀ nodes, Healthy nodes → nodes.map shard_of = layout → Optimises nodes num_layers) ↔
      InterchangeableShards layout num_layers := by
  refine ⟨interchangeable_of_optimises hlayers hids hranges, ?_⟩
  rintro hinter nodes H rfl
  exact optimises_of_interchangeable hlayers H hinter

/-- Two halves of a model over four layers. -/
def halves : List Shard := [⟨"a", 0, 2⟩, ⟨"b", 2, 4⟩]

theorem two_halves_agree :
    (∀ nodes, Healthy nodes → nodes.map shard_of = halves → Optimises nodes 4) ↔
      InterchangeableShards halves 4 :=
  cost_models_agree_iff (by decide) (by decide) (by decide)

/-! ## A slow node with many layers -/

/-- Two ways to split four layers, one behind a slow node with three layers. -/
def two_splits : List Shard := [⟨"a", 0, 3⟩, ⟨"b", 3, 4⟩, ⟨"c", 0, 1⟩, ⟨"d", 1, 4⟩]

def two_splits_latency (shard : Shard) : Rat :=
  if shard.node_id = "a" then 10 else if shard.node_id = "b" then 1 else 6

/-- Nodes for them, one millisecond apart. -/
def two_splits_nodes : List Node :=
  two_splits.map (node_for two_splits_latency (fun _ _ => 1) two_splits)

theorem router_returns_the_slow_node :
    DynamicProgrammingRouting.find_optimal_path two_splits_nodes 4 =
      .ok (["a", "b"], ((12 : Rat) : Latency)) := by
  decide +kernel

theorem slow_node_costs_more_by_layers :
    ¬ ∀ nodes num_layers, 1 ≤ num_layers → Healthy nodes → Optimises nodes num_layers := by
  intro h
  have H : Healthy two_splits_nodes := node_for_healthy (by decide) (by decide)
  let slow := two_splits_nodes.take 2
  let fast := two_splits_nodes.drop 2
  have hfast : ActiveChain two_splits_nodes 4 fast := by
    refine ⟨?_, by decide +kernel⟩
    intro n hn
    exact ⟨List.mem_of_mem_drop hn, H.active n (List.mem_of_mem_drop hn)⟩
  obtain ⟨chain, cost, hreturn, hchain, hleast⟩ := h two_splits_nodes 4 (by decide) H ⟨_, hfast⟩
  rw [router_returns_the_slow_node] at hreturn
  obtain rfl : slow = chain := chain_ext H.ids (fun n hn => List.mem_of_mem_take hn)
    (fun n hn => (hchain.1 n hn).1) (Prod.mk.inj (Except.ok.inj hreturn)).1
  have hle := hleast fast hfast
  have hgt : ¬ end_to_end latency_of slow ≤ end_to_end latency_of fast := by decide +kernel
  exact hgt hle

end scheduling.request_routing
