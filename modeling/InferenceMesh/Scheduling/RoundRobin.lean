-- The round-robin router on an allocation that stays fixed. Its pipelines are
-- all chains of the allocation, and a repair finds a chain of free nodes
-- whenever there is one, because its last attempt keeps nothing.
import InferenceMesh.Lib.ExceptList
import InferenceMesh.Scheduling.Chains

open ordered_dict python state_exn except_list
open scheduling.node

namespace scheduling.request_routing

/-- A chain of nodes that take requests, from a layer to the end of the model. -/
def FreeChain (nodes : List Node) (num_layers layer : Int) (chain : List Node) : Prop :=
  (∀ n ∈ chain, n ∈ nodes ∧ n.is_overloaded = .ok false) ∧ Tiles layer chain num_layers

/-- The ids of a chain over all layers. -/
def Pipeline (nodes : List Node) (num_layers : Int) (ids : List String) : Prop :=
  ∃ chain, chain ≠ [] ∧ (∀ n ∈ chain, n ∈ nodes) ∧ Tiles 0 chain num_layers ∧
    ids = chain.map Node.node_id

theorem chain_length_le {nodes chain : List Node} {layer target : Int} (hranges : Ascending nodes)
    (hmem : ∀ n ∈ chain, n ∈ nodes) (htiles : Tiles layer chain target) :
    chain.length ≤ nodes.length := by
  have hnodup := (htiles.nodup (fun n hn => hranges n (hmem n hn))).1
  exact (List.Nodup.subperm hnodup hmem).length_le

namespace RoundRobinPipelineRouting

/-! ## The discovery -/

section

variable {nodes : List Node} {num_layers : Int}

theorem mem_starting_at {layer : Int} {x : Node × Int} : x ∈ starting_at nodes layer ↔
    x.1 ∈ nodes ∧ x.1.start_layer = some layer ∧ x.1.end_layer = some x.2 := by
  unfold starting_at
  rw [List.mem_filterMap]
  constructor
  · rintro ⟨n, hn, hx⟩
    rcases hs : n.start_layer with _ | s
    · simp [hs] at hx
    · rcases he : n.end_layer with _ | e
      · simp [hs, he] at hx
      · simp only [hs, he] at hx
        split at hx
        · rename_i hlayer
          cases hx
          exact ⟨hn, hlayer ▸ hs, he⟩
        · cases hx
  · rintro ⟨hn, hs, he⟩
    refine ⟨x.1, hn, ?_⟩
    simp [hs, he]

theorem mem_by_end {l : List (Node × Int)} {x : Node × Int} : x ∈ by_end l ↔ x ∈ l :=
  (List.perm_insertionSort _ _).mem_iff

/-- The chains that are found behind a node are the chains of the allocation. -/
theorem chains.spec (fuel : Nat) (current_end : Int) (path_ids ids : List String) :
    (ids ∈ chains nodes num_layers fuel current_end path_ids →
      ∃ chain, (∀ n ∈ chain, n ∈ nodes) ∧ Tiles current_end chain num_layers ∧
        ids = path_ids ++ chain.map Node.node_id) ∧
    (Ascending nodes → ∀ chain, (∀ n ∈ chain, n ∈ nodes) → Tiles current_end chain num_layers →
      chain.length < fuel →
        path_ids ++ chain.map Node.node_id ∈ chains nodes num_layers fuel current_end path_ids) := by
  induction fuel generalizing current_end path_ids with
  | zero =>
    refine ⟨fun h => (by cases h), ?_⟩
    intro _ chain _ _ hlen
    omega
  | succ fuel ih =>
    unfold chains
    by_cases hend : current_end = num_layers
    · rw [if_pos hend]
      constructor
      · intro h
        exact ⟨[], by simp, hend, by simpa using h⟩
      · -- A chain from the end of the model is empty.
        intro hranges chain hmem htiles _
        rcases chain with _ | ⟨n, rest⟩
        · simp
        · exfalso
          obtain ⟨hs, e, he, hrest⟩ := tiles_cons.mp htiles
          have hlt := hranges n (hmem n List.mem_cons_self) _ _ hs he
          have hle := hrest.le (fun m hm => hranges m (hmem m (List.mem_cons_of_mem _ hm)))
          omega
    · rw [if_neg hend]
      constructor
      · intro h
        obtain ⟨x, hx, hids⟩ := List.mem_flatMap.mp h
        obtain ⟨hn, hs, he⟩ := mem_starting_at.mp (List.mem_filter.mp (mem_by_end.mp hx)).1
        obtain ⟨chain, hmem, htiles, rfl⟩ := (ih x.2 (path_ids ++ [x.1.node_id])).1 hids
        refine ⟨x.1 :: chain, ?_, tiles_cons.mpr ⟨hs, _, he, htiles⟩, by simp⟩
        intro m hm
        rcases List.mem_cons.mp hm with rfl | hm
        · exact hn
        · exact hmem m hm
      · intro hranges chain hmem htiles hlen
        rcases chain with _ | ⟨n, rest⟩
        · exact absurd htiles hend
        · obtain ⟨hs, e, he, hrest⟩ := tiles_cons.mp htiles
          have hn := hmem n List.mem_cons_self
          refine List.mem_flatMap.mpr ⟨(n, e), ?_, ?_⟩
          · rw [mem_by_end, List.mem_filter]
            refine ⟨mem_starting_at.mpr ⟨hn, hs, he⟩, ?_⟩
            simpa using hranges n hn _ _ hs he
          · have hfound := (ih e (path_ids ++ [n.node_id])).2 hranges rest
              (fun m hm => hmem m (List.mem_cons_of_mem _ hm)) hrest
              (by rw [List.length_cons] at hlen; omega)
            simpa using hfound

/-- The discovered pipelines are the chains over all layers. -/
theorem mem_pipeline_discovery (hranges : Ascending nodes) {ids : List String} :
    ids ∈ pipeline_discovery nodes num_layers ↔ Pipeline nodes num_layers ids := by
  unfold pipeline_discovery Pipeline
  constructor
  · intro h
    split at h
    · cases h
    · obtain ⟨x, hx, hids⟩ := List.mem_flatMap.mp h
      obtain ⟨hn, hs, he⟩ := mem_starting_at.mp hx
      obtain ⟨chain, hmem, htiles, rfl⟩ := (chains.spec _ _ _ _).1 hids
      refine ⟨x.1 :: chain, List.cons_ne_nil _ _, ?_, tiles_cons.mpr ⟨hs, _, he, htiles⟩, by simp⟩
      intro m hm
      rcases List.mem_cons.mp hm with rfl | hm
      · exact hn
      · exact hmem m hm
  · rintro ⟨chain, hne, hmem, htiles, rfl⟩
    have hlen := chain_length_le hranges hmem htiles
    rcases chain with _ | ⟨n, rest⟩
    · exact absurd rfl hne
    · obtain ⟨hs, e, he, hrest⟩ := tiles_cons.mp htiles
      have hn := hmem n List.mem_cons_self
      have hlt := hranges n hn _ _ hs he
      have hle := hrest.le (fun m hm => hranges m (hmem m (List.mem_cons_of_mem _ hm)))
      rw [if_neg (by rw [not_or]; exact ⟨List.ne_nil_of_mem hn, by omega⟩)]
      refine List.mem_flatMap.mpr ⟨(n, e), mem_starting_at.mpr ⟨hn, hs, he⟩, ?_⟩
      have hfound := (chains.spec (nodes.length + 1) e [n.node_id] []).2 hranges rest
        (fun m hm => hmem m (List.mem_cons_of_mem _ hm)) hrest
        (by rw [List.length_cons] at hlen; omega)
      simpa using hfound

/-! ## The repair -/

theorem open_candidates.spec {layer : Int} {l r : List (Node × Int)}
    (h : open_candidates layer l = .ok r) (x : Node × Int) :
    x ∈ r ↔ x ∈ l ∧ x.2 > layer ∧ x.1.is_overloaded = .ok false := by
  induction l generalizing r with
  | nil =>
    cases h
    simp
  | cons y l ih =>
    unfold open_candidates at h
    split at h
    · rename_i hgt
      obtain ⟨overloaded, hload, h⟩ := bind_eq_ok.mp h
      obtain ⟨others, hothers, h⟩ := bind_eq_ok.mp h
      have hrest := ih hothers
      cases overloaded with
      | true =>
        cases h
        rw [if_pos rfl, hrest, List.mem_cons]
        constructor
        · rintro ⟨hx, h'⟩
          exact ⟨Or.inr hx, h'⟩
        · rintro ⟨rfl | hx, h'⟩
          · rw [hload] at h'
            cases h'.2
          · exact ⟨hx, h'⟩
      | false =>
        cases h
        rw [if_neg Bool.false_ne_true, List.mem_cons, List.mem_cons, hrest]
        constructor
        · rintro (rfl | ⟨hx, h'⟩)
          · exact ⟨Or.inl rfl, hgt, hload⟩
          · exact ⟨Or.inr hx, h'⟩
        · rintro ⟨rfl | hx, h'⟩
          · exact Or.inl rfl
          · exact Or.inr ⟨hx, h'⟩
    · rename_i hle
      rw [ih h, List.mem_cons]
      constructor
      · rintro ⟨hx, h'⟩
        exact ⟨Or.inr hx, h'⟩
      · rintro ⟨rfl | hx, h'⟩
        · exact absurd h'.1 hle
        · exact ⟨hx, h'⟩

theorem first_suffix.spec {search : Int → Except Exn (Option (List String))} {l : List (Node × Int)}
    {r : Option (List String)} (h : first_suffix search l = .ok r) :
    (∀ ids, r = some ids → ∃ x ∈ l, ∃ rest, search x.2 = .ok (some rest) ∧
      ids = x.1.node_id :: rest) ∧ (r = none → ∀ x ∈ l, search x.2 = .ok none) := by
  induction l with
  | nil =>
    cases h
    exact ⟨fun ids hids => (by cases hids), fun _ x hx => (by cases hx)⟩
  | cons y l ih =>
    unfold first_suffix at h
    obtain ⟨found, hfound, h⟩ := bind_eq_ok.mp h
    cases found with
    | some rest =>
      cases h
      refine ⟨?_, fun h => by cases h⟩
      intro ids hids
      cases hids
      exact ⟨y, List.mem_cons_self, rest, hfound, rfl⟩
    | none =>
      obtain ⟨hsome, hnone⟩ := ih h
      constructor
      · intro ids hids
        obtain ⟨x, hx, hrest⟩ := hsome ids hids
        exact ⟨x, List.mem_cons_of_mem _ hx, hrest⟩
      · intro hr x hx
        rcases List.mem_cons.mp hx with rfl | hx
        · exact hfound
        · exact hnone hr x hx

/-- The search for a suffix finds a chain of free nodes, or there is none that is short enough. -/
theorem suffix_from.spec (hranges : Ascending nodes) {fuel : Nat} {layer : Int}
    {r : Option (List String)} (h : suffix_from nodes num_layers fuel layer = .ok r) :
    (∀ ids, r = some ids → ∃ chain, FreeChain nodes num_layers layer chain ∧
      ids = chain.map Node.node_id) ∧
      (r = none → ∀ chain, FreeChain nodes num_layers layer chain → fuel ≤ chain.length) := by
  induction fuel generalizing layer r with
  | zero =>
    cases h
    exact ⟨fun ids hids => (by cases hids), fun _ _ _ => Nat.zero_le _⟩
  | succ fuel ih =>
    unfold suffix_from at h
    split at h
    · rename_i hlayer
      cases h
      refine ⟨?_, fun h => by cases h⟩
      intro ids hids
      cases hids
      exact ⟨[], ⟨by simp, hlayer⟩, rfl⟩
    · rename_i hlayer
      obtain ⟨candidates, hcand, h⟩ := bind_eq_ok.mp h
      have hmem : ∀ x, x ∈ by_end candidates ↔ (x.1 ∈ nodes ∧ x.1.start_layer = some layer ∧
          x.1.end_layer = some x.2) ∧ x.2 > layer ∧ x.1.is_overloaded = .ok false := by
        intro x
        rw [mem_by_end, open_candidates.spec hcand, mem_starting_at]
      obtain ⟨hsome, hnone⟩ := first_suffix.spec h
      constructor
      · intro ids hids
        obtain ⟨x, hx, rest, hsearch, rfl⟩ := hsome ids hids
        obtain ⟨⟨hn, hs, he⟩, _, hload⟩ := (hmem x).mp hx
        obtain ⟨chain, ⟨hfree, htiles⟩, rfl⟩ := (ih hsearch).1 rest rfl
        refine ⟨x.1 :: chain, ⟨?_, tiles_cons.mpr ⟨hs, _, he, htiles⟩⟩, by simp⟩
        intro m hm
        rcases List.mem_cons.mp hm with rfl | hm
        · exact ⟨hn, hload⟩
        · exact hfree m hm
      · intro hr chain hchain
        rcases chain with _ | ⟨n, rest⟩
        · exact absurd hchain.2 hlayer
        · obtain ⟨hs, e, he, hrest⟩ := tiles_cons.mp hchain.2
          obtain ⟨hn, hload⟩ := hchain.1 n List.mem_cons_self
          have hx := (hmem (n, e)).mpr ⟨⟨hn, hs, he⟩, hranges n hn _ _ hs he, hload⟩
          have hlen := (ih (hnone hr (n, e) hx)).2 rfl rest
            ⟨fun m hm => hchain.1 m (List.mem_cons_of_mem _ hm), hrest⟩
          rw [List.length_cons]
          omega

/-- An id stands for the node that has it. -/
theorem node_of_eq (hids : (nodes.map Node.node_id).Nodup) {n : Node} (hn : n ∈ nodes) :
    node_of nodes n.node_id = some n := by
  unfold node_of
  rcases hfind : nodes.reverse.find? (fun m => m.node_id = n.node_id) with _ | m
  · have hnone := List.find?_eq_none.mp hfind n (List.mem_reverse.mpr hn)
    simp at hnone
  · have hm := List.mem_reverse.mp (List.mem_of_find?_eq_some hfind)
    have hid : m.node_id = n.node_id := by simpa using List.find?_some hfind
    rw [hfind, List.inj_on_of_nodup_map hids hm hn hid]

theorem is_viable_node_id_eq (hids : (nodes.map Node.node_id).Nodup) {n : Node} (hn : n ∈ nodes)
    {b : Bool} (h : is_viable_node_id nodes n.node_id = .ok b) : n.is_overloaded = .ok !b := by
  unfold is_viable_node_id at h
  rw [node_of_eq hids hn] at h
  obtain ⟨overloaded, hload, h⟩ := bind_eq_ok.mp h
  cases h
  rw [hload, Bool.not_not]

theorem prefix_ok.spec (hids : (nodes.map Node.node_id).Nodup) {chain : List Node}
    (hmem : ∀ n ∈ chain, n ∈ nodes) {b : Bool}
    (h : prefix_ok nodes (chain.map Node.node_id) = .ok b) :
    b = true ↔ ∀ n ∈ chain, n.is_overloaded = .ok false := by
  induction chain with
  | nil =>
    cases h
    simp
  | cons n rest ih =>
    rw [List.map_cons] at h
    unfold prefix_ok at h
    obtain ⟨viable, hviable, h⟩ := bind_eq_ok.mp h
    have hload := is_viable_node_id_eq hids (hmem n List.mem_cons_self) hviable
    rw [List.forall_mem_cons, hload]
    cases viable with
    | true =>
      rw [ih (fun m hm => hmem m (List.mem_cons_of_mem _ hm)) h]
      simp
    | false =>
      cases h
      simp

/-- The kept nodes end at the layer from which the pipeline is rebuilt. -/
theorem split_layer_eq (hids : (nodes.map Node.node_id).Nodup) {kept : List Node} {layer : Int}
    (hmem : ∀ n ∈ kept, n ∈ nodes) (htiles : Tiles 0 kept layer) :
    split_layer nodes (kept.map Node.node_id) = some layer := by
  unfold split_layer
  rw [List.getLast?_map]
  rcases List.eq_nil_or_concat kept with rfl | ⟨front, n, rfl⟩
  · have hzero : (0 : Int) = layer := htiles
    simp [hzero]
  · rw [List.concat_eq_append] at hmem htiles ⊢
    obtain ⟨s, _, _, he⟩ := tiles_concat.mp htiles
    rw [List.getLast?_append]
    simp [node_of_eq hids (hmem n (by simp)), he]

/-- A repair returns a chain of free nodes. It gives up only when there is none. -/
theorem repair_from.spec (hids : (nodes.map Node.node_id).Nodup) (hranges : Ascending nodes)
    {chain : List Node} (hmem : ∀ n ∈ chain, n ∈ nodes) (htiles : Tiles 0 chain num_layers)
    {k : Nat} {r : Option (List String)}
    (h : repair_from (chain.map Node.node_id) nodes num_layers k = .ok r) :
    (∀ ids, r = some ids → ∃ c, c ≠ [] ∧ FreeChain nodes num_layers 0 c ∧
      ids = c.map Node.node_id) ∧
      (r = none → 0 < k → ∀ c, c ≠ [] → ¬ FreeChain nodes num_layers 0 c) := by
  induction k generalizing r with
  | zero =>
    cases h
    exact ⟨fun ids hids => (by cases hids), fun _ hk => absurd hk (lt_irrefl 0)⟩
  | succ k ih =>
    have hkept : ∀ n ∈ chain.take k, n ∈ nodes := fun n hn => hmem n (List.mem_of_mem_take hn)
    obtain ⟨layer, hfront, _⟩ := tiles_append.mp
      ((List.take_append_drop k chain).symm ▸ htiles : Tiles 0 (chain.take k ++ chain.drop k) _)
    have hlayer := split_layer_eq hids hkept hfront
    unfold repair_from at h
    obtain ⟨viable, hviable, h⟩ := bind_eq_ok.mp h
    rw [← List.map_take] at hviable h
    have hbegins := prefix_ok.spec hids hkept hviable
    -- When nothing can be kept, the next attempt keeps less, and the last one keeps nothing.
    have hless : ∀ r', repair_from (chain.map Node.node_id) nodes num_layers k = .ok r' →
        (k = 0 → ∀ c, c ≠ [] → ¬ FreeChain nodes num_layers 0 c) →
        (∀ ids, r' = some ids → ∃ c, c ≠ [] ∧ FreeChain nodes num_layers 0 c ∧
          ids = c.map Node.node_id) ∧
          (r' = none → 0 < k + 1 → ∀ c, c ≠ [] → ¬ FreeChain nodes num_layers 0 c) := by
      intro r' hr' hzero
      obtain ⟨hsome, hnone⟩ := ih hr'
      refine ⟨hsome, fun hr _ => ?_⟩
      rcases Nat.eq_zero_or_pos k with hk | hk
      · exact hzero hk
      · exact hnone hr hk
    cases viable with
    | false =>
      refine hless r h ?_
      intro hk
      exfalso
      rw [hk] at hbegins
      simp at hbegins
    | true =>
      rw [Bool.not_true, if_neg Bool.false_ne_true, hlayer] at h
      obtain ⟨suffix, hsuffix, h⟩ := bind_eq_ok.mp h
      obtain ⟨hsome, hnone⟩ := suffix_from.spec hranges hsuffix
      cases suffix with
      | none =>
        refine hless r h ?_
        rintro hk c hne ⟨hfree, hc⟩
        rw [hk] at hfront
        have hzero : (0 : Int) = layer := hfront
        have hlen := hnone rfl c ⟨hfree, hzero ▸ hc⟩
        have hle := chain_length_le hranges (fun n hn => (hfree n hn).1) hc
        omega
      | some suffix =>
        obtain ⟨c, ⟨hfree, hc⟩, rfl⟩ := hsome suffix rfl
        have hall : FreeChain nodes num_layers 0 (chain.take k ++ c) := by
          refine ⟨?_, tiles_append.mpr ⟨layer, hfront, hc⟩⟩
          intro n hn
          rcases List.mem_append.mp hn with hn | hn
          · exact ⟨hkept n hn, hbegins.mp rfl n hn⟩
          · exact hfree n hn
        simp only [← List.map_append] at h
        by_cases hempty : chain.take k ++ c = []
        · rw [hempty] at h
          cases h
          refine ⟨fun ids hids => (by cases hids), ?_⟩
          -- An empty chain means that there are no layers.
          rintro _ _ d hne ⟨hd, htiles'⟩
          rw [hempty] at hall
          have hzero : (0 : Int) = num_layers := hall.2
          rcases d with _ | ⟨n, rest⟩
          · exact hne rfl
          · obtain ⟨hs, e, he, hrest⟩ := tiles_cons.mp htiles'
            have hlt := hranges n (hd n List.mem_cons_self).1 _ _ hs he
            have hle := hrest.le
              (fun m hm => hranges m (hd m (List.mem_cons_of_mem _ hm)).1)
            omega
        · have hfalse : ((chain.take k ++ c).map Node.node_id).isEmpty = false := by
            simpa using hempty
          rw [hfalse] at h
          cases h
          refine ⟨?_, fun h => by cases h⟩
          intro ids hids
          cases hids
          exact ⟨_, hempty, hall, rfl⟩

theorem attempt_repair_pipeline.spec (hids : (nodes.map Node.node_id).Nodup)
    (hranges : Ascending nodes) {ids : List String} (hpipeline : Pipeline nodes num_layers ids)
    {r : Option (List String)} (h : attempt_repair_pipeline ids nodes num_layers = .ok r) :
    (∀ repaired, r = some repaired → ∃ c, c ≠ [] ∧ FreeChain nodes num_layers 0 c ∧
      repaired = c.map Node.node_id) ∧
      (r = none → ∀ c, c ≠ [] → ¬ FreeChain nodes num_layers 0 c) := by
  obtain ⟨chain, hne, hmem, htiles, rfl⟩ := hpipeline
  obtain ⟨hsome, hnone⟩ := repair_from.spec hids hranges hmem htiles h
  refine ⟨hsome, fun hr => hnone hr ?_⟩
  rw [List.length_map]
  exact List.length_pos_of_ne_nil hne

/-! ## The latency of a path -/

/-- A path that is used has no overloaded node. -/
theorem path_latency.spec (hids : (nodes.map Node.node_id).Nodup) {chain : List Node}
    (hmem : ∀ n ∈ chain, n ∈ nodes) {prev : Option Node} {total : Latency} {r : Option Latency}
    (h : path_latency nodes (chain.map Node.node_id) prev total = .ok r) :
    r.isSome = true ↔ ∀ n ∈ chain, n.is_overloaded = .ok false := by
  induction chain generalizing prev total with
  | nil =>
    cases h
    simp
  | cons n rest ih =>
    rw [List.map_cons] at h
    unfold path_latency at h
    rw [node_of_eq hids (hmem n List.mem_cons_self)] at h
    obtain ⟨overloaded, hload, h⟩ := bind_eq_ok.mp h
    rw [List.forall_mem_cons, hload]
    cases overloaded with
    | true =>
      cases h
      simp
    | false =>
      obtain ⟨latency, _, h⟩ := bind_eq_ok.mp h
      rw [ih (fun m hm => hmem m (List.mem_cons_of_mem _ hm)) h]
      simp

theorem usable_path.spec (hids : (nodes.map Node.node_id).Nodup) {chain : List Node}
    (hmem : ∀ n ∈ chain, n ∈ nodes) {found : List String × Latency}
    (h : usable_path nodes (chain.map Node.node_id) = .ok (some found)) :
    found.1 = chain.map Node.node_id ∧ ∀ n ∈ chain, n.is_overloaded = .ok false := by
  unfold usable_path at h
  obtain ⟨r, hr, h⟩ := bind_eq_ok.mp h
  have hspec := path_latency.spec hids hmem hr
  cases r with
  | none => cases h
  | some total =>
    dsimp only at h
    split at h
    · cases h
    · cases h
      exact ⟨rfl, hspec.mp rfl⟩

/-! ## Measured nodes -/

/-- What is known of the nodes with a range: whether they are overloaded, the latencies of those that
are not, and the hops between them. -/
structure Measured (nodes : List Node) : Prop where
  load : ∀ n ∈ nodes, n.is_allocated = true → ∃ b, n.is_overloaded = .ok b
  latency : ∀ n ∈ nodes, n.is_allocated = true → n.is_overloaded = .ok false →
    ∃ x, n.layer_latency_ms = .ok x ∧ x ≠ ⊤
  rtt : ∀ n ∈ nodes, ∀ m ∈ nodes, n.is_allocated = true → m.is_allocated = true →
    n.get_rtt_to m ≠ ⊤

theorem Tiles.allocated {chain : List Node} {layer target : Int} (h : Tiles layer chain target) :
    ∀ n ∈ chain, n.is_allocated = true := by
  induction chain generalizing layer with
  | nil => exact fun n hn => by cases hn
  | cons m rest ih =>
    obtain ⟨hs, e, he, hrest⟩ := tiles_cons.mp h
    intro n hn
    rcases List.mem_cons.mp hn with rfl | hn
    · simp [Node.is_allocated, hs, he]
    · exact ih hrest n hn

theorem starting_at_allocated {layer : Int} {x : Node × Int} (h : x ∈ starting_at nodes layer) :
    x.1 ∈ nodes ∧ x.1.is_allocated = true := by
  obtain ⟨hn, hs, he⟩ := mem_starting_at.mp h
  exact ⟨hn, by simp [Node.is_allocated, hs, he]⟩

theorem open_candidates_returns (M : Measured nodes) {layer : Int} {l : List (Node × Int)}
    (h : ∀ x ∈ l, x.1 ∈ nodes ∧ x.1.is_allocated = true) :
    ∃ r, open_candidates layer l = .ok r := by
  induction l with
  | nil => exact ⟨[], rfl⟩
  | cons y l ih =>
    obtain ⟨hn, halloc⟩ := h y List.mem_cons_self
    obtain ⟨b, hb⟩ := M.load _ hn halloc
    obtain ⟨r, hr⟩ := ih (fun x hx => h x (List.mem_cons_of_mem _ hx))
    unfold open_candidates
    split
    · rw [hb, hr]
      exact ⟨_, rfl⟩
    · exact ⟨r, hr⟩

theorem first_suffix_returns {search : Int → Except Exn (Option (List String))}
    (hsearch : ∀ layer, ∃ r, search layer = .ok r) (l : List (Node × Int)) :
    ∃ r, first_suffix search l = .ok r := by
  induction l with
  | nil => exact ⟨none, rfl⟩
  | cons y l ih =>
    unfold first_suffix
    obtain ⟨r, hr⟩ := hsearch y.2
    rw [hr]
    cases r with
    | none => exact ih
    | some ids => exact ⟨_, rfl⟩

theorem suffix_from_returns (M : Measured nodes) (fuel : Nat) (layer : Int) :
    ∃ r, suffix_from nodes num_layers fuel layer = .ok r := by
  induction fuel generalizing layer with
  | zero => exact ⟨none, rfl⟩
  | succ fuel ih =>
    unfold suffix_from
    split
    · exact ⟨_, rfl⟩
    · obtain ⟨candidates, hcand⟩ := open_candidates_returns M
        (fun x hx => starting_at_allocated hx)
      rw [hcand]
      exact first_suffix_returns ih _

theorem prefix_ok_returns (M : Measured nodes) (hids : (nodes.map Node.node_id).Nodup)
    {chain : List Node} (h : ∀ n ∈ chain, n ∈ nodes ∧ n.is_allocated = true) :
    ∃ b, prefix_ok nodes (chain.map Node.node_id) = .ok b := by
  induction chain with
  | nil => exact ⟨true, rfl⟩
  | cons n rest ih =>
    obtain ⟨hn, halloc⟩ := h n List.mem_cons_self
    obtain ⟨b, hb⟩ := M.load _ hn halloc
    have hviable : is_viable_node_id nodes n.node_id = .ok !b := by
      unfold is_viable_node_id
      rw [node_of_eq hids hn]
      simp only [hb, bind, Except.bind]
      rfl
    rw [List.map_cons]
    unfold prefix_ok
    rw [hviable]
    cases b with
    | true => exact ⟨_, rfl⟩
    | false => exact ih (fun m hm => h m (List.mem_cons_of_mem _ hm))

theorem repair_from_returns (M : Measured nodes) (hids : (nodes.map Node.node_id).Nodup)
    {chain : List Node} (h : ∀ n ∈ chain, n ∈ nodes ∧ n.is_allocated = true) (k : Nat) :
    ∃ r, repair_from (chain.map Node.node_id) nodes num_layers k = .ok r := by
  induction k with
  | zero => exact ⟨none, rfl⟩
  | succ k ih =>
    unfold repair_from
    obtain ⟨b, hb⟩ := prefix_ok_returns M hids
      (fun n hn => h n (List.mem_of_mem_take hn) : ∀ n ∈ chain.take k, _)
    rw [← List.map_take]
    dsimp only
    rw [hb]
    cases b with
    | false => exact ih
    | true =>
      simp only [bind, Except.bind, Bool.not_true, Bool.false_eq_true, if_false]
      split
      · exact ih
      · rename_i layer _
        obtain ⟨suffix, hsuffix⟩ := suffix_from_returns M
          (nodes.length + 1) layer
        rw [hsuffix]
        cases suffix with
        | none => exact ih
        | some ids => exact ⟨_, rfl⟩

theorem attempt_repair_pipeline_returns (M : Measured nodes) (hids : (nodes.map Node.node_id).Nodup)
    {chain : List Node} (h : ∀ n ∈ chain, n ∈ nodes ∧ n.is_allocated = true) :
    ∃ r, attempt_repair_pipeline (chain.map Node.node_id) nodes num_layers = .ok r :=
  repair_from_returns M hids h _

theorem path_latency_returns (M : Measured nodes) (hids : (nodes.map Node.node_id).Nodup)
    {chain : List Node} (h : ∀ n ∈ chain, n ∈ nodes ∧ n.is_allocated = true) (prev : Option Node)
    (hprev : ∀ n, prev = some n → n ∈ nodes ∧ n.is_allocated = true) (total : Latency)
    (htotal : total ≠ ⊤) :
    ∃ r, path_latency nodes (chain.map Node.node_id) prev total = .ok r ∧ r ≠ some ⊤ := by
  induction chain generalizing prev total with
  | nil => exact ⟨some total, rfl, by simpa using htotal⟩
  | cons n rest ih =>
    obtain ⟨hn, halloc⟩ := h n List.mem_cons_self
    rw [List.map_cons]
    unfold path_latency
    rw [node_of_eq hids hn]
    obtain ⟨b, hb⟩ := M.load _ hn halloc
    simp only [hb, bind, Except.bind]
    cases b with
    | true => exact ⟨none, rfl, by simp⟩
    | false =>
      obtain ⟨x, hx, hfinite⟩ := M.latency _ hn halloc hb
      simp only [hx, Bool.false_eq_true, if_false]
      refine ih (fun m hm => h m (List.mem_cons_of_mem _ hm)) (some n) ?_ _ ?_
      · intro m hm
        cases hm
        exact ⟨hn, halloc⟩
      · rw [WithTop.add_ne_top, WithTop.add_ne_top]
        refine ⟨⟨htotal, hfinite⟩, ?_⟩
        cases prev with
        | none => exact WithTop.zero_ne_top
        | some m =>
          dsimp only
          split
          · exact WithTop.zero_ne_top
          · exact M.rtt _ (hprev m rfl).1 _ hn (hprev m rfl).2 halloc

/-- A pipeline can be used exactly when none of its nodes is overloaded. -/
theorem usable_path_iff (M : Measured nodes) (hids : (nodes.map Node.node_id).Nodup)
    {chain : List Node} (h : ∀ n ∈ chain, n ∈ nodes ∧ n.is_allocated = true) :
    ∃ r, usable_path nodes (chain.map Node.node_id) = .ok r ∧
      (r = none ∧ (¬ ∀ n ∈ chain, n.is_overloaded = .ok false) ∨
        ∃ latency, r = some (chain.map Node.node_id, latency) ∧
          ∀ n ∈ chain, n.is_overloaded = .ok false) := by
  obtain ⟨r, hr, hfinite⟩ := path_latency_returns M hids h none (by simp) 0 WithTop.zero_ne_top
  have hspec := path_latency.spec hids (fun n hn => (h n hn).1) hr
  unfold usable_path
  rw [hr]
  cases r with
  | none => exact ⟨none, rfl, Or.inl ⟨rfl, fun hall => absurd (hspec.mpr hall) (by simp)⟩⟩
  | some total =>
    have htotal : total ≠ ⊤ := by simpa using hfinite
    refine ⟨some (chain.map Node.node_id, total), ?_, Or.inr ⟨total, rfl, hspec.mp rfl⟩⟩
    simp only [bind, Except.bind, if_neg htotal]
    rfl

/-! ## One call -/

/-- The path is a chain of free nodes, or there is none. -/
def Served (nodes : List Node) (num_layers : Int) (path : List String) : Prop :=
  path = [] ∨ ∃ chain, chain ≠ [] ∧ FreeChain nodes num_layers 0 chain ∧
    path = chain.map Node.node_id

/-- The cached pipelines are those of the allocation. -/
def Cached (nodes : List Node) (num_layers : Int) (router : RoundRobinPipelineRouting) : Prop :=
  ∀ pipelines, router.pipelines = some pipelines →
    ∀ ids, ids ∈ pipelines ↔ Pipeline nodes num_layers ids

theorem raised_of_ok {α : Type} {x : Except Exn α} {v : α} (h : x = .ok v)
    (router : RoundRobinPipelineRouting) : raised x router = .ok v router := by
  rw [h]
  rfl

theorem raised_spec {α : Type} (x : Except Exn α) (P : RoundRobinPipelineRouting → Prop) :
    Triple P (raised x) (fun v router => x = .ok v ∧ P router) (fun _ router => P router) := by
  cases x with
  | ok v => exact Triple.pure (fun _ h => ⟨rfl, h⟩)
  | error e => exact Triple.throws (fun _ h => h)

theorem getD_mem {pipelines : List (List String)} (hne : pipelines ≠ []) (i : Nat) :
    pipelines.getD (i % pipelines.length) [] ∈ pipelines := by
  have hlt := Nat.mod_lt i (List.length_pos_of_ne_nil hne)
  rw [List.getD_eq_getElem _ _ hlt]
  exact List.getElem_mem hlt

/-- A selection serves, and leaves the cache as it is. -/
theorem select.spec (hids : (nodes.map Node.node_id).Nodup) (hranges : Ascending nodes)
    {pipelines : List (List String)} (hne : pipelines ≠ [])
    (hpipelines : ∀ ids ∈ pipelines, Pipeline nodes num_layers ids)
    (cache : Option (List (List String))) (attempts : Nat) :
    Triple (fun router => router.pipelines = cache) (select nodes num_layers pipelines attempts)
      (fun found router => Served nodes num_layers found.1 ∧ router.pipelines = cache)
      (fun _ router => router.pipelines = cache) := by
  induction attempts with
  | zero => exact Triple.pure (fun _ h => ⟨Or.inl rfl, h⟩)
  | succ attempts ih =>
    refine Triple.reads ?_
    intro router hcache
    have hpipeline := hpipelines _ (getD_mem hne router.rr_cursor)
    generalize pipelines.getD (router.rr_cursor % pipelines.length) [] = ids at hpipeline ⊢
    refine Triple.bind (Triple.mono (raised_spec (usable_path nodes ids)
      (fun router => router.pipelines = cache)) (fun _ h => h ▸ hcache) (fun _ _ h => h)
        (fun _ _ h => h)) ?_
    intro viable
    refine Triple.bind (R := fun _ router =>
      usable_path nodes ids = .ok viable ∧ router.pipelines = cache)
      (Triple.sets (fun _ h => ⟨h.1, hcache⟩)) ?_
    intro _
    cases viable with
    | some found =>
      refine Triple.pure ?_
      rintro _ ⟨husable, h⟩
      obtain ⟨chain, hchain, hmem, htiles, rfl⟩ := hpipeline
      obtain ⟨hpath, hfree⟩ := usable_path.spec hids hmem husable
      exact ⟨Or.inr ⟨chain, hchain, ⟨fun n hn => ⟨hmem n hn, hfree n hn⟩, htiles⟩, hpath⟩, h⟩
    | none =>
      refine Triple.bind (Triple.mono (raised_spec (attempt_repair_pipeline ids nodes num_layers)
        (fun router => router.pipelines = cache)) (fun _ h => h.2) (fun _ _ h => h)
          (fun _ _ h => h)) ?_
      intro repaired
      cases repaired with
      | none => exact Triple.mono ih (fun _ h => h.2) (fun _ _ h => h) (fun _ _ h => h)
      | some repaired =>
        refine Triple.bind (R := fun found router =>
          (attempt_repair_pipeline ids nodes num_layers = .ok (some repaired) ∧
            usable_path nodes repaired = .ok found) ∧ router.pipelines = cache) ?_ ?_
        · intro router' h
          have hraised := raised_spec (usable_path nodes repaired)
            (fun router => router.pipelines = cache) router' h.2
          rcases hrun : raised (usable_path nodes repaired) router' with ⟨found, router''⟩ | ⟨e, router''⟩
          · rw [hrun] at hraised
            exact ⟨⟨h.1, hraised.1⟩, hraised.2⟩
          · rw [hrun] at hraised
            exact hraised
        · intro found
          cases found with
          | none => exact Triple.mono ih (fun _ h => h.2) (fun _ _ h => h) (fun _ _ h => h)
          | some found =>
            refine Triple.pure ?_
            rintro _ ⟨⟨hrepair, husable⟩, h⟩
            obtain ⟨c, hc, hfree, rfl⟩ :=
              (attempt_repair_pipeline.spec hids hranges hpipeline hrepair).1 repaired rfl
            obtain ⟨hpath, _⟩ := usable_path.spec hids (fun n hn => (hfree.1 n hn).1) husable
            exact ⟨Or.inr ⟨c, hc, hfree, hpath⟩, h⟩

/-- Whatever the cursor, a call serves, and the cache stays that of the allocation. -/
theorem find_optimal_path.spec (hids : (nodes.map Node.node_id).Nodup) (hranges : Ascending nodes) :
    Triple (Cached nodes num_layers) (find_optimal_path nodes num_layers)
      (fun found router => Served nodes num_layers found.1 ∧ Cached nodes num_layers router)
      (fun _ router => Cached nodes num_layers router) := by
  unfold find_optimal_path
  refine Triple.cond (fun _ => Triple.pure (fun _ h => ⟨Or.inl rfl, h⟩)) (fun _ => ?_)
  have hensure : Triple (Cached nodes num_layers) (ensure_pipelines nodes num_layers)
      (fun pipelines router => (∀ ids, ids ∈ pipelines ↔ Pipeline nodes num_layers ids) ∧
        router.pipelines = some pipelines) (fun _ router => Cached nodes num_layers router) := by
    refine Triple.reads ?_
    intro router hcached
    rcases hpipelines : router.pipelines with _ | pipelines
    · dsimp only
      refine Triple.bind (R := fun _ router =>
        router.pipelines = some (pipeline_discovery nodes num_layers))
        (Triple.sets (fun _ _ => rfl)) (fun _ => Triple.pure ?_)
      exact fun _ h => ⟨fun ids => mem_pipeline_discovery hranges, h⟩
    · dsimp only
      refine Triple.pure ?_
      intro _ h
      rw [h]
      exact ⟨hcached pipelines hpipelines, hpipelines⟩
  refine Triple.bind hensure ?_
  intro pipelines
  by_cases hall : ∀ ids, ids ∈ pipelines ↔ Pipeline nodes num_layers ids
  · have hcache : ∀ router : RoundRobinPipelineRouting, router.pipelines = some pipelines →
        Cached nodes num_layers router := by
      intro router h ps hps
      rw [h] at hps
      cases hps
      exact hall
    refine Triple.cond (fun _ => Triple.pure (fun _ h => ⟨Or.inl rfl, hcache _ h.2⟩)) (fun hne => ?_)
    refine Triple.bind (R := fun _ router => router.pipelines = some pipelines)
      (Triple.modifies (fun _ h => h.2)) (fun _ => ?_)
    exact Triple.mono (select.spec hids hranges (by simpa using hne) (fun ids h => (hall ids).mp h)
      (some pipelines) pipelines.length) (fun _ h => h) (fun _ router h => ⟨h.1, hcache _ h.2⟩)
      (fun _ router h => hcache _ h)
  · intro _ h
    exact absurd h.1 hall

end

end RoundRobinPipelineRouting

end scheduling.request_routing
