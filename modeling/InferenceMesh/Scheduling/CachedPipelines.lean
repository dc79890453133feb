-- The round-robin router on nodes that may have moved since it discovered its
-- pipelines. A path is a chain of the nodes that are there, as long as those of
-- the cached pipelines have the ranges they had at the discovery.
import InferenceMesh.Scheduling.RoundRobin

open ordered_dict python state_exn except_list
open scheduling.node

namespace scheduling.request_routing

/-! ## Chains with rising ends -/

/-- All nodes end behind the layer. -/
def Beyond (layer : Int) (chain : List Node) : Prop :=
  ∀ n ∈ chain, ∃ e, n.end_layer = some e ∧ layer < e

/-- Each node ends behind all nodes before it. -/
def Rising : List Node → Prop
  | [] => True
  | n :: rest => (∀ e, n.end_layer = some e → Beyond e rest) ∧ Rising rest

theorem Rising.nodup {chain : List Node} {layer target : Int} (h : Rising chain)
    (htiles : Tiles layer chain target) : chain.Nodup := by
  induction chain generalizing layer with
  | nil => exact List.nodup_nil
  | cons n rest ih =>
    obtain ⟨_, e, he, hrest⟩ := tiles_cons.mp htiles
    refine List.nodup_cons.mpr ⟨?_, ih h.2 hrest⟩
    intro hmem
    obtain ⟨e', he', hlt⟩ := h.1 e he n hmem
    rw [he] at he'
    cases he'
    exact lt_irrefl e hlt

/-- The nodes of a chain end at its target or before it. -/
theorem Rising.ends_le {chain : List Node} {layer target : Int} (h : Rising chain)
    (htiles : Tiles layer chain target) :
    ∀ n ∈ chain, ∀ e, n.end_layer = some e → e ≤ target := by
  induction chain generalizing layer with
  | nil => exact fun n hn => by cases hn
  | cons m rest ih =>
    obtain ⟨_, e, he, hrest⟩ := tiles_cons.mp htiles
    have hlater := ih h.2 hrest
    intro n hn e' he'
    rcases List.mem_cons.mp hn with rfl | hn
    · rw [he] at he'
      cases he'
      rcases rest with _ | ⟨k, rest⟩
      · exact le_of_eq hrest
      · obtain ⟨d, hd, hlt⟩ := h.1 e he k List.mem_cons_self
        have hle := hlater k List.mem_cons_self d hd
        omega
    · exact hlater n hn e' he'

theorem Beyond.mono {chain : List Node} {layer layer' : Int} (h : Beyond layer' chain)
    (hle : layer ≤ layer') : Beyond layer chain := by
  intro n hn
  obtain ⟨e, he, hlt⟩ := h n hn
  exact ⟨e, he, by omega⟩

theorem Rising.take {chain : List Node} (h : Rising chain) (k : Nat) : Rising (chain.take k) := by
  induction chain generalizing k with
  | nil => simpa using h
  | cons n rest ih =>
    cases k with
    | zero => trivial
    | succ k =>
      rw [List.take_succ_cons]
      exact ⟨fun e he m hm => h.1 e he m (List.mem_of_mem_take hm), ih h.2 k⟩

/-- A chain goes on with another one that ends behind it. -/
theorem Rising.append {chain rest : List Node} {layer mid : Int} (h : Rising chain)
    (htiles : Tiles layer chain mid) (hrest : Rising rest) (hbeyond : Beyond mid rest) :
    Rising (chain ++ rest) := by
  induction chain generalizing layer with
  | nil => exact hrest
  | cons n chain ih =>
    obtain ⟨_, e, he, htail⟩ := tiles_cons.mp htiles
    refine ⟨?_, ih h.2 htail⟩
    intro e' he' m hm
    rcases List.mem_append.mp hm with hm | hm
    · exact h.1 e' he' m hm
    · exact hbeyond.mono (h.ends_le htiles n List.mem_cons_self e' he') m hm

/-! ## The same nodes, later -/

/-- The nodes have one id and one range. -/
def SamePlace (n m : Node) : Prop :=
  m.node_id = n.node_id ∧ m.start_layer = n.start_layer ∧ m.end_layer = n.end_layer

instance (n m : Node) : Decidable (SamePlace n m) := inferInstanceAs (Decidable (_ ∧ _ ∧ _))

theorem same_places_ids {chain chain' : List Node} (h : List.Forall₂ SamePlace chain chain') :
    chain'.map Node.node_id = chain.map Node.node_id := by
  induction h with
  | nil => rfl
  | cons hplace _ ih => rw [List.map_cons, List.map_cons, hplace.1, ih]

theorem same_places_tiles {chain chain' : List Node} (h : List.Forall₂ SamePlace chain chain')
    {layer target : Int} (htiles : Tiles layer chain target) : Tiles layer chain' target := by
  induction h generalizing layer with
  | nil => exact htiles
  | cons hplace _ ih =>
    obtain ⟨hs, e, he, hrest⟩ := tiles_cons.mp htiles
    exact tiles_cons.mpr ⟨hplace.2.1.trans hs, e, hplace.2.2.trans he, ih hrest⟩

theorem same_places_beyond {chain chain' : List Node} (h : List.Forall₂ SamePlace chain chain')
    {layer : Int} (hbeyond : Beyond layer chain) : Beyond layer chain' := by
  induction h with
  | nil => exact hbeyond
  | cons hplace _ ih =>
    intro m hm
    rcases List.mem_cons.mp hm with rfl | hm
    · obtain ⟨e, he, hlt⟩ := hbeyond _ List.mem_cons_self
      exact ⟨e, hplace.2.2.trans he, hlt⟩
    · exact ih (fun n hn => hbeyond n (List.mem_cons_of_mem _ hn)) m hm

theorem same_places_rising {chain chain' : List Node} (h : List.Forall₂ SamePlace chain chain')
    (hrising : Rising chain) : Rising chain' := by
  induction h with
  | nil => trivial
  | cons hplace hrest ih =>
    refine ⟨fun e he => ?_, ih hrising.2⟩
    exact same_places_beyond hrest (hrising.1 e (hplace.2.2.symm.trans he))

namespace RoundRobinPipelineRouting

/-! ## Paths of listed nodes -/

/-- The path is a chain over all layers, of nodes that are there. -/
def Sound (nodes : List Node) (num_layers : Int) (path : List String) : Prop :=
  ∃ chain, (∀ n ∈ chain, n ∈ nodes) ∧ Tiles 0 chain num_layers ∧ Rising chain ∧
    path = chain.map Node.node_id

/-- A node with an id of the path, that was seen and is there now, is where it was. -/
def Unmoved (seen nodes : List Node) (path : List String) : Prop :=
  ∀ n ∈ seen, ∀ m ∈ nodes, n.node_id ∈ path → m.node_id = n.node_id → SamePlace n m

/-- Each id of the path belongs to a node that is there. -/
def Present (nodes : List Node) (path : List String) : Prop :=
  ∀ id ∈ path, ∃ m ∈ nodes, m.node_id = id

section

variable {seen nodes : List Node} {num_layers : Int}

/-- The nodes of a chain that are still there. -/
theorem Unmoved.chain {chain : List Node} (h : Unmoved seen nodes (chain.map Node.node_id))
    (hmem : ∀ n ∈ chain, n ∈ seen) (hpresent : Present nodes (chain.map Node.node_id)) :
    ∃ chain', (∀ m ∈ chain', m ∈ nodes) ∧ List.Forall₂ SamePlace chain chain' := by
  induction chain with
  | nil => exact ⟨[], by simp, .nil⟩
  | cons n rest ih =>
    obtain ⟨m, hm, hid⟩ := hpresent n.node_id (by simp)
    have hplace := h n (hmem n List.mem_cons_self) m hm (by simp) hid
    obtain ⟨chain', hmem', hsame⟩ := ih
      (fun k hk l hl hpath => h k hk l hl (List.mem_cons_of_mem _ hpath))
      (fun k hk => hmem k (List.mem_cons_of_mem _ hk))
      (fun id hpath => hpresent id (List.mem_cons_of_mem _ hpath))
    refine ⟨m :: chain', ?_, .cons hplace hsame⟩
    intro k hk
    rcases List.mem_cons.mp hk with rfl | hk
    · exact hm
    · exact hmem' k hk

theorem mem_of_node_of {id : String} {n : Node} (h : node_of nodes id = some n) :
    n ∈ nodes ∧ n.node_id = id :=
  ⟨List.mem_reverse.mp (List.mem_of_find?_eq_some h), by simpa using List.find?_some h⟩

/-- A path with a latency names nodes that are there. -/
theorem path_latency_present {path : List String} {prev : Option Node} {total r : Latency}
    (h : path_latency nodes path prev total = .ok (some r)) : Present nodes path := by
  induction path generalizing prev total with
  | nil => exact fun id hid => by cases hid
  | cons node_id rest ih =>
    unfold path_latency at h
    split at h
    · cases h
    · rename_i node hnode
      obtain ⟨overloaded, _, h⟩ := bind_eq_ok.mp h
      cases overloaded with
      | true => cases h
      | false =>
        obtain ⟨latency, _, h⟩ := bind_eq_ok.mp h
        intro id hid
        rcases List.mem_cons.mp hid with rfl | hid
        · exact ⟨node, mem_of_node_of hnode⟩
        · exact ih h id hid

theorem usable_path_present {path : List String} {found : List String × Latency}
    (h : usable_path nodes path = .ok (some found)) : found.1 = path ∧ Present nodes path := by
  unfold usable_path at h
  obtain ⟨r, hr, h⟩ := bind_eq_ok.mp h
  cases r with
  | none => cases h
  | some total =>
    dsimp only at h
    split at h
    · cases h
    · cases h
      exact ⟨rfl, path_latency_present hr⟩

theorem prefix_ok_present {path : List String} (h : prefix_ok nodes path = .ok true) :
    Present nodes path := by
  induction path with
  | nil => exact fun id hid => by cases hid
  | cons node_id rest ih =>
    unfold prefix_ok at h
    obtain ⟨viable, hviable, h⟩ := bind_eq_ok.mp h
    cases viable with
    | false => cases h
    | true =>
      intro id hid
      rcases List.mem_cons.mp hid with rfl | hid
      · unfold is_viable_node_id at hviable
        split at hviable
        · cases hviable
        · rename_i node hnode
          exact ⟨node, mem_of_node_of hnode⟩
      · exact ih h id hid

/-! ## Discovered pipelines -/

/-- The chains that are found behind a layer end further and further. -/
theorem chains_rising {fuel : Nat} {current_end : Int} {path_ids ids : List String}
    (h : ids ∈ chains nodes num_layers fuel current_end path_ids) :
    ∃ chain, (∀ n ∈ chain, n ∈ nodes) ∧ Tiles current_end chain num_layers ∧
      Beyond current_end chain ∧ Rising chain ∧ ids = path_ids ++ chain.map Node.node_id := by
  induction fuel generalizing current_end path_ids with
  | zero => cases h
  | succ fuel ih =>
    unfold chains at h
    split at h
    · rename_i hend
      exact ⟨[], by simp, hend, (fun n hn => by cases hn), trivial, by simpa using h⟩
    · obtain ⟨x, hx, hids⟩ := List.mem_flatMap.mp h
      obtain ⟨hx, hlater⟩ := List.mem_filter.mp (mem_by_end.mp hx)
      obtain ⟨hn, hs, he⟩ := mem_starting_at.mp hx
      have hlt : current_end < x.2 := by simpa using hlater
      obtain ⟨chain, hmem, htiles, hbeyond, hrising, rfl⟩ := ih hids
      refine ⟨x.1 :: chain, ?_, tiles_cons.mpr ⟨hs, _, he, htiles⟩, ?_, ⟨?_, hrising⟩, by simp⟩
      · exact List.forall_mem_cons.mpr ⟨hn, hmem⟩
      · exact List.forall_mem_cons.mpr ⟨⟨_, he, hlt⟩, hbeyond.mono hlt.le⟩
      · intro e he'
        rw [he] at he'
        cases he'
        exact hbeyond

/-- A discovered pipeline is a chain. The range of its first node may be empty. -/
theorem pipeline_discovery_sound {ids : List String}
    (h : ids ∈ pipeline_discovery nodes num_layers) : Sound nodes num_layers ids := by
  unfold pipeline_discovery at h
  split at h
  · cases h
  · obtain ⟨x, hx, hids⟩ := List.mem_flatMap.mp h
    obtain ⟨hn, hs, he⟩ := mem_starting_at.mp hx
    obtain ⟨chain, hmem, htiles, hbeyond, hrising, rfl⟩ := chains_rising hids
    refine ⟨x.1 :: chain, List.forall_mem_cons.mpr ⟨hn, hmem⟩,
      tiles_cons.mpr ⟨hs, _, he, htiles⟩, ⟨?_, hrising⟩, by simp⟩
    intro e he'
    rw [he] at he'
    cases he'
    exact hbeyond

/-! ## Repaired pipelines -/

theorem suffix_from_rising {fuel : Nat} {layer : Int} {ids : List String}
    (h : suffix_from nodes num_layers fuel layer = .ok (some ids)) :
    ∃ chain, (∀ n ∈ chain, n ∈ nodes) ∧ Tiles layer chain num_layers ∧ Beyond layer chain ∧
      Rising chain ∧ ids = chain.map Node.node_id := by
  induction fuel generalizing layer ids with
  | zero => cases h
  | succ fuel ih =>
    unfold suffix_from at h
    split at h
    · rename_i hlayer
      cases h
      exact ⟨[], by simp, hlayer, (fun n hn => by cases hn), trivial, rfl⟩
    · obtain ⟨candidates, hcand, h⟩ := bind_eq_ok.mp h
      obtain ⟨x, hx, rest, hsearch, rfl⟩ := (first_suffix.spec h).1 ids rfl
      obtain ⟨hx, hlt, _⟩ := (open_candidates.spec hcand x).mp (mem_by_end.mp hx)
      obtain ⟨hn, hs, he⟩ := mem_starting_at.mp hx
      obtain ⟨chain, hmem, htiles, hbeyond, hrising, rfl⟩ := ih hsearch
      have hlt' : layer < x.2 := hlt
      refine ⟨x.1 :: chain, List.forall_mem_cons.mpr ⟨hn, hmem⟩,
        tiles_cons.mpr ⟨hs, _, he, htiles⟩, ?_, ⟨?_, hrising⟩, rfl⟩
      · exact List.forall_mem_cons.mpr ⟨⟨_, he, hlt'⟩, hbeyond.mono hlt'.le⟩
      · intro e he'
        rw [he] at he'
        cases he'
        exact hbeyond

/-- The kept nodes are where they were, so the suffix begins where they end. -/
theorem repair_from_sound (hids : (nodes.map Node.node_id).Nodup) {ids : List String}
    (hseen : Sound seen num_layers ids) (hunmoved : Unmoved seen nodes ids) {k : Nat}
    {repaired : List String} (h : repair_from ids nodes num_layers k = .ok (some repaired)) :
    Sound nodes num_layers repaired := by
  induction k with
  | zero => cases h
  | succ k ih =>
    unfold repair_from at h
    obtain ⟨viable, hviable, h⟩ := bind_eq_ok.mp h
    cases viable with
    | false => exact ih h
    | true =>
      obtain ⟨chain, hmem, htiles, hrising, rfl⟩ := hseen
      rw [← List.map_take] at hviable h
      have htake : ∀ n ∈ chain.take k, n ∈ chain := fun n hn => List.mem_of_mem_take hn
      have hstill : Unmoved seen nodes ((chain.take k).map Node.node_id) :=
        fun n hn m hm hpath => hunmoved n hn m hm (List.map_subset _ htake hpath)
      obtain ⟨kept, hkept, hsame⟩ :=
        hstill.chain (fun n hn => hmem n (htake n hn)) (prefix_ok_present hviable)
      have hsplit : Tiles 0 (chain.take k ++ chain.drop k) num_layers := by
        rw [List.take_append_drop]
        exact htiles
      obtain ⟨mid, hfront, _⟩ := tiles_append.mp hsplit
      have hfront' := same_places_tiles hsame hfront
      rw [← same_places_ids hsame] at h
      rw [Bool.not_true, if_neg Bool.false_ne_true, split_layer_eq hids hkept hfront'] at h
      dsimp only at h
      obtain ⟨suffix, hsuffix, h⟩ := bind_eq_ok.mp h
      cases suffix with
      | none => exact ih h
      | some suffix =>
        obtain ⟨rest, hrest, htail, hbeyond, hrising', rfl⟩ := suffix_from_rising hsuffix
        have hrising'' := same_places_rising hsame (hrising.take k)
        have hfound : repaired = (kept ++ rest).map Node.node_id := by
          dsimp only at h
          rw [← List.map_append] at h
          split at h
          · cases h
          · cases h
            rfl
        refine ⟨kept ++ rest, ?_, tiles_append.mpr ⟨mid, hfront', htail⟩,
          hrising''.append hfront' hrising' hbeyond, hfound⟩
        intro n hn
        rcases List.mem_append.mp hn with hn | hn
        · exact hkept n hn
        · exact hrest n hn

/-! ## One call -/

theorem raised_ok {α : Type} {x : Except Exn α} {v : α} {router router' : RoundRobinPipelineRouting}
    (h : raised x router = .ok v router') : x = .ok v := by
  cases x with
  | ok w =>
    cases h
    rfl
  | error e => cases h

theorem raised_keeps {α : Type} {I : RoundRobinPipelineRouting → Prop} (x : Except Exn α) :
    Keeps I (raised x) := by
  cases x with
  | ok v => exact Keeps.pure v
  | error e => exact Keeps.throws e

/-- A node that is there is where it is. -/
theorem unmoved_self (hids : (nodes.map Node.node_id).Nodup) (path : List String) :
    Unmoved nodes nodes path := by
  intro n hn m hm _ hid
  rw [List.inj_on_of_nodup_map hids hm hn hid]
  exact ⟨rfl, rfl, rfl⟩

/-- A usable pipeline whose nodes are where they were is a chain of the nodes that are there. -/
theorem usable_path_sound {path : List String} (hseen : Sound seen num_layers path)
    (hunmoved : Unmoved seen nodes path) {found : List String × Latency}
    (h : usable_path nodes path = .ok (some found)) : Sound nodes num_layers found.1 := by
  obtain ⟨hpath, hpresent⟩ := usable_path_present h
  obtain ⟨chain, hmem, htiles, hrising, rfl⟩ := hseen
  obtain ⟨chain', hmem', hsame⟩ := Unmoved.chain hunmoved hmem hpresent
  exact ⟨chain', hmem', same_places_tiles hsame htiles, same_places_rising hsame hrising,
    hpath.trans (same_places_ids hsame).symm⟩

theorem select_sound (hids : (nodes.map Node.node_id).Nodup) {pipelines : List (List String)}
    (hne : pipelines ≠ [])
    (hseen : ∀ ids ∈ pipelines, Sound seen num_layers ids ∧ Unmoved seen nodes ids)
    {attempts : Nat} {router router' : RoundRobinPipelineRouting} {found : List String × Latency}
    (h : select nodes num_layers pipelines attempts router = .ok found router') :
    found.1 = [] ∨ Sound nodes num_layers found.1 := by
  induction attempts generalizing router with
  | zero =>
    cases h
    exact Or.inl rfl
  | succ attempts ih =>
    unfold select at h
    rw [get_bind] at h
    obtain ⟨hsound, hunmoved⟩ := hseen _ (getD_mem hne router.rr_cursor)
    generalize pipelines.getD (router.rr_cursor % pipelines.length) [] = ids at hsound hunmoved h
    obtain ⟨viable, router₁, hviable, h⟩ := bind_ok h
    rw [set_bind] at h
    cases viable with
    | some found' =>
      cases h
      exact Or.inr (usable_path_sound hsound hunmoved (raised_ok hviable))
    | none =>
      obtain ⟨repaired, router₂, hrepaired, h⟩ := bind_ok h
      cases repaired with
      | none => exact ih h
      | some repaired =>
        obtain ⟨usable, router₃, husable, h⟩ := bind_ok h
        cases usable with
        | none => exact ih h
        | some found' =>
          cases h
          have hrepair := repair_from_sound hids hsound hunmoved (raised_ok hrepaired)
          exact Or.inr (usable_path_sound hrepair (unmoved_self hids _) (raised_ok husable))

theorem select_keeps_cache (pipelines : List (List String)) (cache : Option (List (List String)))
    (attempts : Nat) :
    Keeps (fun router => router.pipelines = cache) (select nodes num_layers pipelines attempts) := by
  induction attempts with
  | zero => exact Keeps.pure _
  | succ attempts ih =>
    apply Triple.reads
    intro router hcache
    refine Triple.bind (Triple.mono (raised_keeps (I := fun router => router.pipelines = cache) _)
      (fun _ h => h ▸ hcache) (fun _ _ h => h) (fun _ _ h => h)) ?_
    intro viable
    refine Triple.bind (R := fun _ router => router.pipelines = cache)
      (Triple.sets (fun _ _ => hcache)) ?_
    intro _
    cases viable with
    | some found => exact Keeps.pure _
    | none =>
      refine Keeps.bind (raised_keeps _) ?_
      intro repaired
      cases repaired with
      | none => exact ih
      | some repaired =>
        refine Keeps.bind (raised_keeps _) ?_
        intro usable
        cases usable with
        | none => exact ih
        | some found => exact Keeps.pure _

/-- The cached pipelines are chains of the nodes that were seen. -/
def CachedFrom (seen : List Node) (num_layers : Int) (router : RoundRobinPipelineRouting) : Prop :=
  ∀ ids ∈ router.pipelines.getD [], Sound seen num_layers ids

/-- The nodes that the cached pipelines are made of after a call. -/
def seen_by (seen nodes : List Node) (router : RoundRobinPipelineRouting) : List Node :=
  if router.pipelines = none then nodes else seen

theorem CachedFrom.seen_by {router : RoundRobinPipelineRouting}
    (h : CachedFrom seen num_layers router) :
    CachedFrom (seen_by seen nodes router) num_layers router := by
  unfold CachedFrom RoundRobinPipelineRouting.seen_by at *
  rcases hpipelines : router.pipelines with _ | pipelines
  · simp
  · rw [hpipelines] at h
    rw [if_neg (by simp)]
    exact h

theorem ensure_pipelines_cached (nodes : List Node) {router : RoundRobinPipelineRouting}
    (hcached : CachedFrom seen num_layers router) :
    ∃ pipelines router', ensure_pipelines nodes num_layers router = .ok pipelines router' ∧
      router'.pipelines = some pipelines ∧
      (∀ ids ∈ pipelines, Sound (seen_by seen nodes router) num_layers ids) ∧
      (router.pipelines = some pipelines ∨ router.pipelines = none) := by
  unfold ensure_pipelines seen_by
  rw [get_bind]
  unfold CachedFrom at hcached
  rcases hpipelines : router.pipelines with _ | pipelines
  · rw [if_pos rfl]
    exact ⟨_, _, rfl, rfl, fun ids hids => pipeline_discovery_sound hids, Or.inr rfl⟩
  · rw [hpipelines] at hcached
    rw [if_neg (by simp)]
    exact ⟨_, _, rfl, hpipelines, hcached, Or.inl rfl⟩

/-- Whatever has moved, the cache stays one of chains of nodes that were seen. -/
theorem find_optimal_path_cached (nodes : List Node) {router : RoundRobinPipelineRouting}
    (hcached : CachedFrom seen num_layers router) :
    CachedFrom (seen_by seen nodes router) num_layers
      (stateOf (find_optimal_path nodes num_layers router)) := by
  unfold find_optimal_path
  split
  · exact hcached.seen_by
  · obtain ⟨pipelines, router', hensure, hpipelines, hsound, _⟩ :=
      ensure_pipelines_cached nodes hcached
    have hcache : ∀ router'' : RoundRobinPipelineRouting, router''.pipelines = some pipelines →
        CachedFrom (seen_by seen nodes router) num_layers router'' := by
      intro router'' h
      unfold CachedFrom
      rw [h]
      exact hsound
    rw [bind_of_ok hensure]
    split
    · exact hcache router' hpipelines
    · rw [modify_bind]
      exact hcache _ ((select_keeps_cache pipelines (some pipelines) pipelines.length).state
        hpipelines)

/-- While the nodes of the cached pipelines are where they were, a call finds a chain or none. -/
theorem find_optimal_path_sound (hids : (nodes.map Node.node_id).Nodup)
    {router router' : RoundRobinPipelineRouting} (hcached : CachedFrom seen num_layers router)
    (hunmoved : ∀ ids ∈ router.pipelines.getD [], Unmoved seen nodes ids)
    {found : List String × Latency}
    (h : find_optimal_path nodes num_layers router = .ok found router') :
    found.1 = [] ∨ Sound nodes num_layers found.1 := by
  unfold find_optimal_path at h
  split at h
  · cases h
    exact Or.inl rfl
  · obtain ⟨pipelines, router₁, hensure, _, hsound, hcase⟩ :=
      ensure_pipelines_cached nodes hcached
    rw [bind_of_ok hensure] at h
    split at h
    · cases h
      exact Or.inl rfl
    · rename_i hne
      rw [modify_bind] at h
      refine select_sound hids (by simpa using hne) (fun ids hmem => ⟨hsound ids hmem, ?_⟩) h
      unfold seen_by
      rcases hcase with hcase | hcase
      · rw [hcase] at hunmoved ⊢
        rw [if_neg (by simp)]
        exact hunmoved ids hmem
      · rw [if_pos hcase]
        exact unmoved_self hids ids

end

end RoundRobinPipelineRouting

end scheduling.request_routing
