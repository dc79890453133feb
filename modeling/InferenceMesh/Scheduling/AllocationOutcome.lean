-- How a static allocation ends. It returns exactly when every pipeline that
-- its search has built can be split: the largest node has room next to the
-- embedding, and the bisection of the water level has come close enough.
import InferenceMesh.Scheduling.PipelineOptimum
import InferenceMesh.Scheduling.Upkeep

open ordered_dict python state_exn
open scheduling.model_info scheduling.node

namespace scheduling.layer_allocation

open Allocator

/-! ## The order of the nodes -/

/-- The nodes of the allocator stand in the order of their capacities. -/
def InOrder (a : Allocator) : Prop := Descending a a.nodes

theorem sorted_desc_descending (a : Allocator) (nodes : List Ref) :
    Descending a (sorted_desc a.capacity nodes) := by
  have : Std.Total (fun r r' : Ref => a.capacity r' ≤ a.capacity r) :=
    ⟨fun r r' => le_total (a.capacity r') (a.capacity r)⟩
  have : IsTrans Ref (fun r r' => a.capacity r' ≤ a.capacity r) :=
    ⟨fun r r' r'' h h' => le_trans h' h⟩
  exact List.pairwise_insertionSort (fun r r' : Ref => a.capacity r' ≤ a.capacity r) nodes

theorem sort_nodes_in_order (a : Allocator) : InOrder a.sort_nodes := sorted_desc_descending a a.nodes

theorem InOrder.moved {a a' : Allocator} {r : Ref} (h : InOrder a) (hm : Moved r a a') :
    InOrder a' := by
  have hcap : ∀ r', a'.capacity r' = a.capacity r' := fun r' => hm.alike.layer_capacity r' false false
  unfold InOrder Descending
  simp only [hcap, hm.nodes]
  exact h

theorem in_order_kept : KeptOn (fun _ => True) InOrder where
  listed := fun _ _ _ _ => trivial
  searched := fun _ _ _ _ _ _ => trivial
  allocates := fun a r start_layer end_layer h _ => h.moved (allocate_moved a r start_layer end_layer)
  deallocates := fun a r h => h.moved (deallocate_moved a r)
  declares := fun _ _ _ _ => sort_nodes_in_order _

theorem leave_in_order (node_id : String) : Keeps InOrder (leave node_id) := by
  apply KeptOn.reads
  intro a _
  rcases a.node_id_to_node.get? node_id with _ | r
  · exact Keeps.throws _
  · exact Keeps.bind (in_order_kept.deallocate r)
      (fun _ => Keeps.modifies (fun a h => List.Pairwise.sublist List.eraseP_sublist h))

/-- The nodes stand in order after any calls. -/
theorem in_order_after_any_calls {a₀ a : Allocator} (h : InOrder a₀) (hrun : Reachable a₀ a) :
    InOrder a := by
  induction hrun with
  | start => exact h
  | @call a c _ _ ih =>
    cases c with
    | join r => exact (in_order_kept.join trivial).state ih
    | leave node_id => exact (leave_in_order node_id).state ih
    | adjust_pipeline_layers nodes assume_sorted power_type =>
      exact (in_order_kept.adjust_pipeline_layers (fun _ _ => trivial) assume_sorted
        power_type).state ih
    | global_allocation => exact in_order_kept.global_allocation.state ih
    | reallocate r start_layer end_layer =>
      exact (in_order_kept.reallocate trivial start_layer end_layer).state ih
    | allocate_left_over_nodes => exact in_order_kept.allocate_left_over_nodes.state ih

/-! ## The splits -/

section

variable {m : ModelInfo} {a₀ a : Allocator}

/-- The layers can be split over a pipeline. Water-filling needs room next to the embedding on the
largest node and a water level that is not too high. The greedy split needs that the nodes in turn
take all layers. -/
def PipelineFits (a : Allocator) (pipeline : List Ref) : Prop :=
  match splits_by a with
  | .water_filling => FirstHasRoom a pipeline ∧ LevelSettles a (stage_order a pipeline false)
  | .greedy => greedy_rest a.store pipeline 0 a.num_total_layers = 0

instance (a : Allocator) (pipeline : List Ref) : Decidable (FirstHasRoom a pipeline) :=
  inferInstanceAs (Decidable (∀ r ∈ (stage_order a pipeline false).head?,
    0 < (a.store r).get_decoder_layer_capacity true false))

instance (a : Allocator) (pipeline : List Ref) : Decidable (PipelineFits a pipeline) :=
  match h : splits_by a with
  | .water_filling =>
    decidable_of_iff (FirstHasRoom a pipeline ∧ LevelSettles a (stage_order a pipeline false))
      (by simp [PipelineFits, h])
  | .greedy =>
    decidable_of_iff (greedy_rest a.store pipeline 0 a.num_total_layers = 0)
      (by simp [PipelineFits, h])

theorem searched_pipelines_built (hnodup : a.nodes.Nodup) (horder : InOrder a)
    (hlayers : 0 < a.num_total_layers) :
    ∀ pipeline ∈ searched_pipelines a, ∃ x rest, pipeline = x :: rest ∧ Built a x rest := by
  intro pipeline hp
  unfold searched_pipelines at hp
  split at hp
  · exact greedy_pipelines_built a _ _ a.nodes horder hlayers pipeline hp
  · rcases dp_pipelines.spec a hnodup with ⟨hrun, _⟩ | ⟨_, _, pipelines, hrun, _, _, _, _, hclosed, _⟩
    · rw [hrun] at hp
      cases hp
    · rw [hrun] at hp
      exact built_of_closed horder (hclosed pipeline hp)

/-- A split returns exactly when the layers can be split over the pipeline. -/
theorem adjust_by.outcome (h₀ : BookkeepingAgrees m a₀) (horder : InOrder a₀)
    (hlayers : 0 < a₀.num_total_layers)
    (hpowers : ∀ r ∈ a₀.nodes, 0 < (a₀.store r).hardware.tflops_fp16) {pipeline : List Ref}
    (hp : pipeline ∈ searched_pipelines a₀) (hbook : BookkeepingAgrees m a) (hfrom : From a₀ a) :
    Outcome m a₀ (PipelineFits a₀ pipeline) (adjust_by (splits_by a₀) pipeline a) := by
  obtain ⟨x, rest, rfl, hbuilt⟩ := searched_pipelines_built h₀.views.nodup horder hlayers pipeline hp
  obtain ⟨hnodup, hlisted⟩ := searched_pipelines_drawn h₀.views.nodup _ hp
  have hids := h₀.views.ids_nodup hnodup hlisted
  have hready : Ready m a₀ (x :: rest) a := by
    refine ⟨hbook, hfrom, fun r hr => hbook.views.usable_of_listed ?_⟩
    rw [hfrom.nodes]
    exact hlisted r hr
  unfold PipelineFits adjust_by
  rcases splits_by a₀ with _ | _
  · exact adjust_pipeline_layers_greedy.outcome hids hready (List.cons_ne_nil _ _) hlayers
  · have hiff := hbuilt.splits_iff hlayers (fun r hr => hpowers r (hlisted r hr))
    dsimp only
    rw [← hiff]
    exact adjust_pipeline_layers.outcome hids hready (List.cons_ne_nil _ _) hlayers

/-- All splits return exactly when the layers can be split over each of the pipelines. -/
theorem split_all.outcome (h₀ : BookkeepingAgrees m a₀) (horder : InOrder a₀)
    (hlayers : 0 < a₀.num_total_layers)
    (hpowers : ∀ r ∈ a₀.nodes, 0 < (a₀.store r).hardware.tflops_fp16) (pipelines : List (List Ref))
    (hsearched : ∀ pipeline ∈ pipelines, pipeline ∈ searched_pipelines a₀)
    (hbook : BookkeepingAgrees m a) (hfrom : From a₀ a) :
    ((∀ pipeline ∈ pipelines, PipelineFits a₀ pipeline) ∧
      ∃ a', pipelines.forM (adjust_by (splits_by a₀)) a = .ok () a' ∧ BookkeepingAgrees m a' ∧
        From a₀ a' ∧ (pipelines ≠ [] → a'.Chain false 0 a₀.num_total_layers)) ∨
    (¬ (∀ pipeline ∈ pipelines, PipelineFits a₀ pipeline) ∧
      ∃ e a', pipelines.forM (adjust_by (splits_by a₀)) a = .error e a') := by
  induction pipelines generalizing a with
  | nil => exact Or.inl ⟨fun _ hp => (by cases hp), a, rfl, hbook, hfrom, fun hne => absurd rfl hne⟩
  | cons pipeline rest ih =>
    rcases adjust_by.outcome h₀ horder hlayers hpowers (hsearched pipeline List.mem_cons_self) hbook
      hfrom with ⟨hfits, a₁, hrun, hbook₁, hfrom₁, hchain⟩ | ⟨hno, e, a', hrun⟩
    · rw [forM_cons_of_ok hrun]
      rcases ih (fun p hp => hsearched p (List.mem_cons_of_mem _ hp)) hbook₁ hfrom₁ with
        ⟨hall, a', hrun', hbook', hfrom', hchain'⟩ | ⟨hno, herror⟩
      · refine Or.inl ⟨?_, a', hrun', hbook', hfrom', ?_⟩
        · intro p hp
          rcases List.mem_cons.mp hp with rfl | hp
          · exact hfits
          · exact hall p hp
        · intro _
          rcases rest with _ | ⟨p, rest⟩
          · cases hrun'
            exact hchain
          · exact hchain' (List.cons_ne_nil _ _)
      · exact Or.inr ⟨fun hall => hno (fun p hp => hall p (List.mem_cons_of_mem _ hp)), herror⟩
    · right
      rw [forM_cons_of_error hrun]
      exact ⟨fun hall => hno (hall pipeline List.mem_cons_self), e, a', rfl⟩

/-! ## The allocation -/

/-- The call returns, and with `True` only if there is a full pipeline. -/
def Settled (x : EStateM.Result Exn Allocator Bool) : Prop :=
  ∃ full a', x = .ok full a' ∧ (full = true → a'.has_full_pipeline false = true)

/-- What a static allocation comes to: it returns whether its search has built a pipeline, or it
raises as the layers cannot be split over one of them. -/
def Decided (a : Allocator) (x : EStateM.Result Exn Allocator Bool) : Prop :=
  ((∀ pipeline ∈ searched_pipelines a, PipelineFits a pipeline) ∧
    ∃ full a', x = .ok full a' ∧ (full = true ↔ searched_pipelines a ≠ []) ∧
      (full = true → a'.has_full_pipeline false = true)) ∨
  (¬ (∀ pipeline ∈ searched_pipelines a, PipelineFits a pipeline) ∧ ∃ e a', x = .error e a')

theorem Decided.settled_iff {x : EStateM.Result Exn Allocator Bool} (h : Decided a x) :
    Settled x ↔ ∀ pipeline ∈ searched_pipelines a, PipelineFits a pipeline := by
  rcases h with ⟨hfits, full, a', hok, _, hfull⟩ | ⟨hno, e, a', herror⟩
  · exact iff_of_true ⟨full, a', hok, hfull⟩ hfits
  · refine iff_of_false ?_ hno
    rintro ⟨full, a'', hok, _⟩
    rw [herror] at hok
    cases hok

/-- Without pipelines the call has nothing to split. -/
theorem decided_without_pipelines {x : EStateM.Result Exn Allocator Bool} {a' : Allocator}
    (hnone : searched_pipelines a = []) (hrun : x = .ok false a') : Decided a x := by
  refine Or.inl ⟨?_, false, a', hrun, ?_, fun hfalse => (by cases hfalse)⟩
  · rw [hnone]
    intro p hp
    cases hp
  · rw [hnone]
    simp

/-- Without layers there is nothing to search for. -/
theorem searched_pipelines_without_layers (h : a.num_total_layers ≤ 0) :
    searched_pipelines a = [] ∧ ∀ look_ahead fuel nodes,
      greedy_pipelines a look_ahead fuel nodes = [] := by
  have hgreedy : ∀ look_ahead fuel nodes, greedy_pipelines a look_ahead fuel nodes = [] := by
    intro look_ahead fuel nodes
    rcases fuel with _ | fuel
    · rfl
    · have hgrow : grow_pipeline a look_ahead nodes.length [] a.num_total_layers
          (nodes.map a.capacity).sum nodes = ([], a.num_total_layers, nodes) := by
        rcases nodes.length with _ | n
        · rfl
        · unfold grow_pipeline
          rw [if_neg (not_lt.mpr h)]
      unfold greedy_pipelines
      dsimp only
      rw [hgrow]
      split
      · rfl
      · simp
  refine ⟨?_, hgreedy⟩
  unfold searched_pipelines
  split
  · exact hgreedy _ _ _
  · have hnone : dp_pipelines a = .ok none := by
      unfold dp_pipelines
      exact if_pos (Or.inl h)
    rw [hnone]

theorem full_of_chain (hbook : BookkeepingAgrees m a) (hfrom : From a₀ a)
    (hlayers : 0 < a₀.num_total_layers) (hchain : a.Chain false 0 a₀.num_total_layers) :
    a.has_full_pipeline false = true := by
  rw [has_full_pipeline_iff hbook.views, hfrom.num_total_layers]
  exact ⟨hlayers, hchain⟩

/-- What is left over joins a full pipeline and leaves it full. -/
theorem left_over_keeps_full (hbook : BookkeepingAgrees m a)
    (hfull : a.has_full_pipeline false = true) :
    ∃ a', allocate_left_over_nodes a = .ok () a' ∧ a'.has_full_pipeline false = true := by
  obtain ⟨a', hrun, hbook', hextends⟩ := allocate_left_over_nodes_extends hbook
  refine ⟨a', hrun, ?_⟩
  obtain ⟨hlayers, hchain⟩ := (has_full_pipeline_iff hbook.views).mp hfull
  have hsame : a'.num_total_layers = a.num_total_layers := by
    unfold num_total_layers
    rw [hbook'.model_info, hbook.model_info]
  rw [has_full_pipeline_iff hbook'.views, hsame]
  exact ⟨hlayers, hextends.chain hchain⟩

theorem greedy_global_allocation.outcome (h : BookkeepingAgrees m a) (horder : InOrder a)
    (hpowers : ∀ r ∈ a.nodes, 0 < (a.store r).hardware.tflops_fp16) {look_ahead : Bool}
    {strategy : RebalanceStrategy} (hstrategy : a.strategy = .greedy look_ahead strategy) :
    Decided a (greedy_global_allocation look_ahead strategy a) := by
  have hsearch : greedy_pipelines a look_ahead a.nodes.length a.nodes = searched_pipelines a := by
    simp [searched_pipelines, hstrategy]
  have hsplits : splits_by a = strategy := by simp [splits_by, hstrategy]
  unfold greedy_global_allocation
  rw [get_bind, hsearch]
  by_cases hnone : searched_pipelines a = []
  · apply decided_without_pipelines hnone
    rw [hnone]
    rfl
  · have hlayers : 0 < a.num_total_layers := by
      by_contra hno
      exact hnone (searched_pipelines_without_layers (not_lt.mp hno)).1
    have hall := split_all.outcome h horder hlayers hpowers (searched_pipelines a) (fun _ hp => hp) h
      (From.refl a)
    rw [hsplits] at hall
    rcases hall with ⟨hfits, a₁, hrun, hbook, hfrom, hchain⟩ | ⟨hno, e, a₁, hrun⟩
    · refine Or.inl ⟨hfits, true, ?_⟩
      have hfull := full_of_chain hbook hfrom hlayers (hchain hnone)
      have hguard : ¬ ((searched_pipelines a).isEmpty || !a₁.has_full_pipeline false) = true := by
        simp [hnone, hfull]
      rw [bind_of_ok hrun, get_bind, if_neg hguard]
      by_cases hleft : a₁.assign_left_over_nodes = true
      · obtain ⟨a₂, hrun₂, hfull₂⟩ := left_over_keeps_full hbook hfull
        rw [if_pos hleft, bind_of_ok hrun₂]
        exact ⟨a₂, rfl, iff_of_true rfl hnone, fun _ => hfull₂⟩
      · rw [if_neg hleft]
        exact ⟨a₁, rfl, iff_of_true rfl hnone, fun _ => hfull⟩
    · exact Or.inr ⟨hno, e, a₁, bind_of_error hrun⟩

theorem dp_global_allocation.outcome (h : BookkeepingAgrees m a) (horder : InOrder a)
    (hpowers : ∀ r ∈ a.nodes, 0 < (a.store r).hardware.tflops_fp16) (hstrategy : a.strategy = .dp) :
    Decided a (dp_global_allocation a) := by
  have hsplits : splits_by a = .water_filling := by simp [splits_by, hstrategy]
  unfold dp_global_allocation
  rw [get_bind]
  rcases dp_pipelines.spec a h.views.nodup with
    ⟨hnone, _⟩ | ⟨k, _, pipelines, hsome, hk, _, _, hlen, _⟩
  · have hsearch : searched_pipelines a = [] := by simp [searched_pipelines, hstrategy, hnone]
    apply decided_without_pipelines hsearch
    rw [hnone]
    rfl
  · have hsearch : searched_pipelines a = pipelines := by
      simp [searched_pipelines, hstrategy, hsome]
    have hlayers : 0 < a.num_total_layers := by
      by_contra hno
      unfold tried_counts at hk
      rw [if_pos (not_lt.mp hno)] at hk
      cases hk
    have hne : pipelines ≠ [] := by
      rintro rfl
      unfold tried_counts at hk
      rw [if_neg (not_le.mpr hlayers)] at hk
      have hge := (List.mem_range'_1.mp hk).1
      rw [List.length_nil] at hlen
      omega
    have hall := split_all.outcome h horder hlayers hpowers (searched_pipelines a) (fun _ hp => hp) h
      (From.refl a)
    unfold Decided
    rw [hsplits, hsearch] at hall
    rw [hsome, hsearch]
    dsimp only
    rcases hall with ⟨hfits, a₁, hrun, hbook, hfrom, hchain⟩ | ⟨hno, e, a₁, hrun⟩
    · refine Or.inl ⟨hfits, true, ?_⟩
      have hfull := full_of_chain hbook hfrom hlayers (hchain hne)
      rw [bind_of_ok hrun]
      by_cases hleft : a.assign_left_over_nodes = true
      · obtain ⟨a₂, hrun₂, hfull₂⟩ := left_over_keeps_full hbook hfull
        rw [if_pos hleft, bind_of_ok hrun₂, get_bind, hfull₂]
        exact ⟨a₂, rfl, iff_of_true rfl hne, fun _ => hfull₂⟩
      · rw [if_neg hleft]
        refine ⟨a₁, ?_, iff_of_true rfl hne, fun _ => hfull⟩
        rw [← hfull]
        rfl
    · exact Or.inr ⟨hno, e, a₁, bind_of_error hrun⟩

theorem global_allocation.outcome (h : BookkeepingAgrees m a) (horder : InOrder a)
    (hpowers : ∀ r ∈ a.nodes, 0 < (a.store r).hardware.tflops_fp16) :
    Decided a (global_allocation a) := by
  unfold global_allocation
  rw [get_bind]
  rcases hstrategy : a.strategy with ⟨look_ahead, strategy⟩ | _
  · exact greedy_global_allocation.outcome h horder hpowers hstrategy
  · exact dp_global_allocation.outcome h horder hpowers hstrategy

end

section

variable {store : Ref → Node} {m : ModelInfo} {strategy : Strategy} {nodes : List Ref}
  {rebalance_threshold : WithTop Rat} {iterations : Nat} {left_over : Bool}

theorem init_in_order : InOrder
    (Allocator.init store m strategy nodes rebalance_threshold iterations left_over) :=
  sorted_desc_descending
    (Allocator.init store m strategy nodes rebalance_threshold iterations left_over) nodes

/-- After any calls a static allocation returns, and with `True` only if there is a full pipeline,
exactly when the layers can be split over every pipeline that its search has built. -/
theorem a_static_allocation_returns_when_its_pipelines_fit
    (hids : (nodes.map (fun r => (store r).node_id)).Nodup)
    (hidle : ∀ r ∈ nodes, Idle (store r)) {a : Allocator}
    (hrun : Reachable
      (Allocator.init store m strategy nodes rebalance_threshold iterations left_over) a)
    (hpowers : ∀ r ∈ a.nodes, 0 < (a.store r).hardware.tflops_fp16) :
    Settled (global_allocation a) ↔ ∀ pipeline ∈ searched_pipelines a, PipelineFits a pipeline := by
  have hbook := bookkeeping_agrees_after_any_calls hids hidle hrun
  have horder := in_order_after_any_calls init_in_order hrun
  exact (global_allocation.outcome hbook horder hpowers).settled_iff

theorem mixed_pool_settles_when_its_pipelines_fit :
    Settled (global_allocation
        (pool (mixed_store (build_model_info 6)) (build_model_info 6) 3)) ↔
      ∀ pipeline ∈ searched_pipelines
          (pool (mixed_store (build_model_info 6)) (build_model_info 6) 3),
        PipelineFits (pool (mixed_store (build_model_info 6)) (build_model_info 6) 3) pipeline :=
  a_static_allocation_returns_when_its_pipelines_fit (by decide) (by decide) .start
    (by decide +kernel)

/-- Three nodes that hold one layer each, two of them without the embedding. -/
def narrow_store (r : Ref) : Node where
  node_id := if r = 0 then "a" else if r = 1 then "b" else "c"
  hardware := ⟨"", 1, (312 : Nat), "", (if r = 2 then 10 else 7 : Nat), (2039 : Nat), "cuda"⟩
  model_info := build_model_info 2

def narrow_pool (strategy : Strategy) : Allocator :=
  .init narrow_store (build_model_info 2) strategy [0, 1, 2] (1 / 4 : Rat) 40 true

/-- The search closes a pipeline with the third node, and the split finds no room for a layer on
the first one. -/
theorem a_static_allocation_of_narrow_nodes_raises :
    (∀ r ∈ [0, 1, 2], 0 < (narrow_store r).hardware.tflops_fp16 ∧
        0 < (narrow_store r).hardware.memory_gb ∧
          0 ≤ (narrow_store r).get_decoder_layer_capacity false false) ∧
      ¬ Settled (global_allocation (narrow_pool .dp)) ∧
        ¬ Settled (global_allocation (narrow_pool (.greedy true .water_filling))) ∧
          ¬ Settled (global_allocation (narrow_pool (.greedy true .greedy))) := by
  have hraises : ∀ x : EStateM.Result Exn Allocator Bool, returned x = false → ¬ Settled x := by
    rintro x hx ⟨full, a', rfl, _⟩
    cases hx
  refine ⟨by decide +kernel, hraises _ (by decide +kernel), hraises _ (by decide +kernel),
    hraises _ (by decide +kernel)⟩

/-! ## Completeness -/

/-- Some nodes close a pipeline in the order of the search: the greedy search takes the first nodes
of its order, the other one may leave nodes out. -/
def ClosesInSearchOrder (a : Allocator) : Prop :=
  match a.strategy with
  | .greedy look_ahead _ =>
    ∃ nodes, nodes <+: taking_order a look_ahead a.nodes ∧ ClosesGreedily a nodes
  | .dp => ∃ nodes, nodes.Sublist a.nodes ∧ ClosesInOrder a nodes

theorem searched_pipelines_ne_nil_iff {a : Allocator} (hnodup : a.nodes.Nodup)
    (hlayers : 0 < a.num_total_layers) (hnonneg : ∀ r ∈ a.nodes, 0 ≤ a.capacity r) :
    searched_pipelines a ≠ [] ↔ ClosesInSearchOrder a := by
  unfold searched_pipelines ClosesInSearchOrder
  rcases a.strategy with ⟨look_ahead, _⟩ | _
  · exact greedy_pipelines_ne_nil_iff a look_ahead hlayers hnonneg
  · dsimp only
    rw [← dp_finds_iff hnodup hlayers hnonneg]
    rcases dp_pipelines a with e | found
    · simp
    · rcases found with _ | pipelines
      · simp
      · simp

/-- The call returns `True`, and there is a full pipeline. -/
def AllocatesFully (x : EStateM.Result Exn Allocator Bool) : Prop :=
  ∃ a', x = .ok true a' ∧ a'.has_full_pipeline false = true

instance : DecidablePred AllocatesFully
  | .ok true a' => decidable_of_iff (a'.has_full_pipeline false = true) (by simp [AllocatesFully])
  | .ok false _ => isFalse (by simp [AllocatesFully])
  | .error _ _ => isFalse (by simp [AllocatesFully])

/-- A model without experts. -/
def dense_model_info (num_layers : Nat) : ModelInfo :=
  { build_model_info num_layers with num_local_experts := none, num_experts_per_tok := none }

/-- Two nodes of one size, and a small one without room for the embedding. -/
def uneven_store (r : Ref) : Node where
  node_id := if r = 0 then "a" else if r = 1 then "b" else "c"
  hardware := ⟨"", 1, (312 : Nat), "", (if r = 2 then 2 else 6 : Nat), (2039 : Nat), "cuda"⟩
  model_info := dense_model_info 90

def uneven_pool (strategy : Strategy) : Allocator :=
  .init uneven_store (dense_model_info 90) strategy [0, 1, 2] (1 / 4 : Rat) 40 true

end

end scheduling.layer_allocation
