-- What an allocation and a deallocation of one node keep, every operation on
-- the nodes that are there keeps. This is for invariants that do not look at
-- the ranges: which ids there are, the order of the nodes, the activity flags.
import InferenceMesh.Scheduling.PipelineSearch

open ordered_dict python state_exn
open scheduling.model_info scheduling.node

namespace scheduling.layer_allocation

open Allocator

/-- What makes `I` an invariant, when only nodes with `S` are given ranges. -/
structure KeptOn (S : Ref → Prop) (I : Allocator → Prop) : Prop where
  listed : ∀ a, I a → ∀ r ∈ a.nodes, S r
  searched : ∀ a, I a → ∀ pipeline ∈ searched_pipelines a, ∀ r ∈ pipeline, S r
  allocates : ∀ a r start_layer end_layer, I a → S r →
    I (stateOf (allocate r start_layer end_layer a))
  deallocates : ∀ a r, I a → I (stateOf (deallocate r a))
  declares : ∀ a r, I a → S r → I (stateOf (declare r a))

namespace KeptOn

variable {S : Ref → Prop} {I : Allocator → Prop}

/-- The invariant holds of the state that a program looks at first. -/
theorem reads {α : Type} {f : Allocator → AllocM α} (h : ∀ a, I a → Keeps I (f a)) :
    Keeps I (get >>= f) := by
  apply Triple.reads
  intro a hI
  exact Triple.mono (h a hI) (fun _ hs => hs ▸ hI) (fun _ _ h => h) (fun _ _ h => h)

section

variable (K : KeptOn S I)
include K

theorem allocate {r : Ref} (hr : S r) (start_layer end_layer : Int) :
    Keeps I (layer_allocation.allocate r start_layer end_layer) :=
  Triple.of_state (fun a h => K.allocates a r start_layer end_layer h hr)

theorem deallocate (r : Ref) : Keeps I (layer_allocation.deallocate r) :=
  Triple.of_state (fun a h => K.deallocates a r h)

theorem reallocate {r : Ref} (hr : S r) (start_layer end_layer : Int) :
    Keeps I (layer_allocation.reallocate r start_layer end_layer) :=
  Keeps.bind (K.deallocate r) (fun _ => K.allocate hr start_layer end_layer)

theorem declare {r : Ref} (hr : S r) : Keeps I (layer_allocation.declare r) :=
  Triple.of_state (fun a h => K.declares a r h hr)

theorem join {r : Ref} (hr : S r) : Keeps I (layer_allocation.join r) := by
  apply Keeps.bind (K.declare hr)
  intro _
  apply reads
  intro a _
  rcases a.get_lightest_layer with _ | l
  · exact Keeps.throws _
  · exact K.allocate hr _ _

theorem allocate_left_over_nodes : Keeps I layer_allocation.allocate_left_over_nodes := by
  apply reads
  intro a h
  apply Keeps.forEach
  intro r hr
  apply reads
  intro b _
  have hS : S r := K.listed a h r ((sorted_desc_perm _ _).mem_iff.mp hr)
  exact Keeps.cond (fun _ => Keeps.pure _)
    (fun _ => Keeps.catches (K.join hS) (fun _ => Keeps.pure _))

theorem deallocate_all (nodes : List Ref) : Keeps I (layer_allocation.deallocate_all nodes) := by
  apply Keeps.forEach
  intro r _
  apply reads
  intro a _
  exact Keeps.cond (fun _ => K.deallocate r) (fun _ => Keeps.pure _)

theorem apply_stages (stages : List (Ref × Int)) (start_layer : Int)
    (hstages : ∀ x ∈ stages, S x.1) : Keeps I (layer_allocation.apply_stages stages start_layer) := by
  induction stages generalizing start_layer with
  | nil => exact Keeps.pure _
  | cons x rest ih =>
    unfold layer_allocation.apply_stages
    have hrest : ∀ y ∈ rest, S y.1 := fun y hy => hstages y (List.mem_cons_of_mem _ hy)
    apply Keeps.cond
    · exact fun _ => ih _ hrest
    · exact fun _ => Keeps.bind (K.allocate (hstages x List.mem_cons_self) _ _)
        (fun _ => ih _ hrest)

theorem split_layers {nodes : List Ref} (hnodes : ∀ r ∈ nodes, S r) (power_type : PowerType) :
    Keeps I (layer_allocation.split_layers nodes power_type) := by
  apply reads
  intro a _
  dsimp only
  rcases full_stage nodes (stage_capacities a.store nodes) with _ | ⟨r, cap⟩
  · rcases stage_layer_counts (stage_capacities a.store nodes)
        (nodes.map (fun r => compute_power power_type (a.store r))) a.num_total_layers
        a.water_filling_max_iterations with e | counts
    · exact Keeps.throws _
    · have hstages : ∀ x ∈ nodes.zip counts, S x.1 := fun x hx => hnodes x.1 (List.of_mem_zip hx).1
      apply Keeps.bind (K.apply_stages _ _ hstages)
      intro start_layer
      exact Keeps.cond (fun _ => Keeps.throws _) (fun _ => Keeps.pure _)
  · exact Keeps.throws _

theorem adjust_pipeline_layers {pipeline_nodes : List Ref} (hnodes : ∀ r ∈ pipeline_nodes, S r)
    (assume_sorted : Bool) (power_type : PowerType) :
    Keeps I (layer_allocation.adjust_pipeline_layers pipeline_nodes assume_sorted power_type) := by
  apply reads
  intro a _
  apply Keeps.cond (fun _ => Keeps.throws _)
  intro _
  have horder : ∀ r ∈ stage_order a pipeline_nodes assume_sorted, S r := fun r hr =>
    hnodes r ((stage_order_perm a pipeline_nodes assume_sorted).mem_iff.mp hr)
  exact Keeps.bind (K.deallocate_all _) (fun _ => K.split_layers horder power_type)

theorem apply_greedy (nodes : List Ref) (start_layer remaining_layers : Int)
    (hnodes : ∀ r ∈ nodes, S r) :
    Keeps I (layer_allocation.apply_greedy nodes start_layer remaining_layers) := by
  induction nodes generalizing start_layer remaining_layers with
  | nil => exact Keeps.pure _
  | cons r rest ih =>
    have hrest : ∀ y ∈ rest, S y := fun y hy => hnodes y (List.mem_cons_of_mem _ hy)
    unfold layer_allocation.apply_greedy
    apply reads
    intro a _
    apply Keeps.cond (fun _ => ih _ _ hrest)
    intro _
    apply Keeps.bind (K.allocate (hnodes r List.mem_cons_self) _ _)
    intro _
    exact Keeps.cond (fun _ => Keeps.pure _) (fun _ => ih _ _ hrest)

theorem adjust_pipeline_layers_greedy {pipeline_nodes : List Ref}
    (hnodes : ∀ r ∈ pipeline_nodes, S r) :
    Keeps I (layer_allocation.adjust_pipeline_layers_greedy pipeline_nodes) := by
  apply reads
  intro a _
  apply Keeps.cond (fun _ => Keeps.throws _)
  intro _
  apply Keeps.bind (K.deallocate_all _)
  intro _
  apply Keeps.bind (K.apply_greedy _ _ _ hnodes)
  intro remaining_layers
  exact Keeps.cond (fun _ => Keeps.throws _) (fun _ => Keeps.pure _)

theorem adjust_by (strategy : RebalanceStrategy) {pipeline_nodes : List Ref}
    (hnodes : ∀ r ∈ pipeline_nodes, S r) :
    Keeps I (layer_allocation.adjust_by strategy pipeline_nodes) := by
  cases strategy with
  | water_filling => exact K.adjust_pipeline_layers hnodes false .flops
  | greedy => exact K.adjust_pipeline_layers_greedy hnodes

/-- A static allocation keeps the invariant on either exit. -/
theorem global_allocation : Keeps I layer_allocation.global_allocation := by
  apply Triple.of_state
  intro a h
  have hsearched := K.searched a h
  unfold searched_pipelines at hsearched
  unfold layer_allocation.global_allocation
  rw [get_bind]
  rcases hstrategy : a.strategy with ⟨look_ahead, strategy⟩ | _
  · rw [hstrategy] at hsearched
    have hrun : Keeps I (do
        (greedy_pipelines a look_ahead a.nodes.length a.nodes).forM
          (layer_allocation.adjust_by strategy)
        let b ← get
        if (greedy_pipelines a look_ahead a.nodes.length a.nodes).isEmpty ||
            !b.has_full_pipeline false then return false
        else if b.assign_left_over_nodes then
          layer_allocation.allocate_left_over_nodes
          return true
        else return true : AllocM Bool) := by
      apply Keeps.bind (Keeps.forEach _ (fun p hp => K.adjust_by strategy (hsearched p hp)))
      intro _
      apply reads
      intro b _
      apply Keeps.cond (fun _ => Keeps.pure _)
      intro _
      exact Keeps.cond (fun _ => Keeps.bind K.allocate_left_over_nodes (fun _ => Keeps.pure _))
        (fun _ => Keeps.pure _)
    exact hrun.state h
  · rw [hstrategy] at hsearched
    dsimp only at hsearched ⊢
    unfold dp_global_allocation
    rw [get_bind]
    rcases hfound : dp_pipelines a with e | ⟨_ | pipelines⟩
    · exact h
    · exact h
    · rw [hfound] at hsearched
      have hlast : Keeps I (do
          let a ← get
          return a.has_full_pipeline false : AllocM Bool) :=
        Keeps.bind Keeps.gets (fun _ => Keeps.pure _)
      have hrun : Keeps I (do
          pipelines.forM (layer_allocation.adjust_by .water_filling)
          if a.assign_left_over_nodes then layer_allocation.allocate_left_over_nodes else pure ()
          let a ← get
          return a.has_full_pipeline false : AllocM Bool) := by
        apply Keeps.bind (Keeps.forEach _ (fun p hp => K.adjust_by _ (hsearched p hp)))
        intro _
        exact Keeps.cond (fun _ => Keeps.bind K.allocate_left_over_nodes (fun _ => hlast))
          (fun _ => hlast)
      exact hrun.state h

end

end KeptOn

end scheduling.layer_allocation
