-- A layer hosts only nodes whose range has the layer. This also holds after an
-- allocation that has raised half-way, and for any range that is given out.
import InferenceMesh.Scheduling.FullPipeline

open ordered_dict python state_exn
open scheduling.model_info scheduling.node

namespace scheduling.layer_allocation

open Allocator

/-- The nodes that a layer hosts have the layer in their ranges, and the ends of the pipelines
are those of the ranges. -/
structure Hosted (a : Allocator) : Prop where
  hosts : ∀ (l : Nat) x, a.layer_to_load[l]? = some x → ∀ id ∈ x.hosting_nodes,
    ∃ start_layer end_layer, a.node_allocation.get? id = some (start_layer, end_layer) ∧
      start_layer ≤ l ∧ (l : Int) < end_layer
  ends : EndsAgree a

/-- The views agree, and the layers host what they say. -/
structure Placed (a : Allocator) : Prop where
  views : Views a
  hosted : Hosted a

theorem placed_of_bookkeeping {m : ModelInfo} {a : Allocator} (h : BookkeepingAgrees m a) :
    Placed a := by
  refine ⟨h.views, ?_, h.ends⟩
  intro l x hx id hid
  exact (h.loads.hosts l x hx id).mp hid

theorem record_hosted {a : Allocator} {r : Ref} {start_layer end_layer : Int}
    {done : List Int} {loads : List LayerLoad} (h : Placed a) (hr : Free a r)
    (hsub : ∀ l ∈ done, l ∈ layer_range start_layer end_layer)
    (hchanged : Changed (host ((a.record_allocation r start_layer end_layer).store r)) done
      a.layer_to_load loads) :
    Hosted { a.record_allocation r start_layer end_layer with layer_to_load := loads } := by
  have hget := record_get_allocation a r start_layer end_layer
  refine ⟨?_, endsAgree_record start_layer end_layer loads h.views h.hosted.ends hr⟩
  intro l x hx id hid
  show ∃ s e, (a.record_allocation r start_layer end_layer).node_allocation.get? id = some (s, e) ∧ _
  rw [hget]
  have hx' : loads[l]? = some x := hx
  rw [hchanged l] at hx'
  obtain ⟨y, hy, rfl⟩ := Option.map_eq_some_iff.mp hx'
  by_cases hl : (l : Int) ∈ done
  · rw [if_pos hl] at hid
    by_cases hself : a.node_id r = id
    · rw [if_pos hself]
      obtain ⟨h1, h2⟩ := mem_layer_range.mp (hsub _ hl)
      exact ⟨start_layer, end_layer, rfl, h1, h2⟩
    · rw [if_neg hself]
      have hname : ((a.record_allocation r start_layer end_layer).store r).node_id = a.node_id r := by
        simp [record_allocation, Node.set_layer_allocation, Allocator.node_id]
      have hid' : id ∈ insert (a.node_id r) y.hosting_nodes := by
        rw [← hname]
        exact hid
      rcases Finset.mem_insert.mp hid' with heq | hmem
      · exact absurd heq.symm hself
      · exact h.hosted.hosts l y hy id hmem
  · rw [if_neg hl] at hid
    have hother := h.hosted.hosts l y hy id hid
    have hself : a.node_id r ≠ id := by
      rintro rfl
      obtain ⟨s, e, hse, _⟩ := hother
      rw [h.views.unallocated_of_free hr] at hse
      cases hse
    rw [if_neg hself]
    exact hother

theorem allocate_placed {a : Allocator} {r : Ref} (h : Placed a) (hr : Free a r)
    (start_layer end_layer : Int) : Placed (stateOf (allocate r start_layer end_layer a)) := by
  refine ⟨allocate_views h.views hr start_layer end_layer, ?_⟩
  by_cases hlt : start_layer < end_layer
  · by_cases hfits : a.fits start_layer end_layer
    · obtain ⟨loads, hrun, hchanged⟩ := allocate_ok (r := r) hlt hfits
      have hhosted := record_hosted h hr (fun _ hl => hl) hchanged
      rw [hrun]
      exact ⟨hhosted.hosts, hhosted.ends.embedding_nodup, hhosted.ends.embedding,
        hhosted.ends.lm_head_nodup, hhosted.ends.lm_head⟩
    · obtain ⟨e, loads, hrun, hchanged⟩ := allocate_outside (r := r) hlt hfits
      rw [hrun]
      exact record_hosted h hr (fun _ hl => (List.takeWhile_sublist _).subset hl) hchanged
  · obtain ⟨e, hrun⟩ := allocate_empty (a := a) (r := r) (not_lt.mp hlt)
    rw [hrun]
    exact h.hosted

theorem deallocate_placed {a : Allocator} {r : Ref} (h : Placed a) (hr : Usable a r) :
    Placed (stateOf (deallocate r a)) := by
  refine ⟨deallocate_views h.views hr, ?_⟩
  rcases deallocate_cases a r with ⟨_, hrun⟩ | ⟨s, e, loads, hs, he, hrun, hchanged⟩
  · rw [hrun]
    exact h.hosted
  · have hreg : a.node_id_to_node.get? (a.node_id r) = some r := by
      rcases hr with hreg | ⟨_, hidle⟩
      · exact hreg
      · rw [hidle.1] at hs
        cases hs
    have halloc := h.views.allocation_of_range hreg hs he
    rw [hrun]
    refine ⟨?_, endsAgree_forget r loads h.hosted.ends⟩
    intro l x hx id hid
    have hx' : loads[l]? = some x := hx
    rw [hchanged l] at hx'
    obtain ⟨y, hy, rfl⟩ := Option.map_eq_some_iff.mp hx'
    have hold : id ∈ y.hosting_nodes := by
      split at hid
      · unfold unhost at hid
        split at hid
        · exact Finset.mem_of_mem_erase hid
        · exact hid
      · exact hid
    obtain ⟨s', e', hse, h1, h2⟩ := h.hosted.hosts l y hy id hold
    -- The node itself is taken out of each layer of its range.
    have hself : a.node_id r ≠ id := by
      rintro rfl
      rw [halloc] at hse
      cases hse
      rw [if_pos (mem_layer_range.mpr ⟨h1, h2⟩)] at hid
      have hold' : (a.store r).node_id ∈ y.hosting_nodes := hold
      unfold unhost at hid
      rw [if_pos hold'] at hid
      exact Finset.notMem_erase _ _ hid
    refine ⟨s', e', ?_, h1, h2⟩
    simp only [stateOf]
    rw [forget_get_allocation, if_neg hself]
    exact hse

/-- The placement is kept, whatever ranges are given out. -/
theorem placed_kept : Kept Placed (fun _ _ _ => True) where
  views := fun _ h => h.views
  allocates := fun _ _ start_layer end_layer h hr _ => allocate_placed h hr start_layer end_layer
  deallocates := fun _ _ h hr => deallocate_placed h hr
  sorts := fun _ h => ⟨h.views.sort_nodes, ⟨h.hosted.hosts, h.hosted.ends.embedding_nodup,
    h.hosted.ends.embedding, h.hosted.ends.lm_head_nodup, h.hosted.ends.lm_head⟩⟩
  registers := fun _ _ h hnew hidle => ⟨h.views.register hnew hidle, ⟨h.hosted.hosts,
    h.hosted.ends.embedding_nodup, h.hosted.ends.embedding, h.hosted.ends.lm_head_nodup,
    h.hosted.ends.lm_head⟩⟩
  unregisters := fun _ _ _ h hget hidle => ⟨h.views.unregister hget hidle, ⟨h.hosted.hosts,
    h.hosted.ends.embedding_nodup, h.hosted.ends.embedding, h.hosted.ends.lm_head_nodup,
    h.hosted.ends.lm_head⟩⟩
  joins := fun _ _ _ _ _ => trivial
  shares := fun _ _ _ _ _ _ _ => trivial

/-! ## A node that joins -/

/-- What the layers host does not depend on the objects or on the order of the nodes. -/
theorem Hosted.congr {a a' : Allocator} (h : Hosted a) (hloads : a'.layer_to_load = a.layer_to_load)
    (hallocation : a'.node_allocation = a.node_allocation)
    (hembedding : a'.embedding_node_ids = a.embedding_node_ids)
    (hlm_head : a'.lm_head_node_ids = a.lm_head_node_ids)
    (hlayers : a'.num_total_layers = a.num_total_layers) : Hosted a' := by
  refine ⟨?_, ?_, ?_, ?_, ?_⟩
  · rw [hloads, hallocation]
    exact h.hosts
  · rw [hembedding]
    exact h.ends.embedding_nodup
  · rw [hembedding, hallocation]
    exact h.ends.embedding
  · rw [hlm_head]
    exact h.ends.lm_head_nodup
  · rw [hlm_head, hallocation, hlayers]
    exact h.ends.lm_head

/-- The views agree, and what there was is still there. -/
structure Gains (a₀ a : Allocator) : Prop where
  views : Views a
  ranges : Extends a₀ a
  layers : a.num_total_layers = a₀.num_total_layers
  hosted : Hosted a₀ → Hosted a

theorem Gains.full_pipeline {a₀ a : Allocator} (h : Gains a₀ a) (hviews : Views a₀)
    (hfull : a₀.has_full_pipeline false = true) : a.has_full_pipeline false = true := by
  obtain ⟨hlayers, hchain⟩ := (has_full_pipeline_iff hviews).mp hfull
  rw [has_full_pipeline_iff h.views, h.layers]
  exact ⟨hlayers, h.ranges.chain hchain⟩

theorem Gains.sort_nodes {a₀ a : Allocator} (h : Gains a₀ a) : Gains a₀ a.sort_nodes :=
  ⟨h.views.sort_nodes, h.ranges, h.layers, fun ha => (h.hosted ha).congr rfl rfl rfl rfl rfl⟩

/-- A free node gets a range in addition, wherever that is. -/
theorem Gains.allocate {a₀ a : Allocator} {r : Ref} (h : Gains a₀ a) (hfree : Free a r)
    (start_layer end_layer : Int) :
    Gains a₀ (stateOf (allocate r start_layer end_layer a)) := by
  have hmodel := (allocate_moved a r start_layer end_layer).alike.model_info
  refine ⟨allocate_views h.views hfree start_layer end_layer,
    h.ranges.trans (allocate_extends h.views hfree start_layer end_layer), ?_, ?_⟩
  · rw [← h.layers]
    unfold num_total_layers
    rw [hmodel]
  · exact fun ha => (allocate_placed ⟨h.views, h.hosted ha⟩ hfree start_layer end_layer).hosted

/-! ## A node that has left -/

/-- No trace of the id is left: no node, no entry and no layer has it. -/
structure Evicted (a : Allocator) (node_id : String) : Prop where
  nodes : ∀ r ∈ a.nodes, a.node_id r ≠ node_id
  registered : a.node_id_to_node.get? node_id = none
  allocation : a.node_allocation.get? node_id = none
  hosting : ∀ x ∈ a.layer_to_load, node_id ∉ x.hosting_nodes
  embedding : node_id ∉ a.embedding_node_ids
  lm_head : node_id ∉ a.lm_head_node_ids

/-- An id that is not registered has left no trace. -/
theorem evicted_iff {a : Allocator} (h : Placed a) {node_id : String} :
    Evicted a node_id ↔ a.node_id_to_node.get? node_id = none := by
  constructor
  · exact fun he => he.registered
  · intro hnone
    have hallocation : a.node_allocation.get? node_id = none := by
      rcases hp : a.node_allocation.get? node_id with _ | p
      · rfl
      · obtain ⟨r, hr⟩ := h.views.registered node_id p hp
        rw [hnone] at hr
        cases hr
    refine ⟨?_, hnone, hallocation, ?_, ?_, ?_⟩
    · rintro r hr rfl
      rw [h.views.listed r hr] at hnone
      cases hnone
    · intro x hx hid
      obtain ⟨l, hl⟩ := List.mem_iff_getElem?.mp hx
      obtain ⟨s, e, hse, _⟩ := h.hosted.hosts l x hl node_id hid
      rw [hallocation] at hse
      cases hse
    · intro hid
      obtain ⟨e, he⟩ := (h.hosted.ends.embedding node_id).mp hid
      rw [hallocation] at he
      cases he
    · intro hid
      obtain ⟨s, hs⟩ := (h.hosted.ends.lm_head node_id).mp hid
      rw [hallocation] at hs
      cases hs

end scheduling.layer_allocation
