-- The bookkeeping of the allocator: after any run of joins, leaves, splits and
-- reallocations, whether they return or raise, the loads of the layers, the
-- ends of the pipelines and the heap say what the ranges of the nodes say.
import InferenceMesh.Scheduling.PipelineSearch
import Mathlib.Algebra.BigOperators.Group.Finset.Basic

open ordered_dict python state_exn binary_heap
open scheduling.model_info scheduling.node

namespace scheduling.layer_allocation

open Allocator

/-! ## The invariant -/

/-- The memory that the node of an id keeps for the cache of each of its layers. -/
def Allocator.kv_of (a : Allocator) (id : String) : Int :=
  match a.node_id_to_node.get? id with
  | none => 0
  | some r => kv_size (a.store r)

/-- The load of each layer is made of the nodes whose range has the layer. -/
structure LoadsAgree (a : Allocator) : Prop where
  layers : a.layer_to_load.length = a.model_info.num_layers
  layer_ids : ∀ (l : Nat) x, a.layer_to_load[l]? = some x → x.layer_id = l
  hosts : ∀ (l : Nat) x, a.layer_to_load[l]? = some x → ∀ id, id ∈ x.hosting_nodes ↔
    ∃ start_layer end_layer, a.node_allocation.get? id = some (start_layer, end_layer) ∧
      start_layer ≤ l ∧ l < end_layer
  memory : ∀ (l : Nat) x, a.layer_to_load[l]? = some x →
    x.current_kv_size = ∑ id ∈ x.hosting_nodes, a.kv_of id

/-- The lists of the pipeline ends hold the nodes at the first and at the last layer. -/
structure EndsAgree (a : Allocator) : Prop where
  embedding_nodup : a.embedding_node_ids.Nodup
  embedding : ∀ id, id ∈ a.embedding_node_ids ↔
    ∃ end_layer, a.node_allocation.get? id = some (0, end_layer)
  lm_head_nodup : a.lm_head_node_ids.Nodup
  lm_head : ∀ id, id ∈ a.lm_head_node_ids ↔
    ∃ start_layer, a.node_allocation.get? id = some (start_layer, a.num_total_layers)

/-- The heap holds every layer once, and its root is the lightest layer. -/
structure HeapAgrees (a : Allocator) : Prop where
  layers : a.layer_loads_heap.Perm (List.range a.model_info.num_layers)
  lightest : ∀ l, a.get_lightest_layer = some l →
    ∀ k < a.model_info.num_layers, a.load_key l ≤ a.load_key k

/-- Everything that the allocator keeps agrees with the ranges of its nodes. -/
structure BookkeepingAgrees (m : ModelInfo) (a : Allocator) : Prop where
  model_info : a.model_info = m
  views : Views a
  inside : ∀ id start_layer end_layer,
    a.node_allocation.get? id = some (start_layer, end_layer) →
      0 ≤ start_layer ∧ end_layer ≤ m.num_layers
  loads : LoadsAgree a
  ends : EndsAgree a
  heap : HeapAgrees a

/-! ## The heap -/

theorem layer_ids_eq_range {a : Allocator} {n : Nat} (hlen : a.layer_to_load.length = n)
    (hids : ∀ (l : Nat) x, a.layer_to_load[l]? = some x → x.layer_id = l) :
    a.layer_to_load.map LayerLoad.layer_id = List.range n := by
  apply List.ext_getElem
  · simp [hlen]
  · intro i h1 h2
    rw [List.length_map] at h1
    rw [List.getElem_map, List.getElem_range]
    exact hids i _ (List.getElem?_eq_getElem h1)

/-- A rebuilt heap agrees with the loads. -/
theorem heapAgrees_update {a : Allocator} (hlen : a.layer_to_load.length = a.model_info.num_layers)
    (hids : ∀ (l : Nat) x, a.layer_to_load[l]? = some x → x.layer_id = l) :
    HeapAgrees a.update_layer_loads_heap := by
  have hrange := layer_ids_eq_range hlen hids
  have hperm : a.update_layer_loads_heap.layer_loads_heap.Perm
      (List.range a.model_info.num_layers) := by
    have h := heapify_perm a.load_key (a.layer_to_load.map LayerLoad.layer_id)
    exact h.trans (List.Perm.of_eq hrange)
  refine ⟨hperm, ?_⟩
  intro l hl k hk
  have hroot : (heapify a.load_key (a.layer_to_load.map LayerLoad.layer_id))[0]? = some l := by
    rw [← List.head?_eq_getElem?]
    exact hl
  apply heapify_root hroot
  rw [hrange]
  exact List.mem_range.mpr hk

/-! ## An allocation -/

section record

variable {a : Allocator} {r : Ref} {start_layer end_layer : Int} {loads : List LayerLoad}

theorem record_get_allocation (a : Allocator) (r : Ref) (start_layer end_layer : Int) (id : String) :
    (a.record_allocation r start_layer end_layer).node_allocation.get? id =
      if a.node_id r = id then some (start_layer, end_layer) else a.node_allocation.get? id :=
  Dict.get?_insert _ _ _ _

/-- The memory of the other nodes is as before. -/
theorem record_kv_of (hviews : Views a) {id : String} (hne : id ≠ a.node_id r) :
    (a.record_allocation r start_layer end_layer).kv_of id = a.kv_of id := by
  have hget : (a.record_allocation r start_layer end_layer).node_id_to_node.get? id =
      a.node_id_to_node.get? id := Dict.get?_insert_ne _ _ (Ne.symm hne)
  unfold kv_of
  rw [hget]
  split
  · rfl
  · rename_i r' hr'
    have hrr : r' ≠ r := by
      rintro rfl
      exact hne (hviews.named id _ hr').symm
    simp [record_allocation, hrr]

theorem record_kv_of_self (a : Allocator) (r : Ref) (start_layer end_layer : Int) :
    (a.record_allocation r start_layer end_layer).kv_of (a.node_id r) =
      kv_size ((a.record_allocation r start_layer end_layer).store r) := by
  have hget : (a.record_allocation r start_layer end_layer).node_id_to_node.get? (a.node_id r) =
      some r := Dict.get?_insert_self _ _ _
  unfold kv_of
  rw [hget]

theorem loadsAgree_record (hviews : Views a) (h : LoadsAgree a) (hr : Free a r)
    (hchanged : Changed (host ((a.record_allocation r start_layer end_layer).store r))
      (layer_range start_layer end_layer) a.layer_to_load loads) :
    LoadsAgree { a.record_allocation r start_layer end_layer with layer_to_load := loads } := by
  have hnone := hviews.unallocated_of_free hr
  have hid : ((a.record_allocation r start_layer end_layer).store r).node_id = a.node_id r := by
    simp [record_allocation, Node.set_layer_allocation, Allocator.node_id]
  -- The node hosts no layer before the allocation.
  have habsent : ∀ (l : Nat) x, a.layer_to_load[l]? = some x → a.node_id r ∉ x.hosting_nodes := by
    intro l x hx hmem
    obtain ⟨s, e, hse, _⟩ := (h.hosts l x hx _).mp hmem
    rw [hnone] at hse
    cases hse
  have hload : ∀ (l : Nat) y, loads[l]? = some y → ∃ x, a.layer_to_load[l]? = some x ∧
      y = if (l : Int) ∈ layer_range start_layer end_layer
        then host ((a.record_allocation r start_layer end_layer).store r) x else x := by
    intro l y hy
    rw [hchanged l] at hy
    obtain ⟨x, hx, rfl⟩ := Option.map_eq_some_iff.mp hy
    exact ⟨x, hx, rfl⟩
  have hsum : ∀ (l : Nat) x, a.layer_to_load[l]? = some x →
      ∑ id ∈ x.hosting_nodes, (a.record_allocation r start_layer end_layer).kv_of id =
        x.current_kv_size := by
    intro l x hx
    rw [h.memory l x hx]
    apply Finset.sum_congr rfl
    intro id hmem
    apply record_kv_of hviews
    rintro rfl
    exact habsent l x hx hmem
  refine ⟨?_, ?_, ?_, ?_⟩
  · exact hchanged.length_eq.trans h.layers
  · intro l y hy
    obtain ⟨x, hx, rfl⟩ := hload l y hy
    have hlid := h.layer_ids l x hx
    split
    · exact hlid
    · exact hlid
  · intro l y hy id
    obtain ⟨x, hx, rfl⟩ := hload l y hy
    have hhosts := h.hosts l x hx id
    show _ ↔ ∃ s e, (a.record_allocation r start_layer end_layer).node_allocation.get? id =
      some (s, e) ∧ s ≤ l ∧ l < e
    rw [record_get_allocation]
    by_cases he : a.node_id r = id
    · subst he
      rw [if_pos rfl]
      split
      · rename_i hl
        have hl' := mem_layer_range.mp hl
        constructor
        · intro _
          exact ⟨start_layer, end_layer, rfl, hl'⟩
        · intro _
          simp [host, hid]
      · rename_i hl
        constructor
        · intro hmem
          exact absurd hmem (habsent l x hx)
        · rintro ⟨s, e, hse, hl'⟩
          cases hse
          exact absurd (mem_layer_range.mpr hl') hl
    · rw [if_neg he, ← hhosts]
      split
      · simp [host, hid, Ne.symm he]
      · exact Iff.rfl
  · intro l y hy
    obtain ⟨x, hx, rfl⟩ := hload l y hy
    show _ = ∑ id ∈ _, (a.record_allocation r start_layer end_layer).kv_of id
    split
    · rw [← hid] at habsent
      have hself := record_kv_of_self a r start_layer end_layer
      rw [← hid] at hself
      simp only [host]
      rw [Finset.sum_insert (habsent l x hx), hsum l x hx, hself]
      omega
    · exact (hsum l x hx).symm

theorem endsAgree_record (start_layer end_layer : Int) (loads : List LayerLoad) (hviews : Views a) (h : EndsAgree a) (hr : Free a r) :
    EndsAgree { a.record_allocation r start_layer end_layer with layer_to_load := loads } := by
  have hnone := hviews.unallocated_of_free hr
  have hget := record_get_allocation a r start_layer end_layer
  have hembed : a.node_id r ∉ a.embedding_node_ids := by
    intro hmem
    obtain ⟨e, he⟩ := (h.embedding _).mp hmem
    rw [hnone] at he
    cases he
  have hlm : a.node_id r ∉ a.lm_head_node_ids := by
    intro hmem
    obtain ⟨s, hs⟩ := (h.lm_head _).mp hmem
    rw [hnone] at hs
    cases hs
  refine ⟨?_, ?_, ?_, ?_⟩
  · show (if start_layer = 0 then a.embedding_node_ids ++ [a.node_id r]
      else a.embedding_node_ids).Nodup
    split
    · exact List.Nodup.append h.embedding_nodup (List.nodup_singleton _) (by simpa using hembed)
    · exact h.embedding_nodup
  · intro id
    show id ∈ (if start_layer = 0 then a.embedding_node_ids ++ [a.node_id r]
      else a.embedding_node_ids) ↔
        ∃ e, (a.record_allocation r start_layer end_layer).node_allocation.get? id = some (0, e)
    rw [hget]
    by_cases he : a.node_id r = id
    · subst he
      rw [if_pos rfl]
      split
      · rename_i h0
        simp [h0]
      · rename_i h0
        simp [h0, hembed]
    · rw [if_neg he, ← h.embedding id]
      split
      · simp [Ne.symm he]
      · exact Iff.rfl
  · show (if end_layer = a.num_total_layers then a.lm_head_node_ids ++ [a.node_id r]
      else a.lm_head_node_ids).Nodup
    split
    · exact List.Nodup.append h.lm_head_nodup (List.nodup_singleton _) (by simpa using hlm)
    · exact h.lm_head_nodup
  · intro id
    show id ∈ (if end_layer = a.num_total_layers then a.lm_head_node_ids ++ [a.node_id r]
      else a.lm_head_node_ids) ↔
        ∃ s, (a.record_allocation r start_layer end_layer).node_allocation.get? id =
          some (s, a.num_total_layers)
    rw [hget]
    by_cases he : a.node_id r = id
    · subst he
      rw [if_pos rfl]
      split
      · rename_i h0
        simp [h0]
      · rename_i h0
        simp [h0, hlm]
    · rw [if_neg he, ← h.lm_head id]
      split
      · simp [Ne.symm he]
      · exact Iff.rfl

end record

/-! ## A deallocation -/

section forget

variable {a : Allocator} {r : Ref} {start_layer end_layer : Int} {loads : List LayerLoad}

theorem forget_get_allocation (a : Allocator) (r : Ref) (loads : List LayerLoad) (id : String) :
    (({ a.forget_allocation r with layer_to_load := loads }).clear_node r).node_allocation.get? id =
      if a.node_id r = id then none else a.node_allocation.get? id :=
  Dict.get?_erase _ _ _

theorem forget_kv_of (hviews : Views a) {id : String} (hne : id ≠ a.node_id r) :
    (({ a.forget_allocation r with layer_to_load := loads }).clear_node r).kv_of id = a.kv_of id := by
  have hget : (({ a.forget_allocation r with layer_to_load := loads }).clear_node
      r).node_id_to_node.get? id = a.node_id_to_node.get? id := rfl
  unfold kv_of
  rw [hget]
  split
  · rfl
  · rename_i r' hr'
    have hrr : r' ≠ r := by
      rintro rfl
      exact hne (hviews.named id _ hr').symm
    simp [forget_allocation, clear_node, update_layer_loads_heap, set_node, hrr]

theorem loadsAgree_forget (hviews : Views a) (h : LoadsAgree a)
    (hreg : a.node_id_to_node.get? (a.node_id r) = some r)
    (halloc : a.node_allocation.get? (a.node_id r) = some (start_layer, end_layer))
    (hchanged : Changed (unhost (a.store r)) (layer_range start_layer end_layer)
      a.layer_to_load loads) :
    LoadsAgree (({ a.forget_allocation r with layer_to_load := loads }).clear_node r) := by
  have hload : ∀ (l : Nat) y, loads[l]? = some y → ∃ x, a.layer_to_load[l]? = some x ∧
      y = if (l : Int) ∈ layer_range start_layer end_layer then unhost (a.store r) x else x := by
    intro l y hy
    rw [hchanged l] at hy
    obtain ⟨x, hx, rfl⟩ := Option.map_eq_some_iff.mp hy
    exact ⟨x, hx, rfl⟩
  -- The node hosts just the layers of its range.
  have hhosting : ∀ (l : Nat) x, a.layer_to_load[l]? = some x →
      (a.node_id r ∈ x.hosting_nodes ↔ (l : Int) ∈ layer_range start_layer end_layer) := by
    intro l x hx
    rw [h.hosts l x hx, halloc, mem_layer_range]
    constructor
    · rintro ⟨s, e, hse, hl⟩
      cases hse
      exact hl
    · intro hl
      exact ⟨start_layer, end_layer, rfl, hl⟩
  have hself : a.kv_of (a.node_id r) = kv_size (a.store r) := by
    unfold kv_of
    rw [hreg]
  have hunhost : ∀ x, a.node_id r ∈ x.hosting_nodes → unhost (a.store r) x =
      ⟨x.layer_id, x.current_kv_size - kv_size (a.store r),
        x.hosting_nodes.erase (a.node_id r)⟩ := fun x hin => if_pos hin
  refine ⟨?_, ?_, ?_, ?_⟩
  · exact hchanged.length_eq.trans h.layers
  · intro l y hy
    obtain ⟨x, hx, rfl⟩ := hload l y hy
    have hlid := h.layer_ids l x hx
    split
    · unfold unhost
      split
      · exact hlid
      · exact hlid
    · exact hlid
  · intro l y hy id
    obtain ⟨x, hx, rfl⟩ := hload l y hy
    have hhosts := h.hosts l x hx id
    rw [forget_get_allocation]
    by_cases he : a.node_id r = id
    · subst he
      rw [if_pos rfl]
      constructor
      · intro hmem
        split at hmem
        · rename_i hl
          have hin := (hhosting l x hx).mpr hl
          rw [hunhost x hin] at hmem
          exact absurd rfl (Finset.mem_erase.mp hmem).1
        · rename_i hl
          exact absurd ((hhosting l x hx).mp hmem) hl
      · rintro ⟨s, e, hse, _⟩
        cases hse
    · rw [if_neg he, ← hhosts]
      split
      · unfold unhost
        split
        · constructor
          · exact fun hmem => (Finset.mem_erase.mp hmem).2
          · exact fun hmem => Finset.mem_erase.mpr ⟨Ne.symm he, hmem⟩
        · exact Iff.rfl
      · exact Iff.rfl
  · intro l y hy
    obtain ⟨x, hx, rfl⟩ := hload l y hy
    have hmemory := h.memory l x hx
    split
    · rename_i hl
      have hin := (hhosting l x hx).mpr hl
      have hsplit := Finset.add_sum_erase x.hosting_nodes a.kv_of hin
      have hrest : ∑ id ∈ x.hosting_nodes.erase (a.node_id r),
          (({ a.forget_allocation r with layer_to_load := loads }).clear_node r).kv_of id =
            ∑ id ∈ x.hosting_nodes.erase (a.node_id r), a.kv_of id := by
        apply Finset.sum_congr rfl
        intro id hid
        exact forget_kv_of hviews (Finset.mem_erase.mp hid).1
      rw [hunhost x hin]
      simp only
      rw [hrest]
      omega
    · rename_i hl
      rw [hmemory]
      apply Finset.sum_congr rfl
      intro id hid
      symm
      apply forget_kv_of hviews
      rintro rfl
      exact hl ((hhosting l x hx).mp hid)

theorem endsAgree_forget (r : Ref) (loads : List LayerLoad) (h : EndsAgree a) :
    EndsAgree (({ a.forget_allocation r with layer_to_load := loads }).clear_node r) := by
  have hget := forget_get_allocation a r loads
  refine ⟨h.embedding_nodup.erase _, ?_, h.lm_head_nodup.erase _, ?_⟩
  · intro id
    rw [hget]
    show id ∈ a.embedding_node_ids.erase (a.node_id r) ↔ _
    rw [h.embedding_nodup.mem_erase_iff, h.embedding id]
    by_cases he : a.node_id r = id
    · simp [he]
    · simp [he, Ne.symm he]
  · intro id
    rw [hget]
    show id ∈ a.lm_head_node_ids.erase (a.node_id r) ↔
      ∃ s, (if a.node_id r = id then none else a.node_allocation.get? id) =
        some (s, a.num_total_layers)
    rw [h.lm_head_nodup.mem_erase_iff, h.lm_head id]
    by_cases he : a.node_id r = id
    · simp [he]
    · simp [he, Ne.symm he]

end forget

/-! ## The operations -/

theorem allocate_bookkeeping {m : ModelInfo} {a : Allocator} {r : Ref} {start_layer end_layer : Int}
    (h : BookkeepingAgrees m a) (hr : Free a r)
    (hinside : start_layer < end_layer → 0 ≤ start_layer ∧ end_layer ≤ m.num_layers) :
    BookkeepingAgrees m (stateOf (allocate r start_layer end_layer a)) := by
  by_cases hlt : start_layer < end_layer
  · have hfits : a.fits start_layer end_layer := by
      unfold fits
      rw [h.loads.layers, h.model_info]
      exact hinside hlt
    have hviews := allocate_views h.views hr start_layer end_layer
    obtain ⟨loads, hrun, hchanged⟩ := allocate_ok (r := r) hlt hfits
    have hloads := loadsAgree_record h.views h.loads hr hchanged
    have hends := endsAgree_record start_layer end_layer loads h.views h.ends hr
    rw [hrun] at hviews ⊢
    refine ⟨h.model_info, hviews, ?_, ⟨hloads.layers, hloads.layer_ids, hloads.hosts, hloads.memory⟩,
      ⟨hends.embedding_nodup, hends.embedding, hends.lm_head_nodup, hends.lm_head⟩,
      heapAgrees_update hloads.layers hloads.layer_ids⟩
    intro id s e hse
    have hse' : (a.record_allocation r start_layer end_layer).node_allocation.get? id =
      some (s, e) := hse
    rw [record_get_allocation] at hse'
    split at hse'
    · cases hse'
      exact hinside hlt
    · exact h.inside id s e hse'
  · obtain ⟨e, hrun⟩ := allocate_empty (a := a) (r := r) (not_lt.mp hlt)
    rw [hrun]
    exact h

theorem deallocate_bookkeeping {m : ModelInfo} {a : Allocator} {r : Ref}
    (h : BookkeepingAgrees m a) (hr : Usable a r) :
    BookkeepingAgrees m (stateOf (deallocate r a)) := by
  have hviews := deallocate_views h.views hr
  rcases deallocate_cases a r with ⟨_, hrun⟩ | ⟨s, e, loads, hs, he, hrun, hchanged⟩
  · rw [hrun]
    exact h
  · have hreg : a.node_id_to_node.get? (a.node_id r) = some r := by
      rcases hr with hreg | ⟨_, hidle⟩
      · exact hreg
      · rw [hidle.1] at hs
        cases hs
    have halloc := h.views.allocation_of_range hreg hs he
    have hloads := loadsAgree_forget h.views h.loads hreg halloc hchanged
    have hends := endsAgree_forget r loads h.ends
    rw [hrun] at hviews ⊢
    refine ⟨h.model_info, hviews, ?_, hloads, hends,
      heapAgrees_update hloads.layers hloads.layer_ids⟩
    intro id s' e' hse
    have hse' := hse
    simp only [stateOf] at hse'
    rw [forget_get_allocation] at hse'
    split at hse'
    · cases hse'
    · exact h.inside id s' e' hse'

/-- The loads agree as long as they, the ranges and the memory of the nodes are the same. -/
theorem LoadsAgree.congr {a a' : Allocator} (h : LoadsAgree a) (hmodel : a'.model_info = a.model_info)
    (hloads : a'.layer_to_load = a.layer_to_load) (halloc : a'.node_allocation = a.node_allocation)
    (hkv : ∀ id p, a.node_allocation.get? id = some p → a'.kv_of id = a.kv_of id) :
    LoadsAgree a' := by
  refine ⟨?_, ?_, ?_, ?_⟩
  · rw [hloads, hmodel]
    exact h.layers
  · rw [hloads]
    exact h.layer_ids
  · rw [hloads, halloc]
    exact h.hosts
  · rw [hloads]
    intro l x hx
    rw [h.memory l x hx]
    apply Finset.sum_congr rfl
    intro id hid
    obtain ⟨s, e, hse, _⟩ := (h.hosts l x hx id).mp hid
    exact (hkv id _ hse).symm

theorem register_bookkeeping {m : ModelInfo} {a : Allocator} {r : Ref}
    (h : BookkeepingAgrees m a) (hnew : a.node_id_to_node.get? (a.node_id r) = none)
    (hidle : Idle (a.store r)) : BookkeepingAgrees m (a.register r) := by
  refine ⟨h.model_info, h.views.register hnew hidle, h.inside, ?_,
    ⟨h.ends.embedding_nodup, h.ends.embedding, h.ends.lm_head_nodup, h.ends.lm_head⟩,
    ⟨h.heap.layers, h.heap.lightest⟩⟩
  refine LoadsAgree.congr h.loads rfl rfl rfl ?_
  intro id p hp
  have hne : a.node_id r ≠ id := by
    rintro rfl
    obtain ⟨r', hr'⟩ := h.views.registered _ p hp
    rw [hnew] at hr'
    cases hr'
  have hget : (a.register r).node_id_to_node.get? id = a.node_id_to_node.get? id :=
    Dict.get?_insert_ne _ _ hne
  unfold kv_of
  rw [hget]
  rfl

theorem unregister_bookkeeping {m : ModelInfo} {a : Allocator} {r : Ref} {node_id : String}
    (h : BookkeepingAgrees m a) (hget : a.node_id_to_node.get? node_id = some r)
    (hidle : Idle (a.store r)) : BookkeepingAgrees m (a.unregister node_id) := by
  refine ⟨h.model_info, h.views.unregister hget hidle, h.inside, ?_,
    ⟨h.ends.embedding_nodup, h.ends.embedding, h.ends.lm_head_nodup, h.ends.lm_head⟩,
    ⟨h.heap.layers, h.heap.lightest⟩⟩
  refine LoadsAgree.congr h.loads rfl rfl rfl ?_
  intro id p hp
  have hne : node_id ≠ id := by
    rintro rfl
    have hstart := (h.views.ranges _ r hget).1
    rw [hp, hidle.1] at hstart
    cases hstart
  have hget' : (a.unregister node_id).node_id_to_node.get? id = a.node_id_to_node.get? id :=
    Dict.get?_erase_ne _ hne
  unfold kv_of
  rw [hget']
  rfl

/-- A joining node starts at a layer and ends at most at the last one. -/
theorem join_inside {m : ModelInfo} {a : Allocator} (h : BookkeepingAgrees m a) (n : Node) (l : Nat) :
    (0 : Int) ≤ l ∧ a.adjust_end_layer_for_tail n l ≤ m.num_layers := by
  have hL : a.num_total_layers = m.num_layers := by
    unfold num_total_layers
    rw [h.model_info]
  refine ⟨Int.natCast_nonneg l, ?_⟩
  rw [← hL]
  unfold adjust_end_layer_for_tail
  dsimp only
  split
  · exact min_le_right _ _
  · exact min_le_right _ _

theorem greedy_layers_le (n : Node) (start_layer remaining_layers : Int) :
    greedy_layers n start_layer remaining_layers ≤ remaining_layers := by
  unfold greedy_layers
  dsimp only
  split
  · exact min_le_right _ _
  · exact min_le_right _ _

/-- The agreement is an invariant of the allocator, as long as ranges lie inside the model. -/
theorem bookkeeping_kept (m : ModelInfo) :
    Kept (BookkeepingAgrees m) (fun _ start_layer end_layer =>
      0 ≤ start_layer ∧ end_layer ≤ m.num_layers) where
  views := fun _ h => h.views
  allocates := fun _ _ _ _ h hr hinside => allocate_bookkeeping h hr hinside
  deallocates := fun _ _ h hr => deallocate_bookkeeping h hr
  sorts := fun _ h => ⟨h.model_info, h.views.sort_nodes, h.inside,
    h.loads.congr rfl rfl rfl (fun _ _ _ => rfl),
    ⟨h.ends.embedding_nodup, h.ends.embedding, h.ends.lm_head_nodup, h.ends.lm_head⟩,
    ⟨h.heap.layers, h.heap.lightest⟩⟩
  registers := fun _ _ h hnew hidle => register_bookkeeping h hnew hidle
  unregisters := fun _ _ _ h hget hidle => unregister_bookkeeping h hget hidle
  joins := fun _ _ _ h _ => join_inside h _ _
  shares := by
    intro a r start_layer remaining_layers h hstart hsum
    have hL : a.num_total_layers = m.num_layers := by
      unfold num_total_layers
      rw [h.model_info]
    have hle := greedy_layers_le (a.store r) start_layer remaining_layers
    exact ⟨hstart, by omega⟩

/-- Water-filling gives out ranges inside the model. -/
theorem split_inside {m : ModelInfo} {a : Allocator} (hm : a.model_info = m)
    (pipeline_nodes : List Ref) (assume_sorted : Bool) (power_type : PowerType) :
    SplitOk (fun _ start_layer end_layer => 0 ≤ start_layer ∧ end_layer ≤ m.num_layers) a
      pipeline_nodes assume_sorted power_type := by
  intro counts hfull hcounts x hx
  have hroom := full_stage_none (stage_capacities_length _ _) hfull
  obtain ⟨hwithin, hsum⟩ := stage_layer_counts.spec hroom
    (by simp [stage_capacities_length]) hcounts
  obtain ⟨h1, h2⟩ := placements_inside hwithin _ 0 x hx
  have hL : a.num_total_layers = m.num_layers := by
    unfold num_total_layers
    rw [hm]
  exact ⟨h1, by omega⟩

/-! ## Runs -/

/-- A call of the allocator. -/
inductive Call where
  | join (r : Ref)
  | leave (node_id : String)
  | adjust_pipeline_layers (pipeline_nodes : List Ref) (assume_sorted : Bool)
      (power_type : PowerType)
  | global_allocation
  | reallocate (r : Ref) (start_layer end_layer : Int)
  | allocate_left_over_nodes

/-- The state after a call, whether it returns or raises. -/
def Call.after (a : Allocator) : Call → Allocator
  | .join r => stateOf (layer_allocation.join r a)
  | .leave node_id => stateOf (layer_allocation.leave node_id a)
  | .adjust_pipeline_layers nodes assume_sorted power_type =>
    stateOf (layer_allocation.adjust_pipeline_layers nodes assume_sorted power_type a)
  | .global_allocation => stateOf (layer_allocation.global_allocation a)
  | .reallocate r start_layer end_layer =>
    stateOf (layer_allocation.reallocate r start_layer end_layer a)
  | .allocate_left_over_nodes => stateOf (layer_allocation.allocate_left_over_nodes a)

/-- Nodes arrive with an id of their own and without a range, a node joins only when it is not
there, and a reallocation stays inside the model. -/
def Call.Allowed (a : Allocator) : Call → Prop
  | .join r => a.node_id_to_node.get? (a.node_id r) = none ∧ Idle (a.store r)
  | .adjust_pipeline_layers nodes _ _ => (nodes.map a.node_id).Nodup ∧ ∀ r ∈ nodes, Usable a r
  | .reallocate r start_layer end_layer => Usable a r ∧
    (start_layer < end_layer → 0 ≤ start_layer ∧ end_layer ≤ a.num_total_layers)
  | _ => True

/-- The states that allowed calls reach. -/
inductive Reachable (a₀ : Allocator) : Allocator → Prop
  | start : Reachable a₀ a₀
  | call {a : Allocator} {c : Call} : Reachable a₀ a → c.Allowed a → Reachable a₀ (c.after a)

theorem bookkeeping_call {m : ModelInfo} {a : Allocator} {c : Call} (h : BookkeepingAgrees m a)
    (hc : c.Allowed a) : BookkeepingAgrees m (c.after a) := by
  have K := bookkeeping_kept m
  have hL : a.num_total_layers = m.num_layers := by
    unfold num_total_layers
    rw [h.model_info]
  cases c with
  | join r =>
    have hfree : Free a r := ⟨Or.inr hc, hc.2⟩
    have hjoin := K.join [] (r := r)
    exact (Triple.state hjoin ⟨h, hfree, fun _ hr => by cases hr⟩).1
  | leave node_id => exact K.leave h node_id
  | adjust_pipeline_layers nodes assume_sorted power_type =>
    have hadjust := K.adjust_pipeline_layers hc.1
      (split_inside h.model_info nodes assume_sorted power_type)
    have hkeeps := Triple.mono hadjust (fun _ h => h) (fun _ _ h => h.1) (fun _ _ h => h)
    exact Triple.state hkeeps ⟨h, From.refl a, hc.2⟩
  | global_allocation =>
    exact K.global_allocation h (fun _ _ _ => split_inside h.model_info _ _ _)
  | reallocate r start_layer end_layer =>
    apply K.reallocate h hc.1
    intro hlt
    rw [← hL]
    exact hc.2 hlt
  | allocate_left_over_nodes => exact K.allocate_left_over_nodes.state h

/-! ## From the start on -/

section init

variable {store : Ref → Node} {m : ModelInfo} {strategy : Strategy} {nodes : List Ref}
  {rebalance_threshold : WithTop Rat} {iterations : Nat} {left_over : Bool}

theorem init_views (hids : (nodes.map (fun r => (store r).node_id)).Nodup)
    (hidle : ∀ r ∈ nodes, Idle (store r)) :
    Views (Allocator.init store m strategy nodes rebalance_threshold iterations left_over) := by
  have hperm : (sorted_desc (fun r => (store r).capacity) nodes).Perm nodes := sorted_desc_perm _ _
  have hids' : ((sorted_desc (fun r => (store r).capacity) nodes).map
      (fun r => (store r).node_id)).Nodup := (hperm.map _).nodup_iff.mpr hids
  refine ⟨?_, ?_, ?_, ?_, ?_, ?_⟩
  · intro id r hr
    exact (Dict.mem_of_get?_insertAll hr hids').2
  · intro id r hr
    exact hidle r (hperm.mem_iff.mp (Dict.mem_of_get?_insertAll hr hids').1)
  · intro id p hp
    cases hp
  · intro id s e hse
    cases hse
  · intro r hr
    exact Dict.get?_insertAll hids' hr
  · exact hids'.of_map

theorem init_bookkeeping (hids : (nodes.map (fun r => (store r).node_id)).Nodup)
    (hidle : ∀ r ∈ nodes, Idle (store r)) :
    BookkeepingAgrees m
      (Allocator.init store m strategy nodes rebalance_threshold iterations left_over) := by
  have hload : ∀ (l : Nat) x,
      ((List.range m.num_layers).map (fun l => (⟨l, 0, ∅⟩ : LayerLoad)))[l]? = some x →
        x = ⟨l, 0, ∅⟩ := by
    intro l x hx
    rw [List.getElem?_map] at hx
    obtain ⟨k, hk, rfl⟩ := Option.map_eq_some_iff.mp hx
    obtain ⟨h1, h2⟩ := List.getElem?_eq_some_iff.mp hk
    rw [List.getElem_range] at h2
    rw [h2]
  refine ⟨rfl, init_views hids hidle, ?_, ⟨?_, ?_, ?_, ?_⟩, ⟨List.nodup_nil, ?_, List.nodup_nil, ?_⟩,
    ?_⟩
  · intro id s e hse
    cases hse
  · simp [Allocator.init, update_layer_loads_heap]
  · intro l x hx
    rw [hload l x hx]
  · intro l x hx id
    rw [hload l x hx]
    constructor
    · intro hmem
      cases hmem
    · rintro ⟨s, e, hse, _⟩
      cases hse
  · intro l x hx
    rw [hload l x hx]
    rfl
  · intro id
    constructor
    · intro hmem
      cases hmem
    · rintro ⟨e, he⟩
      cases he
  · intro id
    constructor
    · intro hmem
      cases hmem
    · rintro ⟨s, hs⟩
      cases hs
  · apply heapAgrees_update
    · simp
    · intro l x hx
      rw [hload l x hx]

/-- After any calls, each returning or raising, all that the allocator keeps agrees. -/
theorem bookkeeping_agrees_after_any_calls
    (hids : (nodes.map (fun r => (store r).node_id)).Nodup) (hidle : ∀ r ∈ nodes, Idle (store r))
    {a : Allocator}
    (hrun : Reachable
      (Allocator.init store m strategy nodes rebalance_threshold iterations left_over) a) :
    BookkeepingAgrees m a := by
  induction hrun with
  | start => exact init_bookkeeping hids hidle
  | call _ hc ih => exact bookkeeping_call ih hc

end init

/-! ## A pool of test nodes -/

/-- The model of the scheduler tests (tests/scheduler_tests/test_utils.py). -/
def build_model_info (num_layers : Nat) : ModelInfo where
  model_name := "GPUOss"
  mlx_model_name := "MLXOss"
  head_size := 64
  hidden_dim := 2880
  intermediate_dim := 2880
  num_attention_heads := 64
  num_kv_heads := 8
  vocab_size := 201088
  num_layers := num_layers
  num_local_experts := some 128
  num_experts_per_tok := some 4
  cache_bytes_per_element := 2
  embedding_bytes_per_element := 2

def a100_80g (m : ModelInfo) (id : String) : Node where
  node_id := id
  hardware := ⟨id, 1, 312, "", 80, 2039, "cuda"⟩
  model_info := m

def a100_40g (m : ModelInfo) (id : String) : Node where
  node_id := id
  hardware := ⟨id, 1, 312, "", 40, 1935, "cuda"⟩
  model_info := m

/-- An allocator of the default strategy over the nodes `0`, `1` up to the given number. -/
def pool (store : Ref → Node) (m : ModelInfo) (size : Nat) : Allocator :=
  .init store m .dp (List.range size) (1 / 4 : Rat) 40 true

/-- A large node, and then smaller ones. -/
def mixed_store (m : ModelInfo) (r : Ref) : Node :=
  match r with
  | 0 => a100_80g m "a"
  | 1 => a100_40g m "b"
  | _ => a100_40g m "c"

/-- A static allocation of two nodes, a node that joins, and one that leaves. -/
theorem mixed_pool_agrees :
    BookkeepingAgrees (build_model_info 6)
      ((Call.leave "a").after ((Call.join 2).after
        (Call.global_allocation.after
          (pool (mixed_store (build_model_info 6)) (build_model_info 6) 2)))) :=
  bookkeeping_agrees_after_any_calls (by decide) (by decide)
    (.call (.call (.call .start trivial) ⟨by decide +kernel, by decide +kernel⟩) trivial)

end scheduling.layer_allocation
