-- Ranges that a node brings along (scheduling/layer_allocation.py). The range
-- of a manual node goes into the allocation as it is: `validate_allocation` is
-- not asked. A range that leaves the model is found out layer by layer, when
-- the node and the allocation already carry it.
import InferenceMesh.Scheduling.Marking

open ordered_dict python state_exn
open scheduling.model_info scheduling.node

namespace scheduling.layer_allocation

open Allocator

/-! ## One load for each layer -/

theorem init_every_layer (store : Ref → Node) (m : ModelInfo) (strategy : Strategy)
    (nodes : List Ref) (rebalance_threshold : WithTop Rat) (iterations : Nat) (left_over : Bool) :
    EveryLayer (.init store m strategy nodes rebalance_threshold iterations left_over) := by
  simp [EveryLayer, Allocator.init, update_layer_loads_heap]

theorem every_layer_kept : KeptOn (fun _ => True) EveryLayer where
  listed := fun _ _ _ _ => trivial
  searched := fun _ _ _ _ _ _ => trivial
  allocates := fun a r _ _ h _ => (allocate_moved a r _ _).alike.every_layer h
  deallocates := fun a r h => (deallocate_moved a r).alike.every_layer h
  declares := by
    intro a r h _
    obtain ⟨a', hrun, hdeclared⟩ := scheduler.declare_declared a r
    rw [hrun]
    unfold EveryLayer at *
    simpa [stateOf, hdeclared.loads, hdeclared.model_info] using h

theorem leave_every_layer (node_id : String) :
    Keeps EveryLayer (layer_allocation.leave node_id) := by
  apply KeptOn.reads
  intro a _
  split
  · exact Keeps.throws _
  · exact Keeps.bind (every_layer_kept.deallocate _) (fun _ => Keeps.modifies (fun _ h => h))

theorem validate_allocation.spec (a : Allocator) (start_layer end_layer : Int) :
    a.validate_allocation start_layer end_layer = true ↔
      0 ≤ start_layer ∧ start_layer < end_layer ∧ end_layer ≤ a.num_total_layers := by
  unfold validate_allocation
  split
  · rename_i h
    simp only [Bool.or_eq_true, decide_eq_true_eq] at h
    simp
    omega
  · rename_i h
    simp only [Bool.or_eq_true, decide_eq_true_eq, not_or] at h
    split
    · simp
      omega
    · simp
      omega

/-- With a load for each layer, the layers of a range exist when the checker says so. -/
theorem EveryLayer.fits_iff {a : Allocator} (h : EveryLayer a) {start_layer end_layer : Int}
    (hlt : start_layer < end_layer) :
    a.fits start_layer end_layer ↔ a.validate_allocation start_layer end_layer = true := by
  rw [validate_allocation.spec]
  unfold fits num_total_layers
  rw [h]
  simp [hlt]

/-! ## What an allocation that raises leaves behind -/

/-- The node, the map of the ranges, the loads, the ends of the pipelines and the heap are as
before. -/
structure Untouched (r : Ref) (a a' : Allocator) : Prop where
  node : a'.store r = a.store r
  allocation : a'.node_allocation = a.node_allocation
  loads : a'.layer_to_load = a.layer_to_load
  embedding : a'.embedding_node_ids = a.embedding_node_ids
  lm_head : a'.lm_head_node_ids = a.lm_head_node_ids
  heap : a'.layer_loads_heap = a.layer_loads_heap

/-- An allocation gives out a valid range, or it raises and nothing has changed. -/
def AllocatesAtomically (a : Allocator) (r : Ref) (start_layer end_layer : Int) : Prop :=
  match allocate r start_layer end_layer a with
  | .ok _ _ => 0 ≤ start_layer ∧ start_layer < end_layer ∧ end_layer ≤ a.num_total_layers
  | .error _ a' => Untouched r a a'

/-- All that is written before the range turns out not to fit is there already: the node and the
map have the range, neither end of the range is an end of the model, and each layer that gets
loaded has the node as a host, with no memory to add. -/
structure AlreadyWritten (a : Allocator) (r : Ref) (start_layer end_layer : Int) : Prop where
  start_set : (a.store r).start_layer = some start_layer
  end_set : (a.store r).end_layer = some end_layer
  allocation : a.node_allocation.get? (a.node_id r) = some (start_layer, end_layer)
  first : start_layer ≠ 0
  last : end_layer ≠ a.num_total_layers
  loads : ∀ (l : Nat) x, 0 ≤ start_layer → start_layer ≤ l → a.layer_to_load[l]? = some x →
    kv_size (a.store r) = 0 ∧ a.node_id r ∈ x.hosting_nodes

theorem layer_range_cons {start_layer end_layer : Int} (h : start_layer < end_layer) :
    layer_range start_layer end_layer = start_layer :: layer_range (start_layer + 1) end_layer := by
  obtain ⟨k, hk⟩ : ∃ k, (end_layer - start_layer).toNat = k + 1 :=
    ⟨(end_layer - start_layer).toNat - 1, by omega⟩
  have hrest : (end_layer - (start_layer + 1)).toNat = k := by omega
  unfold layer_range
  rw [hk, hrest, List.range_succ_eq_map, List.map_cons, List.map_map]
  simp only [Nat.cast_zero, add_zero, List.cons.injEq, true_and]
  apply List.map_congr_left
  intro i _
  simp only [Function.comp_apply, Nat.cast_succ]
  omega

/-- The layers that are loaded before the first one that does not exist. -/
theorem mem_loaded (a : Allocator) (start_layer end_layer l : Int) :
    l ∈ (layer_range start_layer end_layer).takeWhile (fun l => (a.layer_index l).isSome) ↔
      0 ≤ start_layer ∧ start_layer ≤ l ∧ l < end_layer ∧ l < a.layer_to_load.length := by
  by_cases hlt : start_layer < end_layer
  · rw [layer_range_cons hlt, List.takeWhile_cons]
    by_cases hexists : 0 ≤ start_layer ∧ start_layer < a.layer_to_load.length
    · rw [layer_index_some hexists]
      simp only [Option.isSome_some, if_true, List.mem_cons,
        mem_loaded a (start_layer + 1) end_layer l]
      omega
    · rw [layer_index_none hexists]
      simp only [Option.isSome_none, Bool.false_eq_true, if_false, List.not_mem_nil, false_iff]
      omega
  · have hempty : layer_range start_layer end_layer = [] := by
      unfold layer_range
      rw [show (end_layer - start_layer).toNat = 0 by omega]
      rfl
    rw [hempty]
    simp only [List.takeWhile_nil, List.not_mem_nil, false_iff]
    omega
termination_by (end_layer - start_layer).toNat

theorem host_eq_self_iff {n : Node} {x : LayerLoad} :
    host n x = x ↔ kv_size n = 0 ∧ n.node_id ∈ x.hosting_nodes := by
  rcases x with ⟨layer_id, size, hosts⟩
  simp [host]

/-- Loads that went through `f` are the same loads when `f` changes none of them. -/
theorem Changed.eq_iff {f : LayerLoad → LayerLoad} {layers : List Int}
    {loads loads' : List LayerLoad} (h : Changed f layers loads loads') :
    loads' = loads ↔ ∀ (l : Nat) x, (l : Int) ∈ layers → loads[l]? = some x → f x = x := by
  constructor
  · rintro rfl l x hl hx
    have hget := h l
    rw [hx, Option.map_some, if_pos hl] at hget
    exact (Option.some.inj hget).symm
  · intro hsame
    apply List.ext_getElem?
    intro l
    rw [h l]
    rcases hx : loads[l]? with _ | x
    · rfl
    · rw [Option.map_some]
      split
      · rename_i hl
        rw [hsame l x hl hx]
      · rfl

/-- A node that has the range already is the same node when it is given the range again. -/
theorem set_layer_allocation_eq_self_iff {n : Node} {start_layer end_layer : Int} :
    n.set_layer_allocation start_layer end_layer = n ↔
      n.start_layer = some start_layer ∧ n.end_layer = some end_layer := by
  rcases n
  simp [Node.set_layer_allocation, eq_comm]

/-- A range that leaves the model is not written anywhere exactly when it is there already. -/
theorem untouched_iff {a : Allocator} {r : Ref} {start_layer end_layer : Int}
    {loads : List LayerLoad} (h : EveryLayer a) (hlt : start_layer < end_layer)
    (hout : ¬ a.validate_allocation start_layer end_layer = true)
    (hchanged : Changed (host ((a.record_allocation r start_layer end_layer).store r))
      ((layer_range start_layer end_layer).takeWhile (fun l => (a.layer_index l).isSome))
      a.layer_to_load loads) :
    Untouched r a { a.record_allocation r start_layer end_layer with layer_to_load := loads } ↔
      AlreadyWritten a r start_layer end_layer := by
  have hnode : (a.record_allocation r start_layer end_layer).store r =
      (a.store r).set_layer_allocation start_layer end_layer := by
    simp [record_allocation]
  have hlength : (a.layer_to_load.length : Int) = a.num_total_layers := by
    unfold num_total_layers
    exact_mod_cast h
  rw [validate_allocation.spec] at hout
  constructor
  · intro hsame
    have hset := hsame.node
    simp only [hnode] at hset
    obtain ⟨hs, he⟩ := set_layer_allocation_eq_self_iff.mp hset
    refine ⟨hs, he, Dict.insert_eq_self_iff.mp hsame.allocation, ?_, ?_, ?_⟩
    · rintro rfl
      have hends := hsame.embedding
      simp [record_allocation] at hends
    · rintro rfl
      have hends := hsame.lm_head
      have htotal : (a.record_allocation r start_layer a.num_total_layers).lm_head_node_ids =
          a.lm_head_node_ids ++ [a.node_id r] := by
        simp [record_allocation, Allocator.node_id]
      rw [htotal] at hends
      simp at hends
    · intro l x hpos hle hx
      have hexists : l < a.layer_to_load.length := (List.getElem?_eq_some_iff.mp hx).1
      have hhost := hchanged.eq_iff.mp hsame.loads l x ((mem_loaded a _ _ _).mpr (by omega)) hx
      rw [hnode, hset] at hhost
      exact host_eq_self_iff.mp hhost
  · intro hwritten
    have hset := set_layer_allocation_eq_self_iff.mpr ⟨hwritten.start_set, hwritten.end_set⟩
    refine ⟨hnode.trans hset, Dict.insert_eq_self_iff.mpr hwritten.allocation, ?_, ?_, ?_, rfl⟩
    · apply hchanged.eq_iff.mpr
      intro l x hl hx
      obtain ⟨hpos, hle, _⟩ := (mem_loaded a _ _ _).mp hl
      rw [hnode, hset]
      exact host_eq_self_iff.mpr (hwritten.loads l x hpos hle hx)
    · simp [record_allocation, hwritten.first]
    · simp [record_allocation, hwritten.last]

/-- The id of a node without an allocation is in the map after a range that leaves the model. -/
theorem outside_is_recorded {a : Allocator} {r : Ref} {start_layer end_layer : Int}
    (hnew : a.node_allocation.get? (a.node_id r) = none) (hlt : start_layer < end_layer)
    (hfits : ¬ a.fits start_layer end_layer) :
    ¬ AllocatesAtomically a r start_layer end_layer := by
  intro hatomic
  obtain ⟨e, loads, hrun, _⟩ := allocate_outside (r := r) hlt hfits
  unfold AllocatesAtomically at hatomic
  rw [hrun] at hatomic
  have hstays : a.node_allocation.get? (a.node_id r) = some (start_layer, end_layer) :=
    Dict.insert_eq_self_iff.mp hatomic.allocation
  rw [hnew] at hstays
  cases hstays

/-- An allocation is atomic exactly when its range has no layers, when the checker lets it through,
or when an earlier allocation has left everything behind that this one would. -/
theorem atomic_iff_checked_or_written {a : Allocator} (h : EveryLayer a) (r : Ref)
    (start_layer end_layer : Int) :
    AllocatesAtomically a r start_layer end_layer ↔
      end_layer ≤ start_layer ∨ a.validate_allocation start_layer end_layer = true ∨
        AlreadyWritten a r start_layer end_layer := by
  unfold AllocatesAtomically
  by_cases hlt : start_layer < end_layer
  · by_cases hvalid : a.validate_allocation start_layer end_layer = true
    · obtain ⟨loads, hrun, _⟩ := allocate_ok (r := r) hlt ((h.fits_iff hlt).mpr hvalid)
      rw [hrun]
      simp only [hvalid, true_or, or_true, iff_true]
      exact (validate_allocation.spec a start_layer end_layer).mp hvalid
    · obtain ⟨e, loads, hrun, hchanged⟩ := allocate_outside (r := r) hlt
        (fun hfits => hvalid ((h.fits_iff hlt).mp hfits))
      rw [hrun]
      rw [or_iff_right (not_le.mpr hlt), or_iff_right hvalid]
      exact untouched_iff h hlt hvalid hchanged
  · obtain ⟨e, hrun⟩ := allocate_empty (a := a) (r := r) (not_lt.mp hlt)
    rw [hrun]
    simp only [not_lt.mp hlt, true_or, iff_true]
    exact ⟨rfl, rfl, rfl, rfl, rfl, rfl⟩

end scheduling.layer_allocation

namespace scheduling.scheduler

open scheduling.layer_allocation
open Allocator

/-! ## A manual node -/

theorem every_layer_events : KeptByEvents (OfAllocator EveryLayer) where
  rebalances := kept_by_rebalance (kept_on_inside every_layer_kept)
  joins := kept_by_join every_layer_kept
  leaves := fun left => on_allocator_keeps (leave_every_layer left)
  counts := fun _ _ h => h
  queues := by
    intro s s' h hallocator _
    unfold OfAllocator
    rw [hallocator]
    exact h

/-- No event of the scheduler takes a load away or brings another one. -/
theorem every_layer_after {s : Scheduler} (e : Event) (h : EveryLayer s.layer_allocator) :
    EveryLayer (e.after s).layer_allocator := by
  have hkeeps : Keeps (OfAllocator EveryLayer) e.run := by
    cases e with
    | node_join now m r =>
      exact Keeps.bind Keeps.gets (fun _ => Keeps.bind (Keeps.modifies (fun _ h => h))
        (fun _ => Keeps.modifies (fun _ h => h)))
    | node_update now m r =>
      refine Keeps.bind Keeps.gets (fun s => Keeps.cond (fun _ => ?_) (fun _ => ?_))
      · exact Keeps.bind (Keeps.modifies (fun _ h => h)) (fun _ => Keeps.modifies (fun _ h => h))
      · exact Keeps.bind (raised_keeps _) (fun _ => Keeps.modifies (fun _ h => h))
    | process_node_update now =>
      apply Triple.reads
      intro s h
      split
      · exact Triple.pure (fun _ hs => hs ▸ h)
      · refine Triple.bind (R := fun _ => OfAllocator EveryLayer) (Triple.sets (fun _ _ => h)) ?_
        intro _
        split
        · exact Keeps.pure _
        · exact Keeps.modifies (fun _ h => h)
    | _ => exact Triple.of_state (fun s h => every_layer_events.event (s := s) trivial h)
  exact hkeeps.state h

/-- A message of a node that brings its range along. -/
def manual (id : String) (start_layer end_layer : Int) : NodeMessage :=
  { joining id with
    manual_layer_assignment := some true
    start_layer := some start_layer
    end_layer := some end_layer }

/-- The allocator when a node with the range `[1, 5)` is queued. The model has four layers. -/
def before_manual_join : Allocator :=
  ((Event.node_join 0 (manual "a" 1 5) 0).after empty_scheduler).layer_allocator

theorem before_manual_join_every_layer : EveryLayer before_manual_join := by
  unfold EveryLayer
  decide +kernel

theorem before_manual_join_short : ¬ before_manual_join.fits 1 5 := by
  unfold fits
  decide +kernel

/-- The node would get the last three layers. -/
theorem range_inside_is_allocated : AllocatesAtomically before_manual_join 0 1 4 :=
  (atomic_iff_checked_or_written before_manual_join_every_layer 0 1 4).mpr
    (Or.inr (Or.inl (by decide +kernel)))

/-- The allocation of a range beyond the model raises, and stays in the map of the ranges. -/
theorem raised_allocation_stays :
    ¬ ∀ (a : Allocator) (r : Ref) (start_layer end_layer : Int), EveryLayer a →
      AllocatesAtomically a r start_layer end_layer := by
  intro hall
  have hnew : before_manual_join.node_allocation.get? (before_manual_join.node_id 0) = none := by
    decide +kernel
  have hlt : (1 : Int) < 5 := by decide
  exact outside_is_recorded hnew hlt before_manual_join_short
    (hall _ 0 1 5 before_manual_join_every_layer)

end scheduling.scheduler
