-- Memory for the two ends of the model: which node gets the first and the last
-- layer is settled after the room for them was set aside, by place in the
-- pipeline. A run is safe as long as the two come out the same.
import InferenceMesh.Scheduling.Bookkeeping

open ordered_dict python state_exn
open scheduling.model_info scheduling.node

namespace scheduling.model_info

theorem round_nonneg {q : Rat} (h : 0 ≤ q) : 0 ≤ round q := by
  have hfloor : 0 ≤ ⌊q⌋ := Int.floor_nonneg.mpr h
  unfold round
  dsimp only
  split
  · exact hfloor
  · split
    · omega
    · split
      · exact hfloor
      · omega

namespace ModelInfo

theorem attention_params_nonneg (m : ModelInfo) : 0 ≤ m.attention_params := by
  have hparam : (0 : Rat) ≤ m.param_bytes_per_element := m.param_bytes_per_element.2
  unfold attention_params
  positivity

theorem ffn_params_nonneg (m : ModelInfo) : 0 ≤ m.ffn_params := by
  have hparam : (0 : Rat) ≤ m.param_bytes_per_element := m.param_bytes_per_element.2
  unfold ffn_params
  positivity

theorem decoder_layer_bytes_nonneg (m : ModelInfo) : 0 ≤ m.decoder_layer_bytes := by
  have hattention := m.attention_params_nonneg
  have hffn := m.ffn_params_nonneg
  unfold decoder_layer_bytes decoder_layer_io_bytes
  apply round_nonneg
  split <;> positivity

theorem mlx_bit_factor_nonneg (m : ModelInfo) : 0 ≤ m.mlx_bit_factor := by
  have hparam : (0 : Rat) ≤ m.param_bytes_per_element := m.param_bytes_per_element.2
  have hmlx : (0 : Rat) ≤ m.mlx_param_bytes_per_element := m.mlx_param_bytes_per_element.2
  unfold mlx_bit_factor
  positivity

end ModelInfo

end scheduling.model_info

namespace scheduling.node.Node

/-- The LM head takes no less than nothing. -/
theorem available_memory_bytes_le (n : Node) (embed : Bool) :
    n.available_memory_bytes embed true ≤ n.available_memory_bytes embed false := by
  unfold available_memory_bytes
  simp only [Bool.true_and, Bool.false_and, Bool.false_eq_true, if_false]
  split <;> split <;> omega

theorem get_decoder_layer_capacity_le (n : Node) (embed : Bool) :
    n.get_decoder_layer_capacity embed true ≤ n.get_decoder_layer_capacity embed false := by
  have hle : (n.available_memory_bytes embed true : Rat) ≤ n.available_memory_bytes embed false := by
    exact_mod_cast n.available_memory_bytes_le embed
  have hlayer : (0 : Rat) ≤ n.model_info.decoder_layer_bytes := by
    exact_mod_cast n.model_info.decoder_layer_bytes_nonneg
  have hmlx := n.model_info.mlx_bit_factor_nonneg
  unfold get_decoder_layer_capacity
  dsimp only
  split
  · apply Int.floor_le_floor
    gcongr
  · apply Int.floor_le_floor
    gcongr

end scheduling.node.Node

namespace scheduling.layer_allocation

open Allocator

/-! ## The reserved stages -/

section stages

variable (node : Ref → Node)

/-- The capacities of the stages after the first one. -/
def later_capacities : List Ref → List Int
  | [] => []
  | [r] => [(node r).get_decoder_layer_capacity false true]
  | r :: rest => (node r).get_decoder_layer_capacity false false :: later_capacities rest

theorem stage_capacities_later (rest : List Ref) (k : Nat) (hk : k ≠ 0) :
    (rest.zipIdx k).map (fun x =>
      if x.2 = 0 then (node x.1).get_decoder_layer_capacity true false
      else if x.2 = k + rest.length - 1 then (node x.1).get_decoder_layer_capacity false true
      else (node x.1).get_decoder_layer_capacity false false) = later_capacities node rest := by
  induction rest generalizing k with
  | nil => rfl
  | cons r rest ih =>
    have ih' := ih (k + 1) (by omega)
    rcases rest with _ | ⟨r', rest⟩
    · simp [later_capacities, hk]
    · have hlen : k + (r :: r' :: rest).length - 1 = k + 1 + (r' :: rest).length - 1 := by
        simp only [List.length_cons]
        omega
      have hlast : k ≠ k + 1 + (r' :: rest).length - 1 := by
        simp only [List.length_cons]
        omega
      rw [List.zipIdx_cons, List.map_cons, hlen, ih']
      simp only [hk, hlast, if_false]
      rfl

theorem stage_capacities_cons (r r' : Ref) (rest : List Ref) :
    stage_capacities node (r :: r' :: rest) =
      (node r).get_decoder_layer_capacity true false :: later_capacities node (r' :: rest) := by
  have hlater := stage_capacities_later node (r' :: rest) 1 (by omega)
  have hlen : (r :: r' :: rest).length - 1 = 1 + (r' :: rest).length - 1 := by
    simp only [List.length_cons]
    omega
  unfold stage_capacities
  rw [List.zipIdx_cons, List.map_cons, hlen]
  rw [Nat.zero_add, hlater]
  rfl

/-- The node has room for the range, with the ends of the model that come with it. -/
def HasRoom (num_layers : Int) (r : Ref) (start_layer end_layer : Int) : Prop :=
  end_layer - start_layer ≤ (node r).get_decoder_layer_capacity (decide (start_layer = 0))
    (decide (end_layer = num_layers))

variable {node}

/-- A range that fits with the LM head fits at any end. -/
theorem hasRoom_of_closed {num_layers start_layer end_layer : Int} {r : Ref}
    (h : end_layer - start_layer ≤
      (node r).get_decoder_layer_capacity (decide (start_layer = 0)) true) :
    HasRoom node num_layers r start_layer end_layer := by
  unfold HasRoom
  by_cases he : end_layer = num_layers
  · rw [decide_eq_true he]
    exact h
  · rw [decide_eq_false he]
    exact h.trans ((node r).get_decoder_layer_capacity_le _)

/-- A range that fits without the LM head fits before the end. -/
theorem hasRoom_of_open {num_layers start_layer end_layer : Int} {r : Ref}
    (h : end_layer - start_layer ≤
      (node r).get_decoder_layer_capacity (decide (start_layer = 0)) false)
    (hlt : end_layer < num_layers) : HasRoom node num_layers r start_layer end_layer := by
  unfold HasRoom
  rw [decide_eq_false (ne_of_lt hlt)]
  exact h

theorem within_sum_nonneg {counts caps : List Int} (h : Within counts caps) : 0 ≤ counts.sum := by
  induction h with
  | nil => exact le_rfl
  | cons hhead _ ih =>
    rw [List.sum_cons]
    omega

theorem within_sum_pos {counts caps : List Int} (h : Within counts caps)
    (hlast : ∃ count, counts.getLast? = some count ∧ 0 < count) : 0 < counts.sum := by
  induction h with
  | nil =>
    obtain ⟨count, hcount, _⟩ := hlast
    cases hcount
  | @cons count cap counts caps hhead htail ih =>
    rw [List.sum_cons]
    rcases counts with _ | ⟨count', counts⟩
    · obtain ⟨c, hc, hpos⟩ := hlast
      cases hc
      simpa using hpos
    · have hrest := ih (by simpa using hlast)
      omega

/-- Behind the first layer every stage has room for what it gets: only the last stage, which gets
some layers, reaches the end. -/
theorem later_placements_room {num_layers : Int} (rest : List Ref) (counts : List Int)
    (start_layer : Int) (hwithin : Within counts (later_capacities node rest))
    (hstart : 0 < start_layer) (hsum : start_layer + counts.sum ≤ num_layers)
    (hlast : ∃ count, counts.getLast? = some count ∧ 0 < count) :
    ∀ x ∈ placements (rest.zip counts) start_layer,
      HasRoom node num_layers x.1 x.2.1 x.2.2 := by
  induction rest generalizing counts start_layer with
  | nil =>
    intro x hx
    simp [placements] at hx
  | cons r rest ih =>
    have hstart' : decide (start_layer = 0) = false := decide_eq_false (by omega)
    rcases rest with _ | ⟨r', rest⟩
    · obtain ⟨count, counts, hhead, htail, rfl⟩ : ∃ count rest, (0 ≤ count ∧
          count ≤ (node r).get_decoder_layer_capacity false true) ∧ rest = [] ∧
            counts = count :: rest := by
        cases hwithin with
        | cons h htail =>
          cases htail
          exact ⟨_, _, h, rfl, rfl⟩
      subst htail
      intro x hx
      simp only [List.zip_cons_cons, List.zip_nil_left, placements] at hx
      split at hx
      · cases hx
      · rw [List.mem_singleton.mp hx]
        apply hasRoom_of_closed
        rw [hstart']
        have hcount := hhead.2
        simp only
        omega
    · rcases hwithin with _ | ⟨hhead, htail⟩
      rename_i count counts
      have hlast' : ∃ c, counts.getLast? = some c ∧ 0 < c := by
        rcases counts with _ | ⟨count', counts⟩
        · have hlen := htail.length_eq
          rcases rest with _ | ⟨r'', rest⟩ <;> simp [later_capacities] at hlen
        · simpa using hlast
      have hpos := within_sum_pos htail hlast'
      rw [List.sum_cons] at hsum
      intro x hx
      simp only [List.zip_cons_cons, placements] at hx
      split at hx
      · rename_i hle
        exact ih counts start_layer htail hstart (by omega) hlast' x hx
      · rename_i hle
        rcases List.mem_cons.mp hx with rfl | hx
        · apply hasRoom_of_open
          · rw [hstart']
            have hcount := hhead.2
            simp only
            omega
          · simp only
            omega
        · exact ih counts (start_layer + count) htail (by omega) (by omega) hlast' x hx

/-- Every stage of a split has room, when the first and the last stage get layers, and the only
stage of a pipeline fits with both ends. -/
theorem placements_room {num_layers : Int} (nodes : List Ref) (counts : List Int)
    (hwithin : Within counts (stage_capacities node nodes)) (hsum : counts.sum ≤ num_layers)
    (hfirst : ∃ count, counts.head? = some count ∧ 0 < count)
    (hlast : ∃ count, counts.getLast? = some count ∧ 0 < count)
    (hsingle : ∀ r, nodes = [r] → num_layers ≤ (node r).get_decoder_layer_capacity true true) :
    ∀ x ∈ placements (nodes.zip counts) 0, HasRoom node num_layers x.1 x.2.1 x.2.2 := by
  rcases nodes with _ | ⟨r, _ | ⟨r', rest⟩⟩
  · intro x hx
    simp [placements] at hx
  · have hroom := hsingle r rfl
    rcases counts with _ | ⟨count, counts⟩
    · intro x hx
      simp [placements] at hx
    · intro x hx
      simp only [List.zip_cons_cons, List.zip_nil_left, placements] at hx
      split at hx
      · cases hx
      · rw [List.mem_singleton.mp hx]
        apply hasRoom_of_closed
        have hcounts : counts = [] := by
          have hlen := hwithin.length_eq
          simpa [stage_capacities] using hlen
        subst hcounts
        simp only [List.sum_cons, List.sum_nil] at hsum
        simp only [decide_true]
        omega
  · rw [stage_capacities_cons] at hwithin
    rcases hwithin with _ | ⟨hhead, htail⟩
    rename_i count counts
    obtain ⟨c, hc, hpos⟩ := hfirst
    cases hc
    have hlast' : ∃ c, counts.getLast? = some c ∧ 0 < c := by
      rcases counts with _ | ⟨count', counts⟩
      · have hlen := htail.length_eq
        rcases rest with _ | ⟨r'', rest⟩ <;> simp [later_capacities] at hlen
      · simpa using hlast
    have hrest := within_sum_pos htail hlast'
    rw [List.sum_cons] at hsum
    intro x hx
    simp only [List.zip_cons_cons, placements] at hx
    rw [if_neg (by omega)] at hx
    rcases List.mem_cons.mp hx with rfl | hx
    · apply hasRoom_of_open
      · have hcount := hhead.2
        simp only [decide_true]
        omega
      · simp only
        omega
    · exact later_placements_room (r' :: rest) counts (0 + count) htail (by omega) (by omega) hlast'
        x hx

end stages

/-! ## Joins and the greedy split -/

theorem join_room (a : Allocator) (r : Ref) (start_layer : Int) :
    HasRoom a.store a.num_total_layers r start_layer
      (a.adjust_end_layer_for_tail (a.store r) start_layer) := by
  unfold adjust_end_layer_for_tail
  dsimp only
  split
  · apply hasRoom_of_closed
    have hle := min_le_left (start_layer +
      (a.store r).get_decoder_layer_capacity (decide (start_layer = 0)) true) a.num_total_layers
    omega
  · rename_i hne
    have hle := min_le_left (start_layer +
      (a.store r).get_decoder_layer_capacity (decide (start_layer = 0)) false) a.num_total_layers
    have hlt := lt_of_le_of_ne (min_le_right _ _) hne
    apply hasRoom_of_open _ hlt
    omega

theorem greedy_room (a : Allocator) (r : Ref) {start_layer remaining_layers : Int}
    (hsum : start_layer + remaining_layers = a.num_total_layers) :
    HasRoom a.store a.num_total_layers r start_layer
      (start_layer + greedy_layers (a.store r) start_layer remaining_layers) := by
  unfold greedy_layers
  dsimp only
  split
  · apply hasRoom_of_closed
    have hle := min_le_left
      ((a.store r).get_decoder_layer_capacity (decide (start_layer = 0)) true) remaining_layers
    omega
  · have hle := min_le_left
      ((a.store r).get_decoder_layer_capacity (decide (start_layer = 0)) false) remaining_layers
    apply hasRoom_of_open
    · omega
    · omega

/-! ## Runs -/

/-- Every allocated node has room for its layers, with the embedding and the LM head where it
gets them. -/
def CapacityHeld (a : Allocator) : Prop :=
  ∀ id r start_layer end_layer, a.node_id_to_node.get? id = some r →
    (a.store r).start_layer = some start_layer → (a.store r).end_layer = some end_layer →
      end_layer - start_layer ≤ (a.store r).get_decoder_layer_capacity
        (decide (start_layer = 0)) (decide (end_layer = a.num_total_layers))

/-- The room for the two ends is set aside on the nodes that get them: the branch that skips a
stage without layers is not taken for the first or the last stage, and the only node of a
pipeline can hold all layers next to both ends. -/
def EndsReserved (a : Allocator) (pipeline : List Ref) : Prop :=
  ∀ counts, stage_counts a (stage_order a pipeline false) .flops = .ok counts →
    (∃ count, counts.head? = some count ∧ 0 < count) ∧
      (∃ count, counts.getLast? = some count ∧ 0 < count) ∧
        ∀ r, pipeline = [r] →
          a.num_total_layers ≤ (a.store r).get_decoder_layer_capacity true true

/-- The room is reserved in every pipeline that water-filling is going to split. -/
def Call.Reserves (a : Allocator) : Call → Prop
  | .global_allocation => splits_by a = .water_filling →
    ∀ pipeline ∈ searched_pipelines a, EndsReserved a pipeline
  | _ => True

/-- The calls that choose the ranges by themselves. -/
def Call.Automatic : Call → Prop
  | .join _ | .leave _ | .global_allocation | .allocate_left_over_nodes => True
  | .adjust_pipeline_layers .. | .reallocate .. => False

/-- The states that automatic calls reach, with the room for the ends reserved. -/
inductive ReachableReserved (a₀ : Allocator) : Allocator → Prop
  | start : ReachableReserved a₀ a₀
  | call {a : Allocator} {c : Call} : ReachableReserved a₀ a → c.Automatic → c.Allowed a →
    c.Reserves a → ReachableReserved a₀ (c.after a)

/-- The invariant of a run: the nodes are those of the start, up to their ranges, and each range
fits. -/
structure Fits (a₀ a : Allocator) : Prop where
  alike : Alike a₀ a
  views : Views a
  room : ∀ id r start_layer end_layer, a.node_id_to_node.get? id = some r →
    a.node_allocation.get? id = some (start_layer, end_layer) →
      HasRoom a₀.store a₀.num_total_layers r start_layer end_layer

theorem Alike.num_total_layers {a a' : Allocator} (h : Alike a a') :
    a'.num_total_layers = a.num_total_layers := by
  unfold Allocator.num_total_layers
  rw [h.model_info]

theorem Alike.hasRoom {a a' : Allocator} (h : Alike a a') {r : Ref} {start_layer end_layer : Int} :
    HasRoom a'.store a'.num_total_layers r start_layer end_layer ↔
      HasRoom a.store a.num_total_layers r start_layer end_layer := by
  unfold HasRoom
  rw [h.num_total_layers, h.layer_capacity]

theorem Fits.capacityHeld {a₀ a : Allocator} (h : Fits a₀ a) : CapacityHeld a := by
  intro id r s e hr hs he
  have hranges := h.views.ranges id r hr
  rw [hs, he] at hranges
  have halloc : a.node_allocation.get? id = some (s, e) := by
    rcases hp : a.node_allocation.get? id with _ | ⟨s', e'⟩
    · rw [hp] at hranges
      cases hranges.1
    · rw [hp] at hranges
      simp only [Option.map_some, Option.some.injEq] at hranges
      rw [hranges.1, hranges.2]
  exact h.alike.hasRoom.mpr (h.room id r s e hr halloc)

theorem allocate_fits {a₀ a : Allocator} {r : Ref} {start_layer end_layer : Int} (h : Fits a₀ a)
    (hr : Free a r)
    (hroom : start_layer < end_layer →
      HasRoom a₀.store a₀.num_total_layers r start_layer end_layer) :
    Fits a₀ (stateOf (allocate r start_layer end_layer a)) := by
  refine ⟨h.alike.trans (allocate_moved a r _ _).alike, allocate_views h.views hr _ _, ?_⟩
  by_cases hlt : start_layer < end_layer
  · have hrecorded : ∀ id r' s e,
        (a.record_allocation r start_layer end_layer).node_id_to_node.get? id = some r' →
        (a.record_allocation r start_layer end_layer).node_allocation.get? id = some (s, e) →
          HasRoom a₀.store a₀.num_total_layers r' s e := by
      intro id r' s e hr' hse
      rw [record_get_allocation] at hse
      have hget : (a.record_allocation r start_layer end_layer).node_id_to_node.get? id =
          if a.node_id r = id then some r else a.node_id_to_node.get? id := Dict.get?_insert _ _ _ _
      rw [hget] at hr'
      by_cases hid : a.node_id r = id
      · rw [if_pos hid] at hr' hse
        cases hr'
        cases hse
        exact hroom hlt
      · rw [if_neg hid] at hr' hse
        exact h.room id r' s e hr' hse
    by_cases hfits : a.fits start_layer end_layer
    · obtain ⟨loads, hrun, _⟩ := allocate_ok (r := r) hlt hfits
      rw [hrun]
      exact hrecorded
    · obtain ⟨e, loads, hrun, _⟩ := allocate_outside (r := r) hlt hfits
      rw [hrun]
      exact hrecorded
  · obtain ⟨e, hrun⟩ := allocate_empty (a := a) (r := r) (not_lt.mp hlt)
    rw [hrun]
    exact h.room

theorem deallocate_fits {a₀ a : Allocator} {r : Ref} (h : Fits a₀ a) (hr : Usable a r) :
    Fits a₀ (stateOf (deallocate r a)) := by
  refine ⟨h.alike.trans (deallocate_moved a r).alike, deallocate_views h.views hr, ?_⟩
  rcases deallocate_cases a r with ⟨_, hrun⟩ | ⟨s, e, loads, _, _, hrun, _⟩
  · rw [hrun]
    exact h.room
  · rw [hrun]
    intro id r' s' e' hr' hse
    simp only [stateOf] at hse
    rw [forget_get_allocation] at hse
    split at hse
    · cases hse
    · exact h.room id r' s' e' hr' hse

theorem fits_kept (a₀ : Allocator) :
    Kept (Fits a₀) (HasRoom a₀.store a₀.num_total_layers) where
  views := fun _ h => h.views
  allocates := fun _ _ _ _ h hr hroom => allocate_fits h hr hroom
  deallocates := fun _ _ h hr => deallocate_fits h hr
  sorts := fun _ h => ⟨h.alike.trans ⟨rfl, rfl, rfl, rfl, rfl, rfl, fun _ => rfl⟩,
    h.views.sort_nodes, h.room⟩
  registers := by
    intro a r h hnew hidle
    refine ⟨h.alike.trans ⟨rfl, rfl, rfl, rfl, rfl, rfl, fun _ => rfl⟩,
      h.views.register hnew hidle, ?_⟩
    intro id r' s e hr' hse
    have hget : (a.register r).node_id_to_node.get? id =
        if a.node_id r = id then some r else a.node_id_to_node.get? id := Dict.get?_insert _ _ _ _
    have hse' : a.node_allocation.get? id = some (s, e) := hse
    obtain ⟨r₁, hr₁⟩ := h.views.registered id _ hse'
    rw [hget] at hr'
    split at hr'
    · rename_i hid
      rw [← hid, hnew] at hr₁
      cases hr₁
    · exact h.room id r' s e hr' hse'
  unregisters := by
    intro a id r h hget hidle
    refine ⟨h.alike.trans ⟨rfl, rfl, rfl, rfl, rfl, rfl, fun _ => rfl⟩,
      h.views.unregister hget hidle, ?_⟩
    intro id' r' s e hr' hse
    have hget' : (a.unregister id).node_id_to_node.get? id' =
        if id = id' then none else a.node_id_to_node.get? id' := Dict.get?_erase _ _ _
    rw [hget'] at hr'
    split at hr'
    · cases hr'
    · exact h.room id' r' s e hr' hse
  joins := fun a r l h _ => h.alike.hasRoom.mp (join_room a r l)
  shares := fun a r _ _ h _ hsum => h.alike.hasRoom.mp (greedy_room a r hsum)

theorem split_room {a : Allocator} {pipeline : List Ref} (h : EndsReserved a pipeline) :
    SplitOk (HasRoom a.store a.num_total_layers) a pipeline false .flops := by
  intro counts hfull hcounts
  have hpositive := full_stage_none (stage_capacities_length _ _) hfull
  obtain ⟨hwithin, hsum⟩ := stage_layer_counts.spec hpositive
    (by simp [stage_capacities_length]) hcounts
  obtain ⟨hfirst, hlast, hsingle⟩ := h counts hcounts
  apply placements_room _ counts hwithin hsum hfirst hlast
  intro r hr
  apply hsingle r
  have hperm := stage_order_perm a pipeline false
  rw [hr] at hperm
  exact List.perm_singleton.mp hperm.symm

theorem fits_call {a₀ a : Allocator} {c : Call} (h : Fits a₀ a) (hauto : c.Automatic)
    (hc : c.Allowed a) (hreserved : c.Reserves a) : Fits a₀ (c.after a) := by
  have K := fits_kept a₀
  cases c with
  | join r =>
    have hfree : Free a r := ⟨Or.inr hc, hc.2⟩
    exact (Triple.state (K.join [] (r := r)) ⟨h, hfree, fun _ hr => by cases hr⟩).1
  | leave node_id => exact K.leave h node_id
  | global_allocation =>
    apply K.global_allocation h
    intro hsplits pipeline hp counts hfull hcounts x hx
    exact h.alike.hasRoom.mp (split_room (hreserved hsplits pipeline hp) counts hfull hcounts x hx)
  | allocate_left_over_nodes => exact K.allocate_left_over_nodes.state h
  | adjust_pipeline_layers nodes assume_sorted power_type => cases hauto
  | reallocate r start_layer end_layer => cases hauto

section init

variable {store : Ref → Node} {m : ModelInfo} {strategy : Strategy} {nodes : List Ref}
  {rebalance_threshold : WithTop Rat} {iterations : Nat} {left_over : Bool}

/-- In every run whose allocations reserve the room for the two ends on the nodes that get them,
every node has room for its layers. -/
theorem capacity_is_held_while_ends_are_reserved
    (hids : (nodes.map (fun r => (store r).node_id)).Nodup) (hidle : ∀ r ∈ nodes, Idle (store r))
    {a : Allocator}
    (hrun : ReachableReserved
      (Allocator.init store m strategy nodes rebalance_threshold iterations left_over) a) :
    CapacityHeld a := by
  have hfits : Fits (Allocator.init store m strategy nodes rebalance_threshold iterations left_over)
      a := by
    induction hrun with
    | start =>
      refine ⟨Alike.refl _, init_views hids hidle, ?_⟩
      intro id r s e _ hse
      cases hse
    | call _ hauto hc hreserved ih => exact fits_call ih hauto hc hreserved
  exact hfits.capacityHeld

end init

/-- Two nodes that share the layers, and a third one that joins. -/
theorem shared_pool_has_room :
    CapacityHeld ((Call.join 2).after (Call.global_allocation.after
      (pool (mixed_store (build_model_info 15)) (build_model_info 15) 2))) := by
  have hsearch : searched_pipelines
      (pool (mixed_store (build_model_info 15)) (build_model_info 15) 2) = [[0, 1]] := by
    decide +kernel
  have hcounts : stage_counts (pool (mixed_store (build_model_info 15)) (build_model_info 15) 2)
      (stage_order (pool (mixed_store (build_model_info 15)) (build_model_info 15) 2) [0, 1] false)
        .flops = .ok [9, 6] := by
    decide +kernel
  refine capacity_is_held_while_ends_are_reserved (by decide) (by decide)
    (.call (.call .start trivial trivial ?_) trivial ⟨by decide +kernel, by decide +kernel⟩ trivial)
  intro _ pipeline hp counts hrun
  have hpipeline : pipeline = [0, 1] := by
    rw [← List.mem_singleton, ← hsearch]
    exact hp
  subst hpipeline
  have hok := hcounts.symm.trans hrun
  cases hok
  exact ⟨⟨9, rfl, by decide⟩, ⟨6, rfl, by decide⟩, fun r hr => by cases hr⟩

/-- A node with room for six layers and the embedding becomes a pipeline of its own, and gets the
LM head as well: next to both ends it has room for five layers. -/
theorem single_node_holds_too_much :
    ∃ a, global_allocation
        (pool (fun _ => a100_40g (build_model_info 6) "a") (build_model_info 6) 1) = .ok true a ∧
      ¬ CapacityHeld a := by
  have hrun : (match global_allocation
      (pool (fun _ => a100_40g (build_model_info 6) "a") (build_model_info 6) 1) with
    | .error _ _ => false
    | .ok initialized a => decide (initialized = true ∧ a.node_id_to_node.get? "a" = some 0 ∧
        (a.store 0).start_layer = some 0 ∧ (a.store 0).end_layer = some 6 ∧
          a.num_total_layers = 6 ∧ (a.store 0).get_decoder_layer_capacity true true = 5)) = true := by
    decide +kernel
  split at hrun
  · cases hrun
  · rename_i initialized a hok
    obtain ⟨rfl, hget, hs, he, hlayers, hroom⟩ := of_decide_eq_true hrun
    refine ⟨a, hok, ?_⟩
    intro hheld
    have hle := hheld "a" 0 0 6 hget hs he
    rw [hlayers] at hle
    simp [hroom] at hle

end scheduling.layer_allocation
