-- A full pipeline is a chain of ranges from the first layer to the end of the
-- model. The search finds a chain whenever there is one, and nodes that join
-- later never break it.
import InferenceMesh.Scheduling.Bookkeeping
import Mathlib.Logic.Relation

open ordered_dict python state_exn
open scheduling.model_info scheduling.node

namespace scheduling.layer_allocation

open Allocator

/-! ## Chains -/

/-- Some node, an active one if asked for, has exactly the layers between the two. -/
def Allocator.Spans (a : Allocator) (active_only : Bool) (start_layer end_layer : Int) : Prop :=
  ∃ id r, a.node_id_to_node.get? id = some r ∧
    a.node_allocation.get? id = some (start_layer, end_layer) ∧
      (active_only = true → (a.store r).is_active = true)

/-- Ranges that follow each other lead from the first layer to the second one. -/
def Allocator.Chain (a : Allocator) (active_only : Bool) : Int → Int → Prop :=
  Relation.ReflTransGen (a.Spans active_only)

theorem mem_start_to_nodes {a : Allocator} {active_only : Bool} {start_layer : Int} {r : Ref} :
    (start_layer, r) ∈ a.start_to_nodes active_only ↔
      ∃ id end_layer, a.node_id_to_node.get? id = some r ∧
        a.node_allocation.get? id = some (start_layer, end_layer) ∧
          (active_only = true → (a.store r).is_active = true) := by
  unfold start_to_nodes
  rw [List.mem_filterMap]
  constructor
  · rintro ⟨⟨id, s, e⟩, hmem, hx⟩
    rcases hget : a.node_id_to_node.get? id with _ | r'
    · simp [hget] at hx
    · simp only [hget] at hx
      split at hx
      · cases hx
      · rename_i hactive
        cases hx
        refine ⟨id, e, hget, Dict.get?_eq_some.mpr hmem, ?_⟩
        intro ht
        simpa [ht] using hactive
  · rintro ⟨id, e, hget, halloc, hactive⟩
    refine ⟨(id, start_layer, e), Dict.get?_eq_some.mp halloc, ?_⟩
    have hcond : ¬ (active_only && !(a.store r).is_active) = true := by
      rw [Bool.and_eq_true]
      rintro ⟨ht, hf⟩
      rw [hactive ht] at hf
      cases hf
    simp only [hget, if_neg hcond]

section

variable {a : Allocator} {active_only : Bool}

theorem Spans.lt (hviews : Views a) {s e : Int} (h : a.Spans active_only s e) : s < e := by
  obtain ⟨id, _, _, halloc, _⟩ := h
  exact hviews.ascending id s e halloc

theorem Chain.le (hviews : Views a) {s e : Int} (h : a.Chain active_only s e) : s ≤ e := by
  induction h with
  | refl => exact le_rfl
  | tail _ hstep ih => exact ih.trans (Spans.lt hviews hstep).le

/-- The nodes of the index that start at a layer, by the ends of their ranges. -/
theorem index_any (hviews : Views a) (start_layer : Int) (p : Int → Bool) :
    (a.start_to_nodes active_only).any (fun x => x.1 = start_layer &&
        match (a.store x.2).end_layer with
        | none => false
        | some e => p e) = true ↔
      ∃ e, a.Spans active_only start_layer e ∧ p e = true := by
  rw [List.any_eq_true]
  constructor
  · rintro ⟨⟨s, r⟩, hmem, hx⟩
    obtain ⟨id, e, hget, halloc, hactive⟩ := mem_start_to_nodes.mp hmem
    have hend := (hviews.ranges id r hget).2
    rw [halloc] at hend
    rw [Bool.and_eq_true, decide_eq_true_eq] at hx
    obtain ⟨hs, hp⟩ := hx
    simp only [hend, Option.map_some] at hp
    simp only at hs
    subst hs
    exact ⟨e, ⟨id, r, hget, halloc, hactive⟩, hp⟩
  · rintro ⟨e, ⟨id, r, hget, halloc, hactive⟩, hp⟩
    have hend := (hviews.ranges id r hget).2
    rw [halloc] at hend
    refine ⟨(start_layer, r), mem_start_to_nodes.mpr ⟨id, e, hget, halloc, hactive⟩, ?_⟩
    simp only [hend, Option.map_some, hp]
    simp

/-- The search reaches the end of the model exactly when a chain does. -/
theorem can_reach_target.spec (hviews : Views a) (fuel : Nat) (current_end : Int)
    (hfuel : (a.num_total_layers - current_end).toNat < fuel) (hpos : 0 < current_end) :
    a.can_reach_target (a.start_to_nodes active_only) fuel current_end = true ↔
      a.Chain active_only current_end a.num_total_layers := by
  induction fuel generalizing current_end with
  | zero => omega
  | succ fuel ih =>
    unfold can_reach_target
    split
    · rename_i hge
      rw [decide_eq_true_eq]
      constructor
      · intro heq
        rw [heq]
        exact Relation.ReflTransGen.refl
      · intro hchain
        exact le_antisymm (Chain.le hviews hchain) hge
    · rename_i hlt
      refine (index_any hviews current_end (fun e => e ≠ 0 && e > current_end &&
        a.can_reach_target (a.start_to_nodes active_only) fuel e)).trans ?_
      constructor
      · rintro ⟨e, hspan, he⟩
        simp only [Bool.and_eq_true, decide_eq_true_eq] at he
        obtain ⟨⟨_, hgt⟩, hreach⟩ := he
        exact Relation.ReflTransGen.head hspan ((ih e (by omega) (by omega)).mp hreach)
      · intro hchain
        rcases Relation.ReflTransGen.cases_head hchain with heq | ⟨e, hspan, hrest⟩
        · omega
        · have hgt := Spans.lt hviews hspan
          refine ⟨e, hspan, ?_⟩
          simp only [Bool.and_eq_true, decide_eq_true_eq]
          exact ⟨⟨by omega, hgt⟩, (ih e (by omega) (by omega)).mpr hrest⟩

/-- There is a full pipeline exactly when a chain leads over all layers, and there is a layer. -/
theorem has_full_pipeline_iff (hviews : Views a) :
    a.has_full_pipeline active_only = true ↔
      0 < a.num_total_layers ∧ a.Chain active_only 0 a.num_total_layers := by
  unfold has_full_pipeline
  refine (index_any hviews 0 (fun e => e ≠ 0 && a.can_reach_target
    (a.start_to_nodes active_only) (a.layers_left e) e)).trans ?_
  have hreach : ∀ e, 0 < e → (a.can_reach_target (a.start_to_nodes active_only) (a.layers_left e) e =
      true ↔ a.Chain active_only e a.num_total_layers) :=
    fun e he => can_reach_target.spec hviews _ e (Nat.lt_succ_self _) he
  constructor
  · rintro ⟨e, hspan, he⟩
    have hpos := Spans.lt hviews hspan
    simp only [Bool.and_eq_true, decide_eq_true_eq] at he
    have hchain := (hreach e hpos).mp he.2
    exact ⟨hpos.trans_le (Chain.le hviews hchain), Relation.ReflTransGen.head hspan hchain⟩
  · rintro ⟨hlayers, hchain⟩
    rcases Relation.ReflTransGen.cases_head hchain with heq | ⟨e, hspan, hrest⟩
    · omega
    · have hpos := Spans.lt hviews hspan
      refine ⟨e, hspan, ?_⟩
      simp only [Bool.and_eq_true, decide_eq_true_eq]
      exact ⟨by omega, (hreach e hpos).mpr hrest⟩

end

/-! ## New allocations -/

/-- The ranges of an earlier state are still there. -/
def Extends (a₀ a : Allocator) : Prop := ∀ s e, a₀.Spans false s e → a.Spans false s e

theorem Extends.refl (a : Allocator) : Extends a a := fun _ _ h => h

theorem Extends.trans {a b c : Allocator} (h : Extends a b) (h' : Extends b c) : Extends a c :=
  fun s e hs => h' s e (h s e hs)

theorem Extends.chain {a₀ a : Allocator} (h : Extends a₀ a) {s e : Int}
    (hchain : a₀.Chain false s e) : a.Chain false s e :=
  Relation.ReflTransGen.mono h _ _ hchain

/-- A node without a range gets one, and no other node loses its own. -/
theorem record_extends {a : Allocator} {r : Ref} (hviews : Views a) (hr : Free a r)
    (start_layer end_layer : Int) :
    Extends a (a.record_allocation r start_layer end_layer) ∧
      (a.record_allocation r start_layer end_layer).Spans false start_layer end_layer := by
  have hget : ∀ id, (a.record_allocation r start_layer end_layer).node_id_to_node.get? id =
      if a.node_id r = id then some r else a.node_id_to_node.get? id :=
    fun id => Dict.get?_insert _ _ _ _
  have halloc := record_get_allocation a r start_layer end_layer
  constructor
  · rintro s e ⟨id, r', hr', hse, _⟩
    have hne : a.node_id r ≠ id := by
      intro heq
      rw [← heq, hviews.unallocated_of_free hr] at hse
      cases hse
    refine ⟨id, r', ?_, ?_, fun h => by cases h⟩
    · rw [hget, if_neg hne]
      exact hr'
    · rw [halloc, if_neg hne]
      exact hse
  · refine ⟨a.node_id r, r, ?_, ?_, fun h => by cases h⟩
    · rw [hget, if_pos rfl]
    · rw [halloc, if_pos rfl]

/-- An allocation inside the model returns, and adds its range to those that were there. -/
theorem allocate_returns {a : Allocator} {r : Ref} {start_layer end_layer : Int} (hviews : Views a)
    (hr : Free a r) (hlt : start_layer < end_layer) (hfits : a.fits start_layer end_layer) :
    ∃ a', allocate r start_layer end_layer a = .ok () a' ∧ Extends a a' ∧
      a'.Spans false start_layer end_layer := by
  obtain ⟨loads, hrun, _⟩ := allocate_ok (r := r) hlt hfits
  obtain ⟨hextends, hspan⟩ := record_extends hviews hr start_layer end_layer
  exact ⟨_, hrun, hextends, hspan⟩

theorem allocate_extends {a : Allocator} {r : Ref} (hviews : Views a) (hr : Free a r)
    (start_layer end_layer : Int) :
    Extends a (stateOf (allocate r start_layer end_layer a)) := by
  obtain ⟨hextends, _⟩ := record_extends hviews hr start_layer end_layer
  by_cases hlt : start_layer < end_layer
  · by_cases hfits : a.fits start_layer end_layer
    · obtain ⟨loads, hrun, _⟩ := allocate_ok (r := r) hlt hfits
      rw [hrun]
      exact hextends
    · obtain ⟨e, loads, hrun, _⟩ := allocate_outside (r := r) hlt hfits
      rw [hrun]
      exact hextends
  · obtain ⟨e, hrun⟩ := allocate_empty (a := a) (r := r) (not_lt.mp hlt)
    rw [hrun]
    exact Extends.refl a

/-! ## Nodes that join later -/

theorem join_left_over_extends {a : Allocator} {r : Ref} (hviews : Views a) (hr : r ∈ a.nodes) :
    Extends a (stateOf (join_left_over r a)) := by
  have hreg := hviews.listed r hr
  have hhas : a.node_id_to_node.has (a.node_id r) = true := Dict.has_iff.mpr ⟨r, hreg⟩
  by_cases halloc : a.node_allocation.has (a.node_id r) = true
  · have hrun : join_left_over r a = .ok () a := by
      unfold join_left_over
      rw [get_bind, if_pos halloc]
      rfl
    rw [hrun]
    exact Extends.refl a
  · have hnone : a.node_allocation.get? (a.node_id r) = none :=
      Dict.has_eq_false.mp (by simpa using halloc)
    have hfree : Free a.sort_nodes r := ⟨Or.inl hreg, hviews.idle_of_unallocated hreg hnone⟩
    have hdeclare := declare_known hhas
    have hjoin : Extends a (stateOf (join r a)) := by
      unfold join
      rw [bind_of_ok hdeclare, get_bind]
      rcases a.sort_nodes.get_lightest_layer with _ | l
      · exact Extends.refl a
      · exact allocate_extends hviews.sort_nodes hfree _ _
    have hcatch : stateOf (join_left_over r a) = stateOf (join r a) := by
      unfold join_left_over
      rw [get_bind, if_neg halloc]
      rcases hrun : join r a with ⟨u, s⟩ | ⟨e, s⟩
      · rw [tryCatch_of_ok hrun]
      · rw [tryCatch_of_error hrun]
        rfl
    rw [hcatch]
    exact hjoin

/-- The nodes that are left over join without an exception, and leave all ranges in place. -/
theorem allocate_left_over_nodes_extends {m : ModelInfo} {a : Allocator}
    (h : BookkeepingAgrees m a) :
    ∃ a', allocate_left_over_nodes a = .ok () a' ∧ BookkeepingAgrees m a' ∧ Extends a a' := by
  have K := bookkeeping_kept m
  have hreturns : ∀ r b, ∃ b', join_left_over r b = .ok () b' := by
    intro r b
    unfold join_left_over
    rw [get_bind]
    split
    · exact ⟨b, rfl⟩
    · rcases hrun : join r b with ⟨u, s⟩ | ⟨e, s⟩
      · exact ⟨s, tryCatch_of_ok hrun⟩
      · exact ⟨s, tryCatch_of_error hrun⟩
  have hloop : Triple
      (fun b => (BookkeepingAgrees m b ∧ ∀ r' ∈ sorted_desc a.capacity a.nodes, r' ∈ b.nodes) ∧
        Extends a b)
      ((sorted_desc a.capacity a.nodes).forM join_left_over)
      (fun _ b => BookkeepingAgrees m b ∧ Extends a b) (fun _ _ => False) := by
    have hsteps := Triple.forEach (E := fun (_ : Exn) (_ : Allocator) => False)
      (I := fun rest b =>
        ((BookkeepingAgrees m b ∧ ∀ r' ∈ sorted_desc a.capacity a.nodes, r' ∈ b.nodes) ∧
          Extends a b) ∧ ∀ r ∈ rest, r ∈ sorted_desc a.capacity a.nodes)
      (f := join_left_over) (sorted_desc a.capacity a.nodes)
      (by
        rintro r rest b ⟨⟨hb, hextends⟩, hsub⟩
        have hr := hsub r List.mem_cons_self
        have hkeeps := (K.join_left_over hr).state hb
        have hmore := join_left_over_extends hb.1.views (hb.2 r hr)
        obtain ⟨b', hrun⟩ := hreturns r b
        rw [hrun] at hkeeps hmore ⊢
        exact ⟨⟨hkeeps, hextends.trans hmore⟩, fun r' hr' => hsub r' (List.mem_cons_of_mem _ hr')⟩)
    refine Triple.mono hsteps ?_ (fun _ _ h => ⟨h.1.1.1, h.1.2⟩) (fun _ _ h => h)
    exact fun b hb => ⟨hb, fun _ hr => hr⟩
  have hrun := hloop a ⟨⟨h, fun r hr => (sorted_desc_perm _ _).mem_iff.mp hr⟩, Extends.refl a⟩
  unfold allocate_left_over_nodes
  rw [get_bind]
  split at hrun
  · rename_i u a' heq
    exact ⟨a', heq, hrun.1, hrun.2⟩
  · exact hrun.elim

end scheduling.layer_allocation
