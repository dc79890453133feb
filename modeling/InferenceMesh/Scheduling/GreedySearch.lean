-- What the greedy search finds. It takes the nodes in one fixed order, so it
-- finds a pipeline exactly when some first nodes of that order close one.
import InferenceMesh.Scheduling.PipelineCharges

open ordered_dict python
open scheduling.model_info scheduling.node

namespace scheduling.layer_allocation

open Allocator

/-- What the greedy search charges the first node of a pipeline: the embedding, and the LM head as
well when the node could be the only one. -/
def opening_charge (n : Node) (num_layers : Int) : Int :=
  if num_layers - n.get_decoder_layer_capacity true false ≤ 0 then
    n.get_decoder_layer_capacity true true
  else n.get_decoder_layer_capacity true false

/-- Where the first node of the next pipeline stands. -/
def first_index (a : Allocator) (look_ahead : Bool) (available_nodes : List Ref) : Nat :=
  let total_capacity := (available_nodes.map a.capacity).sum
  if look_ahead && total_capacity - a.num_total_layers ≥ a.num_total_layers + 1 then
    (best_fit a available_nodes a.num_total_layers total_capacity).getD 0
  else 0

/-- The order in which the greedy search takes the nodes: the best fit in front, if the search
looks ahead and there is one. -/
def taking_order (a : Allocator) (look_ahead : Bool) (available_nodes : List Ref) : List Ref :=
  match available_nodes[first_index a look_ahead available_nodes]? with
  | none => []
  | some x => x :: available_nodes.eraseIdx (first_index a look_ahead available_nodes)

/-- The nodes are a pipeline of the greedy search. -/
def ClosesGreedily (a : Allocator) : List Ref → Prop
  | [] => False
  | x :: rest =>
    Closes a.store (a.num_total_layers - opening_charge (a.store x) a.num_total_layers) rest

instance (a : Allocator) (nodes : List Ref) : Decidable (ClosesGreedily a nodes) :=
  match nodes with
  | [] => inferInstanceAs (Decidable False)
  | x :: rest => inferInstanceAs (Decidable (Closes a.store
      (a.num_total_layers - opening_charge (a.store x) a.num_total_layers) rest))

theorem opening_charge_le (n : Node) (num_layers : Int) :
    opening_charge n num_layers ≤ n.get_decoder_layer_capacity true false := by
  unfold opening_charge
  split
  · exact n.get_decoder_layer_capacity_le true
  · exact le_rfl

/-! ## One pipeline -/

/-- A pipeline that has begun takes the available nodes in turn, until it is closed or they are
used up. -/
theorem grow_pipeline.spec (a : Allocator) (look_ahead : Bool) (fuel : Nat) (available : List Ref)
    (pipeline : List Ref) (remaining total : Int) (hne : pipeline ≠ [])
    (hfuel : available.length ≤ fuel) :
    ∃ taken remaining' left,
      grow_pipeline a look_ahead fuel pipeline remaining total available =
        (pipeline ++ taken, remaining', left) ∧ available = taken ++ left ∧
      ((remaining' ≤ 0 ∧ Closes a.store remaining taken) ∨
        (0 < remaining' ∧ ∀ nodes, nodes <+: available → ¬ Closes a.store remaining nodes)) := by
  induction fuel generalizing available pipeline remaining total with
  | zero =>
    have hnil := List.length_eq_zero_iff.mp (Nat.le_zero.mp hfuel)
    subst hnil
    refine ⟨[], remaining, [], by simp [grow_pipeline], rfl, ?_⟩
    by_cases hle : remaining ≤ 0
    · exact Or.inl ⟨hle, hle⟩
    · refine Or.inr ⟨not_le.mp hle, ?_⟩
      intro nodes hbegins hcloses
      rw [List.prefix_nil.mp hbegins] at hcloses
      exact hle hcloses
  | succ fuel ih =>
    unfold grow_pipeline
    split
    · rename_i hpos
      rcases available with _ | ⟨r, rest⟩
      · refine ⟨[], remaining, [], by simp, rfl, Or.inr ⟨hpos, ?_⟩⟩
        intro nodes hbegins hcloses
        rw [List.prefix_nil.mp hbegins] at hcloses
        exact absurd hcloses (not_le.mpr hpos)
      · have hstart : pipeline.isEmpty = false := by simpa using hne
        obtain ⟨taken, remaining', left, hrun, hsplit, hcases⟩ := ih rest (pipeline ++ [r])
          (remaining - charge (a.store r) remaining) (total - charge (a.store r) remaining)
          (by simp) (by simpa using hfuel)
        refine ⟨r :: taken, remaining', left, ?_, by rw [hsplit]; rfl, ?_⟩
        · simp only [hstart, Bool.and_false, Bool.false_and, Bool.false_eq_true, if_false,
            List.getD_cons_zero, List.eraseIdx_cons_zero]
          rw [List.append_assoc] at hrun
          exact hrun
        · rcases hcases with ⟨hle, hcloses⟩ | ⟨hgt, hnone⟩
          · exact Or.inl ⟨hle, hpos, hcloses⟩
          · refine Or.inr ⟨hgt, ?_⟩
            intro nodes hbegins hcloses
            rcases nodes with _ | ⟨r', nodes⟩
            · exact absurd hcloses (not_le.mpr hpos)
            · obtain ⟨rfl, hbegins'⟩ := List.cons_prefix_cons.mp hbegins
              exact hnone nodes hbegins' hcloses.2
    · rename_i hle
      have hle' := not_lt.mp hle
      exact ⟨[], remaining, available, by simp, rfl, Or.inl ⟨hle', hle'⟩⟩

/-- The best fit could hold all layers next to one end of the model. -/
theorem best_fit.spec {a : Allocator} {available_nodes : List Ref} {remaining total : Int} {i : Nat}
    (h : best_fit a available_nodes remaining total = some i) :
    ∃ x, available_nodes[i]? = some x ∧
      remaining ≤ (a.store x).get_decoder_layer_capacity false true := by
  unfold best_fit at h
  rw [Option.map_eq_some_iff] at h
  obtain ⟨⟨x, j⟩, hx, rfl⟩ := h
  obtain ⟨hmem, hfit⟩ := List.mem_filter.mp (List.mem_of_getLast? hx)
  simp only [ge_iff_le, Bool.and_eq_true, decide_eq_true_eq] at hfit
  exact ⟨x, List.getElem?_eq_some_iff.mpr (by
    obtain ⟨hlt, heq⟩ := List.mem_zipIdx' hmem
    exact ⟨hlt, heq.symm⟩), hfit.1⟩

/-- The first node is the first of the list, or it could hold all layers by itself. -/
theorem first_index.spec (a : Allocator) (look_ahead : Bool) {available_nodes : List Ref}
    (hne : available_nodes ≠ []) :
    ∃ x, available_nodes[first_index a look_ahead available_nodes]? = some x ∧
      (first_index a look_ahead available_nodes = 0 ∨
        a.num_total_layers ≤ (a.store x).get_decoder_layer_capacity false true) := by
  obtain ⟨y, rest, rfl⟩ := List.exists_cons_of_ne_nil hne
  unfold first_index
  dsimp only
  split
  · rcases hbest : best_fit a (y :: rest) a.num_total_layers ((y :: rest).map a.capacity).sum with
      _ | i
    · exact ⟨y, rfl, Or.inl rfl⟩
    · obtain ⟨x, hx, hfit⟩ := best_fit.spec hbest
      exact ⟨x, hx, Or.inr hfit⟩
  · exact ⟨y, rfl, Or.inl rfl⟩

/-- The first pipeline: it takes nodes in the order of the search, and closes whenever some first
nodes of that order do. -/
theorem grow_first.spec (a : Allocator) (look_ahead : Bool) {available : List Ref}
    (hne : available ≠ []) (hlayers : 0 < a.num_total_layers) :
    ∃ x taken remaining left,
      grow_pipeline a look_ahead available.length [] a.num_total_layers
        (available.map a.capacity).sum available = (x :: taken, remaining, left) ∧
      taking_order a look_ahead available = x :: (taken ++ left) ∧
      ((remaining ≤ 0 ∧ ClosesGreedily a (x :: taken)) ∨
        (0 < remaining ∧
          ∀ nodes, nodes <+: taking_order a look_ahead available → ¬ ClosesGreedily a nodes)) := by
  obtain ⟨x, hx, _⟩ := first_index.spec a look_ahead hne
  have horder : taking_order a look_ahead available =
      x :: available.eraseIdx (first_index a look_ahead available) := by
    unfold taking_order
    rw [hx]
  obtain ⟨n, hn⟩ := Nat.exists_eq_succ_of_ne_zero (List.length_pos_of_ne_nil hne).ne'
  have hlength : (available.eraseIdx (first_index a look_ahead available)).length ≤ n := by
    rw [List.length_eraseIdx]
    obtain ⟨hlt, _⟩ := List.getElem?_eq_some_iff.mp hx
    rw [if_pos hlt]
    omega
  obtain ⟨taken, remaining, left, hrun, hsplit, hcases⟩ := grow_pipeline.spec a look_ahead n
    (available.eraseIdx (first_index a look_ahead available)) [x]
    (a.num_total_layers - opening_charge (a.store x) a.num_total_layers)
    ((available.map a.capacity).sum - opening_charge (a.store x) a.num_total_layers) (by simp) hlength
  refine ⟨x, taken, remaining, left, ?_, ?_, ?_⟩
  · rw [hn]
    unfold grow_pipeline
    rw [if_pos hlayers]
    obtain ⟨y, rest, hcons⟩ := List.exists_cons_of_ne_nil hne
    have htake : available.getD (first_index a look_ahead available) y = x := by
      rw [List.getD_eq_getElem?_getD, hx]
      rfl
    rw [hcons] at htake hrun ⊢
    dsimp only [List.isEmpty_nil]
    rw [Bool.and_true]
    change grow_pipeline a look_ahead n
      ([] ++ [(y :: rest).getD (first_index a look_ahead (y :: rest)) y])
      (a.num_total_layers - opening_charge
        (a.store ((y :: rest).getD (first_index a look_ahead (y :: rest)) y)) a.num_total_layers)
      (((y :: rest).map a.capacity).sum - opening_charge
        (a.store ((y :: rest).getD (first_index a look_ahead (y :: rest)) y)) a.num_total_layers)
      ((y :: rest).eraseIdx (first_index a look_ahead (y :: rest))) = _
    rw [htake]
    exact hrun
  · rw [horder, hsplit]
  · rcases hcases with ⟨hle, hcloses⟩ | ⟨hgt, hnone⟩
    · exact Or.inl ⟨hle, hcloses⟩
    · refine Or.inr ⟨hgt, ?_⟩
      intro nodes hbegins hcloses
      rw [horder] at hbegins
      rcases nodes with _ | ⟨x', nodes⟩
      · exact hcloses
      · obtain ⟨rfl, hbegins'⟩ := List.cons_prefix_cons.mp hbegins
        exact hnone nodes hbegins' hcloses

/-! ## All pipelines -/

theorem Descending.sublist {a : Allocator} {nodes nodes' : List Ref} (h : Descending a nodes)
    (hsub : nodes'.Sublist nodes) : Descending a nodes' := List.Pairwise.sublist hsub h

/-- A pipeline of the greedy search, from nodes that stand in order. -/
theorem built_of_taking_order {a : Allocator} {look_ahead : Bool} {available : List Ref} {x : Ref}
    {taken left : List Ref} (hdesc : Descending a available)
    (horder : taking_order a look_ahead available = x :: (taken ++ left))
    (hcloses : ClosesGreedily a (x :: taken)) : Built a x taken ∧ left.Sublist available := by
  have hne : available ≠ [] := by
    rintro rfl
    cases horder
  obtain ⟨y, hy, hfirst⟩ := first_index.spec a look_ahead hne
  unfold taking_order at horder
  rw [hy] at horder
  obtain ⟨rfl, hrest⟩ := List.cons.inj horder
  have hsub : (taken ++ left).Sublist available := hrest ▸ List.eraseIdx_sublist _ _
  refine ⟨⟨⟨_, opening_charge_le _ _, hcloses⟩,
    hdesc.sublist ((List.sublist_append_left _ _).trans hsub), ?_⟩,
    (List.sublist_append_right _ _).trans hsub⟩
  rcases hfirst with hzero | hfit
  · left
    intro r hr
    rw [hzero] at hy hrest
    obtain ⟨z, rest, rfl⟩ := List.exists_cons_of_ne_nil hne
    cases hy
    rw [List.eraseIdx_cons_zero] at hrest
    apply (List.pairwise_cons.mp hdesc).1
    rw [hrest]
    exact List.mem_append_left _ hr
  · exact Or.inr hfit

theorem greedy_pipelines_built (a : Allocator) (look_ahead : Bool) (fuel : Nat)
    (available : List Ref) (hdesc : Descending a available) (hlayers : 0 < a.num_total_layers) :
    ∀ pipeline ∈ greedy_pipelines a look_ahead fuel available,
      ∃ x rest, pipeline = x :: rest ∧ Built a x rest := by
  induction fuel generalizing available with
  | zero =>
    intro pipeline hp
    cases hp
  | succ fuel ih =>
    intro pipeline hp
    unfold greedy_pipelines at hp
    dsimp only at hp
    split at hp
    · cases hp
    · rename_i hguard
      have hne : available ≠ [] := by
        rintro rfl
        simp at hguard
      obtain ⟨x, taken, remaining, left, hgrow, horder, hcases⟩ :=
        grow_first.spec a look_ahead hne hlayers
      rw [hgrow] at hp
      dsimp only at hp
      split at hp
      · rename_i hdone
        rcases hcases with ⟨_, hcloses⟩ | ⟨hgt, _⟩
        · obtain ⟨hbuilt, hsub⟩ := built_of_taking_order hdesc horder hcloses
          rcases List.mem_cons.mp hp with rfl | hp
          · exact ⟨x, taken, rfl, hbuilt⟩
          · exact ih left (hdesc.sublist hsub) pipeline hp
        · simp only [Bool.and_eq_true, decide_eq_true_eq] at hdone
          omega
      · cases hp

/-- Nodes that close a pipeline have the capacity for all layers. -/
theorem Closes.le_capacity {a : Allocator} {left : Int} {rest : List Ref}
    (h : Closes a.store left rest) : left ≤ (rest.map a.capacity).sum := by
  induction rest generalizing left with
  | nil => exact h
  | cons r rest ih =>
    have hle := ih h.2
    have hcharge := charge_le (a.store r) left
    rw [List.map_cons, List.sum_cons]
    show left ≤ (a.store r).get_decoder_layer_capacity false false + _
    omega

theorem embed_capacity_le (n : Node) :
    n.get_decoder_layer_capacity true false ≤ n.get_decoder_layer_capacity false false := by
  rw [embed_capacity_eq]
  exact n.get_decoder_layer_capacity_le false

/-- The greedy search finds a pipeline exactly when some first nodes of its order close one. -/
theorem greedy_pipelines_ne_nil_iff (a : Allocator) (look_ahead : Bool)
    (hlayers : 0 < a.num_total_layers) (hnonneg : ∀ r ∈ a.nodes, 0 ≤ a.capacity r) :
    greedy_pipelines a look_ahead a.nodes.length a.nodes ≠ [] ↔
      ∃ nodes, nodes <+: taking_order a look_ahead a.nodes ∧ ClosesGreedily a nodes := by
  by_cases hne : a.nodes = []
  · constructor
    · intro h
      rw [hne] at h
      exact absurd rfl h
    · rintro ⟨nodes, hbegins, hcloses⟩
      rw [hne] at hbegins
      have hnil : nodes = [] := List.prefix_nil.mp hbegins
      rw [hnil] at hcloses
      exact hcloses.elim
  · obtain ⟨n, hn⟩ := Nat.exists_eq_succ_of_ne_zero (List.length_pos_of_ne_nil hne).ne'
    obtain ⟨x, taken, remaining, left, hgrow, horder, hcases⟩ :=
      grow_first.spec a look_ahead hne hlayers
    obtain ⟨y, hy, _⟩ := first_index.spec a look_ahead hne
    have hperm : (taking_order a look_ahead a.nodes).Perm a.nodes := by
      unfold taking_order
      rw [hy]
      obtain ⟨hlt, rfl⟩ := List.getElem?_eq_some_iff.mp hy
      exact List.getElem_cons_eraseIdx_perm hlt
    -- Closed nodes hold all layers, so the search gets past its check of the total capacity.
    have henough : ∀ nodes, nodes <+: taking_order a look_ahead a.nodes → ClosesGreedily a nodes →
        a.num_total_layers ≤ (a.nodes.map a.capacity).sum := by
      intro nodes hbegins hcloses
      obtain ⟨others, hothers⟩ := hbegins
      rcases nodes with _ | ⟨z, rest⟩
      · exact hcloses.elim
      · have hle := Closes.le_capacity hcloses
        have hopen := (opening_charge_le (a.store z) a.num_total_layers).trans
          (embed_capacity_le (a.store z))
        have hsum : (a.nodes.map a.capacity).sum =
            a.capacity z + (rest.map a.capacity).sum + (others.map a.capacity).sum := by
          rw [← (hperm.map a.capacity).sum_eq, ← hothers]
          simp only [List.map_append, List.map_cons, List.sum_append, List.sum_cons]
        have hothers' : 0 ≤ (others.map a.capacity).sum := by
          apply List.sum_nonneg
          intro c hc
          obtain ⟨r, hr, rfl⟩ := List.mem_map.mp hc
          apply hnonneg r
          apply hperm.mem_iff.mp
          rw [← hothers]
          exact List.mem_append_right _ hr
        have hz : a.capacity z = (a.store z).get_decoder_layer_capacity false false := rfl
        omega
    rw [hn]
    unfold greedy_pipelines
    dsimp only
    rw [hgrow]
    dsimp only
    have hempty : a.nodes.isEmpty = false := by simpa using hne
    rw [hempty, Bool.false_or]
    constructor
    · intro h
      rcases hcases with ⟨_, hcloses⟩ | ⟨hgt, _⟩
      · refine ⟨x :: taken, ?_, hcloses⟩
        rw [horder, ← List.cons_append]
        exact List.prefix_append _ _
      · have hno : ¬ (decide (remaining ≤ 0) && !(x :: taken).isEmpty) = true := by
          simp
          omega
        rw [if_neg hno] at h
        split at h <;> exact absurd rfl h
    · rintro ⟨nodes, hbegins, hcloses⟩
      have hle := henough nodes hbegins hcloses
      have hguard : ¬ (decide ((a.nodes.map a.capacity).sum < a.num_total_layers)) = true := by
        rw [decide_eq_true_eq]
        omega
      rcases hcases with ⟨hdone, _⟩ | ⟨_, hnone⟩
      · have hyes : (decide (remaining ≤ 0) && !(x :: taken).isEmpty) = true := by
          simp [hdone]
        rw [if_neg hguard, if_pos hyes]
        exact List.cons_ne_nil _ _
      · exact absurd hcloses (hnone nodes hbegins)

end scheduling.layer_allocation
