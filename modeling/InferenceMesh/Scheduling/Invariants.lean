-- An invariant of the allocator is kept by every operation as soon as it is
-- kept by one allocation, one deallocation and the changes to the list of
-- nodes. The operations only have to know which ranges they give out.
import InferenceMesh.Scheduling.Placement
import InferenceMesh.Scheduling.WaterFilling

open ordered_dict python state_exn binary_heap
open scheduling.model_info scheduling.node

namespace scheduling.layer_allocation

open Allocator

/-- What makes `I` an invariant, when ranges with `Ok` are given out. -/
structure Kept (I : Allocator → Prop) (Ok : Ref → Int → Int → Prop) : Prop where
  views : ∀ a, I a → Views a
  allocates : ∀ a r start_layer end_layer, I a → Free a r →
    (start_layer < end_layer → Ok r start_layer end_layer) →
    I (stateOf (allocate r start_layer end_layer a))
  deallocates : ∀ a r, I a → Usable a r → I (stateOf (deallocate r a))
  sorts : ∀ a, I a → I a.sort_nodes
  registers : ∀ a r, I a → a.node_id_to_node.get? (a.node_id r) = none → Idle (a.store r) →
    I (a.register r)
  unregisters : ∀ a id r, I a → a.node_id_to_node.get? id = some r → Idle (a.store r) →
    I (a.unregister id)
  joins : ∀ a r l, I a → a.get_lightest_layer = some l →
    Ok r l (a.adjust_end_layer_for_tail (a.store r) l)
  shares : ∀ a r start_layer remaining_layers, I a → 0 ≤ start_layer →
    start_layer + remaining_layers = a.num_total_layers →
    Ok r start_layer (start_layer + greedy_layers (a.store r) start_layer remaining_layers)

/-- The settings and the list of nodes are those of an earlier state. -/
structure From (a₀ a : Allocator) : Prop where
  alike : Alike a₀ a
  nodes : a.nodes = a₀.nodes

theorem From.refl (a : Allocator) : From a a := ⟨Alike.refl a, rfl⟩

theorem From.moved {a₀ a a' : Allocator} {r : Ref} (h : From a₀ a) (hm : Moved r a a') :
    From a₀ a' := ⟨h.alike.trans hm.alike, hm.nodes.trans h.nodes⟩

theorem From.capacity {a₀ a : Allocator} (h : From a₀ a) : a.capacity = a₀.capacity :=
  funext (fun r => h.alike.layer_capacity r false false)

theorem From.num_total_layers {a₀ a : Allocator} (h : From a₀ a) :
    a.num_total_layers = a₀.num_total_layers := by
  unfold Allocator.num_total_layers
  rw [h.alike.model_info]

theorem sorted_desc_perm (key : Ref → Int) (l : List Ref) : (sorted_desc key l).Perm l :=
  List.perm_insertionSort _ l

theorem mem_sort_nodes {a : Allocator} {r : Ref} : r ∈ a.sort_nodes.nodes ↔ r ∈ a.nodes :=
  (sorted_desc_perm _ _).mem_iff

/-- Two nodes of a list with distinct ids do not share one. -/
theorem ids_ne {a : Allocator} {nodes : List Ref} (hids : (nodes.map a.node_id).Nodup)
    {r r' : Ref} (hr : r ∈ nodes) (hr' : r' ∈ nodes) (hne : r ≠ r') : a.node_id r ≠ a.node_id r' :=
  fun he => hne (List.inj_on_of_nodup_map hids hr hr' he)

theorem map_fst_zip_sublist {α β : Type*} (l : List α) (m : List β) :
    ((l.zip m).map Prod.fst).Sublist l := by
  induction l generalizing m with
  | nil => simp
  | cons x l ih =>
    cases m with
    | nil => simp
    | cons y m => exact (ih m).cons_cons x

/-! ## The ranges of a split -/

/-- The stages of a pipeline in the order in which they get their layers. -/
def stage_order (a : Allocator) (pipeline_nodes : List Ref) (assume_sorted : Bool) : List Ref :=
  if assume_sorted then pipeline_nodes else sorted_desc a.capacity pipeline_nodes

theorem stage_order_perm (a : Allocator) (pipeline_nodes : List Ref) (assume_sorted : Bool) :
    (stage_order a pipeline_nodes assume_sorted).Perm pipeline_nodes := by
  unfold stage_order
  split
  · exact List.Perm.refl _
  · exact sorted_desc_perm _ _

/-- The split of the layers over the stages, when all of them have room. -/
def stage_counts (a : Allocator) (nodes : List Ref) (power_type : PowerType) :
    Except Exn (List Int) :=
  stage_layer_counts (stage_capacities a.store nodes)
    (nodes.map (fun r => compute_power power_type (a.store r))) a.num_total_layers
    a.water_filling_max_iterations

/-- Every range that the split gives out is fine. -/
def SplitOk (Ok : Ref → Int → Int → Prop) (a : Allocator) (pipeline_nodes : List Ref)
    (assume_sorted : Bool) (power_type : PowerType) : Prop :=
  ∀ counts, full_stage (stage_order a pipeline_nodes assume_sorted)
      (stage_capacities a.store (stage_order a pipeline_nodes assume_sorted)) = none →
    stage_counts a (stage_order a pipeline_nodes assume_sorted) power_type = .ok counts →
    ∀ x ∈ placements ((stage_order a pipeline_nodes assume_sorted).zip counts) 0,
      Ok x.1 x.2.1 x.2.2

namespace From

variable {a₀ a : Allocator}

theorem stage_order (h : From a₀ a) (pipeline_nodes : List Ref) (assume_sorted : Bool) :
    stage_order a pipeline_nodes assume_sorted = stage_order a₀ pipeline_nodes assume_sorted := by
  unfold layer_allocation.stage_order
  rw [h.capacity]

theorem stage_capacities (h : From a₀ a) (nodes : List Ref) :
    stage_capacities a.store nodes = stage_capacities a₀.store nodes := by
  unfold layer_allocation.stage_capacities
  simp only [h.alike.layer_capacity]

theorem stage_counts (h : From a₀ a) (nodes : List Ref) (power_type : PowerType) :
    stage_counts a nodes power_type = stage_counts a₀ nodes power_type := by
  have hpower : ∀ r, compute_power power_type (a.store r) = compute_power power_type (a₀.store r) := by
    intro r
    have hr := congrArg (compute_power power_type) (h.alike.store r)
    cases power_type <;> exact hr
  unfold layer_allocation.stage_counts
  simp only [h.stage_capacities, hpower, h.num_total_layers, h.alike.iterations]

end From

/-! ## One node -/

theorem deallocate_returns (a : Allocator) (r : Ref) :
    deallocate r a = .ok () (stateOf (deallocate r a)) := by
  rcases deallocate_cases a r with ⟨_, hrun⟩ | ⟨s, e, loads, _, _, hrun, _⟩
  · rw [hrun]
    rfl
  · rw [hrun]
    rfl

theorem declare_known {a : Allocator} {r : Ref}
    (hhas : a.node_id_to_node.has (a.node_id r) = true) : declare r a = .ok () a.sort_nodes := by
  show EStateM.Result.ok () (Allocator.sort_nodes _) = _
  rw [if_pos hhas]

theorem declare_new {a : Allocator} {r : Ref}
    (hnew : a.node_id_to_node.get? (a.node_id r) = none) :
    declare r a = .ok () (a.register r).sort_nodes := by
  show EStateM.Result.ok () (Allocator.sort_nodes _) = _
  rw [if_neg (by rw [Dict.has_eq_false.mpr hnew]; simp)]

namespace Kept

variable {I : Allocator → Prop} {Ok : Ref → Int → Int → Prop}

/-- An allocation keeps the invariant, and the nodes that wait for their turn stay free. -/
theorem allocate (K : Kept I Ok) (a₀ : Allocator) (r : Ref) (start_layer end_layer : Int)
    {rest : List Ref} (hids : ∀ r' ∈ rest, a₀.node_id r' ≠ a₀.node_id r)
    (hok : start_layer < end_layer → Ok r start_layer end_layer) :
    Triple (fun a => I a ∧ From a₀ a ∧ Free a r ∧ ∀ r' ∈ rest, Free a r')
      (allocate r start_layer end_layer)
      (fun _ a => I a ∧ From a₀ a ∧ ∀ r' ∈ rest, Free a r') (fun _ a => I a) := by
  rintro a ⟨hI, hfrom, hfree, hrest⟩
  have hkept := K.allocates a r start_layer end_layer hI hfree hok
  have hmoved := allocate_moved a r start_layer end_layer
  rcases hrun : layer_allocation.allocate r start_layer end_layer a with ⟨_, a'⟩ | ⟨e, a'⟩
  · rw [hrun] at hkept hmoved
    refine ⟨hkept, hfrom.moved hmoved, ?_⟩
    intro r' hr'
    apply hmoved.free _ (hrest r' hr')
    rw [hfrom.alike.node_id, hfrom.alike.node_id]
    exact hids r' hr'
  · rw [hrun] at hkept
    exact hkept

theorem reallocate (K : Kept I Ok) {a : Allocator} {r : Ref} {start_layer end_layer : Int}
    (hI : I a) (hr : Usable a r) (hok : start_layer < end_layer → Ok r start_layer end_layer) :
    I (stateOf (reallocate r start_layer end_layer a)) := by
  have hkept := K.deallocates a r hI hr
  have hfree := deallocate_free (K.views a hI) hr
  have hrun : layer_allocation.reallocate r start_layer end_layer a =
      layer_allocation.allocate r start_layer end_layer (stateOf (deallocate r a)) :=
    bind_of_ok (deallocate_returns a r)
  rw [hrun]
  exact K.allocates _ r start_layer end_layer hkept hfree hok

theorem leave (K : Kept I Ok) {a : Allocator} (hI : I a) (node_id : String) :
    I (stateOf (leave node_id a)) := by
  rcases hget : a.node_id_to_node.get? node_id with _ | r
  · have hrun : ∃ e, layer_allocation.leave node_id a = .error e a := by
      simp only [layer_allocation.leave, bind, EStateM.bind, get, getThe, MonadStateOf.get,
        EStateM.get, hget]
      exact ⟨_, rfl⟩
    obtain ⟨e, hrun⟩ := hrun
    rw [hrun]
    exact hI
  · have hrun : layer_allocation.leave node_id a =
        .ok () ((stateOf (deallocate r a)).unregister node_id) := by
      simp only [layer_allocation.leave, bind, EStateM.bind, get, getThe, MonadStateOf.get,
        EStateM.get, hget]
      rw [deallocate_returns a r]
      rfl
    have hid := (K.views a hI).named node_id r hget
    have hreg : a.node_id_to_node.get? (a.node_id r) = some r := by
      rw [hid]
      exact hget
    have hfree := deallocate_free (K.views a hI) (Or.inl hreg)
    rw [hrun]
    apply K.unregisters _ _ r (K.deallocates a r hI (Or.inl hreg)) _ hfree.2
    -- A deallocation leaves the map of ids alone.
    rcases deallocate_cases a r with ⟨_, hrun⟩ | ⟨s, e, loads, _, _, hrun, _⟩
    · rw [hrun]
      exact hget
    · rw [hrun]
      exact hget

/-! ## Joining -/

/-- A declared node is registered, and still free. -/
theorem declare (K : Kept I Ok) {a : Allocator} {r : Ref} (hI : I a) (hr : Free a r) :
    ∃ a', layer_allocation.declare r a = .ok () a' ∧ I a' ∧ Free a' r ∧
      (∀ r', r' ∈ a.nodes → r' ∈ a'.nodes) := by
  by_cases hhas : a.node_id_to_node.has (a.node_id r) = true
  · exact ⟨a.sort_nodes, declare_known hhas, K.sorts a hI, hr, fun _ => mem_sort_nodes.mpr⟩
  · have hnone : a.node_id_to_node.get? (a.node_id r) = none := by
      apply Dict.has_eq_false.mp
      simpa using hhas
    refine ⟨(a.register r).sort_nodes, declare_new hnone,
      K.sorts _ (K.registers a r hI hnone hr.2), ?_, ?_⟩
    · exact ⟨Or.inl (Dict.get?_insert_self _ _ _), hr.2⟩
    · intro r' hr'
      exact mem_sort_nodes.mpr (List.mem_append_left _ hr')

/-- A join keeps the invariant on either exit. -/
theorem join (K : Kept I Ok) (ns : List Ref) {r : Ref} :
    Triple (fun a => I a ∧ Free a r ∧ ∀ r' ∈ ns, r' ∈ a.nodes) (join r)
      (fun _ a => I a ∧ ∀ r' ∈ ns, r' ∈ a.nodes) (fun _ a => I a ∧ ∀ r' ∈ ns, r' ∈ a.nodes) := by
  apply Triple.of_state (R := fun a => I a ∧ ∀ r' ∈ ns, r' ∈ a.nodes)
  rintro a ⟨hI, hr, hns⟩
  obtain ⟨a₁, hdeclare, hI₁, hr₁, hsub⟩ := K.declare hI hr
  have hns₁ : ∀ r' ∈ ns, r' ∈ a₁.nodes := fun r' hr' => hsub r' (hns r' hr')
  rcases hl : a₁.get_lightest_layer with _ | l
  · have hrun : layer_allocation.join r a = .error (.ValueError "No layers to assign") a₁ := by
      refine (bind_of_ok hdeclare).trans ?_
      simp only [bind, EStateM.bind, get, getThe, MonadStateOf.get, EStateM.get, hl]
      rfl
    rw [hrun]
    exact ⟨hI₁, hns₁⟩
  · have hrun : layer_allocation.join r a = layer_allocation.allocate r l
        (a₁.adjust_end_layer_for_tail (a₁.store r) l) a₁ := by
      refine (bind_of_ok hdeclare).trans ?_
      simp only [bind, EStateM.bind, get, getThe, MonadStateOf.get, EStateM.get, hl]
    rw [hrun]
    refine ⟨K.allocates a₁ r _ _ hI₁ hr₁ (fun _ => K.joins a₁ r l hI₁ hl), ?_⟩
    intro r' hr'
    rw [(allocate_moved a₁ r _ _).nodes]
    exact hns₁ r' hr'

theorem join_left_over (K : Kept I Ok) {ns : List Ref} {r : Ref} (hr : r ∈ ns) :
    Keeps (fun a => I a ∧ ∀ r' ∈ ns, r' ∈ a.nodes) (join_left_over r) := by
  rintro a ⟨hI, hns⟩
  simp only [layer_allocation.join_left_over, bind, EStateM.bind, get, getThe, MonadStateOf.get,
    EStateM.get]
  by_cases hhas : a.node_allocation.has (a.node_id r) = true
  · rw [if_pos hhas]
    exact ⟨hI, hns⟩
  · rw [if_neg hhas]
    have hreg := (K.views a hI).listed r (hns r hr)
    have hnone : a.node_allocation.get? (a.node_id r) = none := by
      apply Dict.has_eq_false.mp
      simpa using hhas
    have hfree : Free a r := ⟨Or.inl hreg, (K.views a hI).idle_of_unallocated hreg hnone⟩
    exact Triple.catches (K.join ns) (fun _ => Keeps.pure ()) a ⟨hI, hfree, hns⟩

theorem allocate_left_over_nodes (K : Kept I Ok) : Keeps I allocate_left_over_nodes := by
  intro a hI
  have hloop : Keeps (fun a' => I a' ∧ ∀ r' ∈ sorted_desc a.capacity a.nodes, r' ∈ a'.nodes)
      ((sorted_desc a.capacity a.nodes).forM layer_allocation.join_left_over) :=
    Keeps.forEach _ (fun r hr => K.join_left_over hr)
  have hstart : ∀ r' ∈ sorted_desc a.capacity a.nodes, r' ∈ a.nodes :=
    fun r' hr' => (sorted_desc_perm _ _).mem_iff.mp hr'
  exact (Triple.mono hloop (fun _ h => h) (fun _ _ h => h.1) (fun _ _ h => h.1)) a ⟨hI, hstart⟩

/-! ## One pipeline -/

theorem deallocate_all (K : Kept I Ok) {a₀ : Allocator} {nodes : List Ref}
    (hids : (nodes.map a₀.node_id).Nodup) :
    Triple (fun a => I a ∧ From a₀ a ∧ ∀ r ∈ nodes, Usable a r) (deallocate_all nodes)
      (fun _ a => I a ∧ From a₀ a ∧ ∀ r ∈ nodes, Free a r) (fun _ a => I a) := by
  -- The nodes that are no longer to come are free.
  have hloop := Triple.forEach (E := fun (_ : Exn) a => I a)
    (I := fun rest a => I a ∧ From a₀ a ∧ (∀ r ∈ rest, r ∈ nodes) ∧
      ∀ r ∈ nodes, Usable a r ∧ (r ∉ rest → Free a r))
    (f := fun r => (do
      let a ← get
      if (a.store r).is_allocated then deallocate r : AllocM Unit)) nodes
    (by
      rintro r rest a ⟨hI, hfrom, hsub, hnodes⟩
      have hr := hsub r List.mem_cons_self
      have hbody : (do
          let a ← get
          if (a.store r).is_allocated then deallocate r : AllocM Unit) a =
          .ok () (stateOf (deallocate r a)) := by
        simp only [bind, EStateM.bind, get, getThe, MonadStateOf.get, EStateM.get]
        by_cases halloc : (a.store r).is_allocated = true
        · rw [if_pos halloc]
          exact deallocate_returns a r
        · rw [if_neg halloc, deallocate_unallocated (by simpa using halloc)]
          rfl
      have hmoved := deallocate_moved a r
      have hview := K.views a hI
      rw [hbody]
      refine ⟨K.deallocates a r hI (hnodes r hr).1, hfrom.moved hmoved,
        fun r' hr' => hsub r' (List.mem_cons_of_mem _ hr'), ?_⟩
      intro r' hr'
      by_cases heq : r' = r
      · subst heq
        have hfree := deallocate_free hview (hnodes r' hr').1
        exact ⟨hfree.1, fun _ => hfree⟩
      · have hne : a.node_id r' ≠ a.node_id r := by
          rw [hfrom.alike.node_id, hfrom.alike.node_id]
          exact ids_ne hids hr' hr heq
        refine ⟨hmoved.usable hne (hnodes r' hr').1, ?_⟩
        intro hnot
        apply hmoved.free hne ((hnodes r' hr').2 _)
        intro hmem
        rcases List.mem_cons.mp hmem with h | h
        · exact heq h
        · exact hnot h)
  refine Triple.mono hloop ?_ ?_ (fun _ _ h => h)
  · rintro a ⟨hI, hfrom, hnodes⟩
    exact ⟨hI, hfrom, fun _ h => h, fun r hr => ⟨hnodes r hr, fun hnot => absurd hr hnot⟩⟩
  · rintro _ a ⟨hI, hfrom, _, hnodes⟩
    exact ⟨hI, hfrom, fun r hr => (hnodes r hr).2 List.not_mem_nil⟩

theorem apply_stages (K : Kept I Ok) (a₀ : Allocator) (stages : List (Ref × Int))
    (start_layer : Int) (hids : (stages.map (fun x => a₀.node_id x.1)).Nodup)
    (hok : ∀ x ∈ placements stages start_layer, Ok x.1 x.2.1 x.2.2) :
    Triple (fun a => I a ∧ From a₀ a ∧ ∀ r ∈ stages.map Prod.fst, Free a r)
      (apply_stages stages start_layer) (fun _ a => I a ∧ From a₀ a) (fun _ a => I a) := by
  induction stages generalizing start_layer with
  | nil => exact Triple.pure (fun a h => ⟨h.1, h.2.1⟩)
  | cons x rest ih =>
    obtain ⟨r, layers⟩ := x
    obtain ⟨hnot, hrest⟩ := List.nodup_cons.mp hids
    unfold layer_allocation.apply_stages
    split
    · rename_i hle
      apply Triple.mono (ih start_layer hrest _) _ (fun _ _ h => h) (fun _ _ h => h)
      · simpa [placements, hle] using hok
      · rintro a ⟨hI, hfrom, hfree⟩
        exact ⟨hI, hfrom, fun r' hr' => hfree r' (List.mem_cons_of_mem _ hr')⟩
    · rename_i hle
      have hplaced : placements ((r, layers) :: rest) start_layer =
          (r, start_layer, start_layer + layers) :: placements rest (start_layer + layers) := by
        simp [placements, hle]
      rw [hplaced] at hok
      have hstep := K.allocate a₀ r start_layer (start_layer + layers)
        (by
          show ∀ r' ∈ rest.map Prod.fst, a₀.node_id r' ≠ a₀.node_id r
          intro r' hr' he
          apply hnot
          obtain ⟨y, hy, rfl⟩ := List.mem_map.mp hr'
          exact List.mem_map.mpr ⟨y, hy, he⟩)
        (fun _ => hok _ List.mem_cons_self)
      apply Triple.bind (Triple.mono hstep _ (fun _ _ h => h) (fun _ _ h => h))
      · intro _
        exact ih (start_layer + layers) hrest (fun y hy => hok y (List.mem_cons_of_mem _ hy))
      · rintro a ⟨hI, hfrom, hfree⟩
        exact ⟨hI, hfrom, hfree r List.mem_cons_self,
          fun r' hr' => hfree r' (List.mem_cons_of_mem _ hr')⟩

theorem split_layers (K : Kept I Ok) {a₀ : Allocator} {pipeline_nodes : List Ref}
    {assume_sorted : Bool} {power_type : PowerType}
    (hids : ((stage_order a₀ pipeline_nodes assume_sorted).map a₀.node_id).Nodup)
    (hok : SplitOk Ok a₀ pipeline_nodes assume_sorted power_type) :
    Triple (fun a => I a ∧ From a₀ a ∧
        ∀ r ∈ stage_order a₀ pipeline_nodes assume_sorted, Free a r)
      (split_layers (stage_order a₀ pipeline_nodes assume_sorted) power_type)
      (fun _ a => I a ∧ From a₀ a) (fun _ a => I a) := by
  apply Triple.reads
  rintro a ⟨hI, hfrom, hfree⟩
  have hcounts := hfrom.stage_counts (stage_order a₀ pipeline_nodes assume_sorted) power_type
  have hfull := hok
  unfold SplitOk at hfull
  rw [← hfrom.stage_capacities] at hfull
  dsimp only
  split
  · apply Triple.throws
    rintro _ rfl
    exact hI
  · rename_i hnone
    split
    · apply Triple.throws
      rintro _ rfl
      exact hI
    · rename_i counts hrun
      have hsub : ∀ r ∈ ((stage_order a₀ pipeline_nodes assume_sorted).zip counts).map Prod.fst,
          r ∈ stage_order a₀ pipeline_nodes assume_sorted := by
        intro r hr
        obtain ⟨x, hx, rfl⟩ := List.mem_map.mp hr
        exact (List.of_mem_zip hx).1
      have hstages := K.apply_stages a₀ ((stage_order a₀ pipeline_nodes assume_sorted).zip counts) 0
        (by
          have hmap := (map_fst_zip_sublist (stage_order a₀ pipeline_nodes assume_sorted)
            counts).map a₀.node_id
          rw [List.map_map] at hmap
          exact hids.sublist hmap)
        (hfull counts hnone (hcounts.symm.trans hrun))
      apply Triple.bind (Triple.mono hstages _ (fun _ _ h => h) (fun _ _ h => h))
      · intro start_layer
        apply Triple.cond
        · intro _
          exact Triple.throws (fun _ h => h.1)
        · intro _
          exact Triple.pure (fun _ h => h)
      · rintro _ rfl
        exact ⟨hI, hfrom, fun r hr => hfree r (hsub r hr)⟩

theorem adjust_pipeline_layers (K : Kept I Ok) {a₀ : Allocator} {pipeline_nodes : List Ref}
    {assume_sorted : Bool} {power_type : PowerType}
    (hids : (pipeline_nodes.map a₀.node_id).Nodup)
    (hok : SplitOk Ok a₀ pipeline_nodes assume_sorted power_type) :
    Triple (fun a => I a ∧ From a₀ a ∧ ∀ r ∈ pipeline_nodes, Usable a r)
      (adjust_pipeline_layers pipeline_nodes assume_sorted power_type)
      (fun _ a => I a ∧ From a₀ a) (fun _ a => I a) := by
  have hperm := stage_order_perm a₀ pipeline_nodes assume_sorted
  have hids' : ((stage_order a₀ pipeline_nodes assume_sorted).map a₀.node_id).Nodup :=
    (hperm.map a₀.node_id).nodup_iff.mpr hids
  apply Triple.reads
  rintro a ⟨hI, hfrom, husable⟩
  apply Triple.cond
  · intro _
    apply Triple.throws
    rintro _ rfl
    exact hI
  · intro _
    have horder := hfrom.stage_order pipeline_nodes assume_sorted
    have hrest := Triple.bind (K.deallocate_all hids') (fun _ => K.split_layers hids' hok)
    rw [← horder] at hrest
    apply Triple.mono hrest _ (fun _ _ h => h) (fun _ _ h => h)
    rintro _ rfl
    refine ⟨hI, hfrom, ?_⟩
    intro r hr
    rw [horder] at hr
    exact husable r (hperm.mem_iff.mp hr)

theorem apply_greedy (K : Kept I Ok) {a₀ : Allocator} (nodes : List Ref)
    (start_layer remaining_layers : Int) (hids : (nodes.map a₀.node_id).Nodup)
    (hstart : 0 ≤ start_layer) (hsum : start_layer + remaining_layers = a₀.num_total_layers) :
    Triple (fun a => I a ∧ From a₀ a ∧ ∀ r ∈ nodes, Free a r)
      (apply_greedy nodes start_layer remaining_layers) (fun _ a => I a ∧ From a₀ a)
      (fun _ a => I a) := by
  induction nodes generalizing start_layer remaining_layers with
  | nil => exact Triple.pure (fun a h => ⟨h.1, h.2.1⟩)
  | cons r rest ih =>
    obtain ⟨hnot, hrest⟩ := List.nodup_cons.mp hids
    unfold layer_allocation.apply_greedy
    apply Triple.reads
    rintro a ⟨hI, hfrom, hfree⟩
    have hfree' : ∀ r' ∈ rest, Free a r' := fun r' hr' => hfree r' (List.mem_cons_of_mem _ hr')
    dsimp only
    apply Triple.cond
    · intro _
      apply Triple.mono (ih start_layer remaining_layers hrest hstart hsum) _ (fun _ _ h => h)
        (fun _ _ h => h)
      rintro _ rfl
      exact ⟨hI, hfrom, hfree'⟩
    · intro hpos
      have hok := K.shares a r start_layer remaining_layers hI hstart
        (hsum.trans hfrom.num_total_layers.symm)
      generalize greedy_layers (a.store r) start_layer remaining_layers = layers at hpos hok ⊢
      have hstep := K.allocate a₀ r start_layer (start_layer + layers)
        (by
          show ∀ r' ∈ rest, a₀.node_id r' ≠ a₀.node_id r
          intro r' hr' he
          apply hnot
          rw [← he]
          exact List.mem_map_of_mem hr')
        (fun _ => hok)
      apply Triple.bind (Triple.mono hstep _ (fun _ _ h => h) (fun _ _ h => h))
      · intro _
        apply Triple.cond
        · intro _
          exact Triple.pure (fun _ h => ⟨h.1, h.2.1⟩)
        · intro _
          exact ih (start_layer + layers) (remaining_layers - layers) hrest (by omega) (by omega)
      · rintro _ rfl
        exact ⟨hI, hfrom, hfree r List.mem_cons_self, hfree'⟩

theorem adjust_pipeline_layers_greedy (K : Kept I Ok) {a₀ : Allocator} {pipeline_nodes : List Ref}
    (hids : (pipeline_nodes.map a₀.node_id).Nodup) :
    Triple (fun a => I a ∧ From a₀ a ∧ ∀ r ∈ pipeline_nodes, Usable a r)
      (adjust_pipeline_layers_greedy pipeline_nodes) (fun _ a => I a ∧ From a₀ a)
      (fun _ a => I a) := by
  apply Triple.reads
  rintro a ⟨hI, hfrom, husable⟩
  apply Triple.cond
  · intro _
    apply Triple.throws
    rintro _ rfl
    exact hI
  · intro _
    have hgreedy := K.apply_greedy pipeline_nodes 0 a.num_total_layers hids (le_refl 0)
      (by rw [hfrom.num_total_layers, Int.zero_add])
    have hrest := Triple.bind (K.deallocate_all hids) (fun _ => Triple.bind hgreedy
      (f := fun remaining_layers => if remaining_layers ≠ 0 then
        throw (.ValueError
          s!"Greedy assignment did not cover all layers: remaining {remaining_layers}") else pure ())
      (Q := fun _ a => I a ∧ From a₀ a)
      (fun _ => Triple.cond (fun _ => Triple.throws (fun _ h => h.1))
        (fun _ => Triple.pure (fun _ h => h))))
    apply Triple.mono hrest _ (fun _ _ h => h) (fun _ _ h => h)
    rintro _ rfl
    exact ⟨hI, hfrom, husable⟩

end Kept

end scheduling.layer_allocation
