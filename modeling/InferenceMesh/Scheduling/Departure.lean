-- What a leave does. The node is taken out first. What follows it, a warm-up
-- or a rebalance, only touches nodes that are still there: it brings no id
-- back, and it makes no node active.
import InferenceMesh.Scheduling.SchedulerView
import InferenceMesh.Scheduling.Upkeep

open ordered_dict python state_exn
open scheduling.model_info scheduling.node

namespace scheduling.layer_allocation

open Allocator

/-! ## The allocator -/

theorem deallocate_ids (a : Allocator) (r : Ref) :
    (stateOf (deallocate r a)).node_id_to_node = a.node_id_to_node := by
  rcases deallocate_cases a r with ⟨_, hrun⟩ | ⟨s, e, loads, _, _, hrun, _⟩
  · rw [hrun]
    rfl
  · rw [hrun]
    rfl

/-- What a leave takes away. -/
structure Left (node_id : String) (a a' : Allocator) : Prop where
  alike : Alike a a'
  ids : a'.node_id_to_node = a.node_id_to_node.erase node_id
  nodes : ∀ r, r ∈ a'.nodes ↔ r ∈ a.nodes ∧ a.node_id r ≠ node_id
  allocation : ∀ id, id ≠ node_id → a'.node_allocation.get? id = a.node_allocation.get? id
  others : ∀ r, a.node_id r ≠ node_id → a'.store r = a.store r

theorem leave_unknown {a : Allocator} {node_id : String}
    (h : a.node_id_to_node.get? node_id = none) :
    ∃ e, layer_allocation.leave node_id a = .error e a := by
  unfold layer_allocation.leave
  rw [get_bind, h]
  exact ⟨_, rfl⟩

/-- A leave of a known node returns. -/
theorem leave_left {a : Allocator} {node_id : String} {r : Ref} (hviews : Views a)
    (hget : a.node_id_to_node.get? node_id = some r) :
    ∃ a', layer_allocation.leave node_id a = .ok () a' ∧ Left node_id a a' := by
  have hid := hviews.named node_id r hget
  have hmoved := deallocate_moved a r
  have hrun : layer_allocation.leave node_id a =
      .ok () ((stateOf (deallocate r a)).unregister node_id) := by
    unfold layer_allocation.leave
    rw [get_bind, hget]
    exact bind_of_ok (deallocate_returns a r)
  have hids := deallocate_ids a r
  have hallocation : ∀ id, id ≠ node_id →
      (stateOf (deallocate r a)).node_allocation.get? id = a.node_allocation.get? id := by
    intro id hne
    rcases deallocate_cases a r with ⟨_, hcase⟩ | ⟨s, e, loads, _, _, hcase, _⟩
    · rw [hcase]
      rfl
    · rw [hcase]
      simp only [stateOf]
      rw [forget_get_allocation, if_neg (fun heq => hne (heq.symm.trans hid))]
  refine ⟨_, hrun, ⟨hmoved.alike.model_info, hmoved.alike.strategy,
    hmoved.alike.rebalance_threshold, hmoved.alike.iterations, hmoved.alike.left_over,
    hmoved.alike.loads, hmoved.alike.store⟩, ?_, ?_, hallocation, ?_⟩
  · unfold unregister
    rw [hids]
  · intro r'
    have hname := hmoved.alike.node_id
    show r' ∈ (stateOf (deallocate r a)).nodes.eraseP _ ↔ _
    simp only [hname, hmoved.nodes]
    constructor
    · intro hr'
      have hmem := List.mem_of_mem_eraseP hr'
      refine ⟨hmem, ?_⟩
      intro heq
      -- The node of the id is listed once.
      obtain ⟨x, l₁, l₂, _, hx, hsplit, hrest⟩ := List.exists_of_eraseP
        (p := fun r => decide (a.node_id r = node_id)) hmem (by simpa using heq)
      rw [hrest] at hr'
      have hxmem : x ∈ a.nodes := by
        rw [hsplit]
        exact List.mem_append_right _ List.mem_cons_self
      have hxid : a.node_id x = node_id := by simpa using hx
      have hxr : x = r' := hviews.eq_of_node_id hxmem hmem (hxid.trans heq.symm)
      have hnodup := hviews.nodup
      rw [hsplit, List.nodup_middle, List.nodup_cons, hxr] at hnodup
      exact hnodup.1 hr'
    · rintro ⟨hmem, hne⟩
      exact (List.mem_eraseP_of_neg (by simpa using hne)).mpr hmem
  · intro r' hne
    exact hmoved.store r' (by
      rintro rfl
      exact hne hid)

/-! ## What stays -/

/-- What an allocation leaves: the node is recorded, unless its range is empty. -/
theorem allocate_recorded (a : Allocator) (r : Ref) (start_layer end_layer : Int) :
    ((stateOf (allocate r start_layer end_layer a)).store = a.store ∧
      (stateOf (allocate r start_layer end_layer a)).node_id_to_node = a.node_id_to_node) ∨
    ((stateOf (allocate r start_layer end_layer a)).store =
        (a.record_allocation r start_layer end_layer).store ∧
      (stateOf (allocate r start_layer end_layer a)).node_id_to_node =
        a.node_id_to_node.insert (a.node_id r) r) := by
  by_cases hlt : start_layer < end_layer
  · right
    by_cases hfits : a.fits start_layer end_layer
    · obtain ⟨loads, hrun, _⟩ := allocate_ok (r := r) hlt hfits
      rw [hrun]
      exact ⟨rfl, rfl⟩
    · obtain ⟨e, loads, hrun, _⟩ := allocate_outside (r := r) hlt hfits
      rw [hrun]
      exact ⟨rfl, rfl⟩
  · left
    obtain ⟨e, hrun⟩ := allocate_empty (a := a) (r := r) (not_lt.mp hlt)
    rw [hrun]
    exact ⟨rfl, rfl⟩

theorem allocate_knows {a : Allocator} {id : String}
    (h : a.node_id_to_node.has id = true) (r : Ref) (start_layer end_layer : Int) :
    (stateOf (allocate r start_layer end_layer a)).node_id_to_node.has id = true := by
  rcases allocate_recorded a r start_layer end_layer with ⟨_, hids⟩ | ⟨_, hids⟩
  · rw [hids]
    exact h
  · rw [hids, Dict.has_iff]
    rw [Dict.has_iff] at h
    rw [Dict.get?_insert]
    split
    · exact ⟨r, rfl⟩
    · exact h

theorem allocate_is_active (a : Allocator) (r r' : Ref) (start_layer end_layer : Int) :
    ((stateOf (allocate r start_layer end_layer a)).store r').is_active =
      (a.store r').is_active := by
  have hrecord : ((a.record_allocation r start_layer end_layer).store r').is_active =
      (a.store r').is_active := by
    by_cases h : r' = r
    · subst h
      simp [record_allocation, Node.set_layer_allocation]
    · simp [record_allocation, h]
  rcases allocate_recorded a r start_layer end_layer with ⟨hstore, _⟩ | ⟨hstore, _⟩
  · rw [hstore]
  · rw [hstore, hrecord]

/-- No operation of the allocator makes a node active. -/
theorem inactive_kept (r : Ref) :
    KeptOn (fun _ => True) (fun a => (a.store r).is_active = false) where
  listed := fun _ _ _ _ => trivial
  searched := fun _ _ _ _ _ _ => trivial
  allocates := fun a r' start_layer end_layer h _ => (allocate_is_active a r' r _ _).trans h
  deallocates := by
    intro a r' h
    by_cases heq : r = r'
    · subst heq
      rcases deallocate_cases a r with ⟨_, hrun⟩ | ⟨s, e, loads, _, _, hrun, _⟩
      · rw [hrun]
        exact h
      · rw [hrun]
        simp [stateOf, forget_allocation, clear_node, update_layer_loads_heap, set_node]
    · rw [(deallocate_moved a r').store r heq]
      exact h
  declares := by
    intro a r' h _
    by_cases hhas : a.node_id_to_node.has (a.node_id r') = true
    · rw [declare_known hhas]
      exact h
    · rw [declare_new (Dict.has_eq_false.mp (by simpa using hhas))]
      exact h

/-- The settings stay, and the nodes up to their ranges. -/
theorem alike_kept (a₀ : Allocator) : KeptOn (fun _ => True) (Alike a₀) where
  listed := fun _ _ _ _ => trivial
  searched := fun _ _ _ _ _ _ => trivial
  allocates := fun a r start_layer end_layer h _ => h.trans (allocate_moved a r _ _).alike
  deallocates := fun a r h => h.trans (deallocate_moved a r).alike
  declares := by
    intro a r h _
    refine h.trans ?_
    by_cases hhas : a.node_id_to_node.has (a.node_id r) = true
    · rw [declare_known hhas]
      exact ⟨rfl, rfl, rfl, rfl, rfl, rfl, fun _ => rfl⟩
    · rw [declare_new (Dict.has_eq_false.mp (by simpa using hhas))]
      exact ⟨rfl, rfl, rfl, rfl, rfl, rfl, fun _ => rfl⟩

/-- A listed node stays listed. -/
theorem listed_kept (r : Ref) : KeptOn (fun _ => True) (fun a => r ∈ a.nodes) where
  listed := fun _ _ _ _ => trivial
  searched := fun _ _ _ _ _ _ => trivial
  allocates := fun a r' start_layer end_layer h _ => by
    rw [(allocate_moved a r' _ _).nodes]
    exact h
  deallocates := fun a r' h => by
    rw [(deallocate_moved a r').nodes]
    exact h
  declares := by
    intro a r' h _
    by_cases hhas : a.node_id_to_node.has (a.node_id r') = true
    · rw [declare_known hhas]
      exact mem_sort_nodes.mpr h
    · rw [declare_new (Dict.has_eq_false.mp (by simpa using hhas))]
      exact mem_sort_nodes.mpr (List.mem_append_left _ h)

/-- The id is unknown, and the nodes with `S` have other ids, which are known. -/
structure Absent (S : Ref → Prop) (node_id : String) (a : Allocator) : Prop where
  unknown : a.node_id_to_node.get? node_id = none
  others : ∀ r, S r → a.node_id r ≠ node_id
  known : ∀ r, S r → a.node_id_to_node.has (a.node_id r) = true
  listed : ∀ r ∈ a.nodes, S r
  nodup : a.nodes.Nodup

theorem absent_of_views {a : Allocator} (hviews : Views a) {node_id : String}
    (hunknown : a.node_id_to_node.get? node_id = none) :
    Absent (fun r => r ∈ a.nodes) node_id a := by
  refine ⟨hunknown, ?_, fun r hr => Dict.has_iff.mpr ⟨r, hviews.listed r hr⟩, fun _ hr => hr,
    hviews.nodup⟩
  rintro r hr rfl
  rw [hviews.listed r hr] at hunknown
  cases hunknown

theorem Absent.moved {S : Ref → Prop} {node_id : String} {a a' : Allocator} {r : Ref}
    (h : Absent S node_id a) (hm : Moved r a a')
    (hgrows : ∀ id, a.node_id_to_node.has id = true → a'.node_id_to_node.has id = true)
    (hunknown : a'.node_id_to_node.get? node_id = none) : Absent S node_id a' := by
  refine ⟨hunknown, ?_, ?_, by rw [hm.nodes]; exact h.listed, by rw [hm.nodes]; exact h.nodup⟩
  · intro r' hr'
    rw [hm.alike.node_id]
    exact h.others r' hr'
  · intro r' hr'
    rw [hm.alike.node_id]
    exact hgrows _ (h.known r' hr')

/-- An id that is unknown stays unknown while only other nodes get ranges. -/
theorem absent_kept (S : Ref → Prop) (node_id : String) : KeptOn S (Absent S node_id) where
  listed := fun _ h => h.listed
  searched := fun a h p hp r hr => h.listed r ((searched_pipelines_drawn h.nodup p hp).2 r hr)
  allocates := by
    intro a r start_layer end_layer h hr
    have hmoved := allocate_moved a r start_layer end_layer
    refine h.moved hmoved (fun id hid => allocate_knows hid r _ _) ?_
    rw [hmoved.ids node_id (Ne.symm (h.others r hr))]
    exact h.unknown
  deallocates := by
    intro a r h
    have hids := deallocate_ids a r
    refine h.moved (deallocate_moved a r) (by rw [hids]; exact fun _ hid => hid) ?_
    rw [hids]
    exact h.unknown
  declares := by
    intro a r h hr
    rw [declare_known (h.known r hr)]
    exact ⟨h.unknown, h.others, h.known, fun r' hr' => h.listed r' (mem_sort_nodes.mp hr'),
      (sorted_desc_perm _ _).nodup_iff.mpr h.nodup⟩

end scheduling.layer_allocation

namespace scheduling.scheduler

open scheduling.layer_allocation
open Allocator

/-! ## The scheduler -/

theorem kept_on_inside {S : Ref → Prop} {I : Allocator → Prop} (K : KeptOn S I) : KeptInside I where
  reallocates := fun a r _ _ hI hr => (K.reallocate (K.listed a hI r hr) _ _).state hI
  allocations := K.global_allocation
  clears := fun a hI => (K.deallocate_all a.nodes).state hI

/-- The state of a leave once the node is taken out. -/
def removed (s : Scheduler) (node_id : String) : Scheduler :=
  { s with
    layer_allocator := stateOf (layer_allocation.leave node_id s.layer_allocator)
    node_assigned_request_count := s.node_assigned_request_count.erase node_id }

/-- What a leave goes on with. -/
def after_removal : SchedM Unit := do
  let s ← get
  let needed ← raised s.layer_allocator.should_global_rebalance
  if needed then rebalance_after_leave else pure ()

theorem leave_eq {s : Scheduler} {node_id : String} {r : Ref} (hviews : Views s.layer_allocator)
    (hget : s.node_id_to_node.get? node_id = some r) :
    leave node_id s = after_removal (removed s node_id) := by
  have hhas : s.node_id_to_node.has node_id = true := Dict.has_iff.mpr ⟨r, hget⟩
  obtain ⟨a, hrun, _⟩ := leave_left hviews hget
  have hon : on_allocator (layer_allocation.leave node_id) s =
      .ok () { s with layer_allocator := a } := by
    unfold on_allocator
    rw [hrun]
  have hremoved : removed s node_id =
      { s with
        layer_allocator := a
        node_assigned_request_count := s.node_assigned_request_count.erase node_id } := by
    unfold removed
    rw [hrun]
    rfl
  unfold leave
  rw [get_bind, hhas, hremoved]
  exact bind_of_ok hon

theorem leave_raises {s : Scheduler} {node_id : String}
    (hget : s.node_id_to_node.get? node_id = none) : ∃ e, leave node_id s = .error e s := by
  have hhas : s.node_id_to_node.has node_id = false := Dict.has_eq_false.mpr hget
  unfold leave
  rw [get_bind, hhas]
  exact ⟨_, rfl⟩

theorem removed_left {s : Scheduler} {node_id : String} {r : Ref} (hviews : Views s.layer_allocator)
    (hget : s.node_id_to_node.get? node_id = some r) :
    Left node_id s.layer_allocator (removed s node_id).layer_allocator := by
  obtain ⟨a, hrun, hleft⟩ := leave_left hviews hget
  unfold removed
  rw [hrun]
  exact hleft

theorem after_removal_keeps {J : Scheduler → Prop} (K : KeptByRebalance J) :
    Keeps J after_removal := by
  apply Keeps.bind Keeps.gets
  intro s
  apply Keeps.bind (raised_keeps _)
  intro _
  exact Keeps.cond (fun _ => rebalance_after_leave_keeps K) (fun _ => Keeps.pure _)

end scheduling.scheduler
