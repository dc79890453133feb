-- Who marks a node active. Of all steps of the scheduler only a message of its
-- worker does: an update, or the object that a join brings along. The steps
-- that move layers around take marks away, and give none.
import InferenceMesh.Scheduling.Heartbeat
import InferenceMesh.Scheduling.JoinQueue

open ordered_dict python state_exn
open scheduling.model_info scheduling.node

namespace scheduling.layer_allocation

open Allocator

/-- The ids lead to objects of that id, and no object of the given id is active. -/
structure Unmarked (node_id : String) (a : Allocator) : Prop where
  named : ∀ id r, a.node_id_to_node.get? id = some r → a.node_id r = id
  inactive : ∀ r, a.node_id r = node_id → (a.store r).is_active = false

theorem Unmarked.of {node_id : String} {a a' : Allocator} (h : Unmarked node_id a)
    (halike : ∀ r, a'.node_id r = a.node_id r)
    (hids : ∀ id r, a'.node_id_to_node.get? id = some r →
      a.node_id_to_node.get? id = some r ∨ a.node_id r = id)
    (hinactive : ∀ r, (a.store r).is_active = false → (a'.store r).is_active = false) :
    Unmarked node_id a' := by
  refine ⟨?_, ?_⟩
  · intro id r hr
    rw [halike r]
    rcases hids id r hr with hold | hown
    · exact h.named id r hold
    · exact hown
  · intro r hr
    rw [halike r] at hr
    exact hinactive r (h.inactive r hr)

theorem unmarked_kept (node_id : String) : KeptOn (fun _ => True) (Unmarked node_id) where
  listed := fun _ _ _ _ => trivial
  searched := fun _ _ _ _ _ _ => trivial
  allocates := by
    intro a r start_layer end_layer h _
    refine h.of (allocate_moved a r _ _).alike.node_id ?_ ?_
    · intro id r' hr'
      rcases allocate_recorded a r start_layer end_layer with ⟨_, hids⟩ | ⟨_, hids⟩
      · rw [hids] at hr'
        exact Or.inl hr'
      · rw [hids, Dict.get?_insert] at hr'
        split at hr'
        · rename_i hid
          cases hr'
          exact Or.inr hid
        · exact Or.inl hr'
    · intro r' hr'
      exact (allocate_is_active a r r' _ _).trans hr'
  deallocates := by
    intro a r h
    refine h.of (deallocate_moved a r).alike.node_id ?_ ?_
    · intro id r' hr'
      rw [deallocate_ids] at hr'
      exact Or.inl hr'
    · exact fun r' hr' => (inactive_kept r').deallocates a r hr'
  declares := by
    intro a r h _
    by_cases hhas : a.node_id_to_node.has (a.node_id r) = true
    · rw [declare_known hhas]
      exact ⟨h.named, h.inactive⟩
    · rw [declare_new (Dict.has_eq_false.mp (by simpa using hhas))]
      refine h.of (fun _ => rfl) ?_ (fun _ hr' => hr')
      intro id r' hr'
      have hget : (a.node_id_to_node.insert (a.node_id r) r).get? id = some r' := hr'
      rw [Dict.get?_insert] at hget
      split at hget
      · rename_i hid
        cases hget
        exact Or.inr hid
      · exact Or.inl hget

theorem leave_unmarked (node_id left : String) :
    Keeps (Unmarked node_id) (layer_allocation.leave left) := by
  apply KeptOn.reads
  intro a _
  split
  · exact Keeps.throws _
  · refine Keeps.bind ((unmarked_kept node_id).deallocate _) (fun _ => Keeps.modifies ?_)
    intro b h
    refine h.of (fun _ => rfl) ?_ (fun _ hr => hr)
    intro id r hr
    have hget : (b.node_id_to_node.erase left).get? id = some r := hr
    rw [Dict.get?_erase] at hget
    split at hget
    · cases hget
    · exact Or.inl hget

end scheduling.layer_allocation

namespace scheduling.scheduler

open scheduling.layer_allocation scheduling.request_routing
open Allocator

/-! ## The events without a message of a worker -/

/-- What makes `J` an invariant of the steps that bring no message of a worker. -/
structure KeptByEvents (J : Scheduler → Prop) : Prop where
  rebalances : KeptByRebalance J
  joins : ∀ r, KeptByJoin r J
  leaves : ∀ node_id, Keeps J (on_allocator (layer_allocation.leave node_id))
  counts : ∀ s r, J s → J (s.modify_node r Node.add_request)
  queues : ∀ s s', J s → s'.layer_allocator = s.layer_allocator →
    s'.pending_node_updates = s.pending_node_updates → J s'

namespace KeptByEvents

variable {J : Scheduler → Prop} (K : KeptByEvents J)
include K

theorem leave (node_id : String) : Keeps J (scheduler.leave node_id) := by
  apply Keeps.bind Keeps.gets
  intro s
  apply Keeps.cond (fun _ => Keeps.throws _)
  intro _
  apply Keeps.bind (K.leaves node_id)
  intro _
  refine Keeps.bind (Keeps.modifies (fun s hs => K.queues s _ hs rfl rfl)) (fun _ => ?_)
  exact after_removal_keeps K.rebalances

theorem find_optimal_path : Keeps J scheduler.find_optimal_path := by
  apply Triple.of_state
  intro s hs
  unfold scheduler.find_optimal_path
  split
  · split
    · exact hs
    · exact hs
  · split
    · exact K.queues s _ hs rfl rfl
    · exact K.queues s _ hs rfl rfl

theorem assign_request (node_id : String) : Keeps J (scheduler.assign_request node_id) := by
  apply Keeps.bind Keeps.gets
  intro s
  split
  · exact Keeps.throws _
  · refine Keeps.bind (Keeps.modifies (fun s hs => K.queues s _ hs rfl rfl)) (fun _ => ?_)
    exact Keeps.modifies (fun s hs => K.counts s _ hs)

theorem dispatch_next_request : Keeps J scheduler.dispatch_next_request := by
  apply Triple.reads
  intro s hs
  split
  · exact Triple.pure (fun s' (hs' : s' = s) => hs' ▸ hs)
  · rename_i req rest _
    have hqueue : Triple (fun s' => s' = s) (set { s with request_queue := rest } : SchedM PUnit)
        (fun _ => J) (fun _ => J) := Triple.sets (fun _ _ => K.queues s _ hs rfl rfl)
    apply Triple.bind hqueue
    intro _
    apply Keeps.bind K.find_optimal_path
    rintro ⟨path, latency⟩
    exact Keeps.bind (Keeps.forEach _ (fun id _ => K.assign_request id)) (fun _ => Keeps.pure _)

theorem process_join : Keeps J scheduler.process_join := by
  apply Triple.reads
  intro s hs
  split
  · exact Triple.pure (fun s' (hs' : s' = s) => hs' ▸ hs)
  · rename_i r rest _
    have hqueue : Triple (fun s' => s' = s) (set { s with pending_joins := rest } : SchedM PUnit)
        (fun _ => J) (fun _ => J) := Triple.sets (fun _ _ => K.queues s _ hs rfl rfl)
    exact Triple.bind hqueue (fun _ => join_keeps (K.joins r) _)

theorem process_leave : Keeps J scheduler.process_leave := by
  apply Triple.reads
  intro s hs
  split
  · exact Triple.pure (fun s' (hs' : s' = s) => hs' ▸ hs)
  · rename_i node_id rest _
    have hqueue : Triple (fun s' => s' = s) (set { s with pending_leaves := rest } : SchedM PUnit)
        (fun _ => J) (fun _ => J) := Triple.sets (fun _ _ => K.queues s _ hs rfl rfl)
    exact Triple.bind hqueue (fun _ => Keeps.catches (K.leave node_id) (fun _ => Keeps.pure _))

theorem checking_node_heartbeat (now : Rat) : Keeps J (scheduler.checking_node_heartbeat now) := by
  apply Keeps.bind Keeps.gets
  intro s
  apply Keeps.forEach
  intro r _
  apply Keeps.bind Keeps.gets
  intro s
  exact Keeps.cond (fun _ => K.leave _) (fun _ => Keeps.pure _)

end KeptByEvents

/-- The event brings no message of a worker, and takes none out of the queue. -/
def Event.Internal : Event → Prop
  | .node_join _ _ _ => False
  | .node_update _ _ _ => False
  | .process_node_update _ => False
  | _ => True

theorem KeptByEvents.event {J : Scheduler → Prop} (K : KeptByEvents J) {s : Scheduler} {e : Event}
    (he : e.Internal) (h : J s) : J (e.after s) := by
  unfold Event.after
  cases e with
  | node_join now m r => exact he.elim
  | node_update now m r => exact he.elim
  | node_leave m => exact K.queues s _ h rfl rfl
  | process_node_update now => exact he.elim
  | process_join => exact K.process_join.state h
  | bootstrap_after_joins => exact (bootstrap_after_joins_keeps_by K.rebalances).state h
  | process_leave => exact K.process_leave.state h
  | checking_node_heartbeat now => exact (K.checking_node_heartbeat now).state h
  | wait_for_bootstrap =>
    exact (Keeps.bind (bootstrap_keeps K.rebalances false false) (fun _ => Keeps.pure _)).state h
  | receive_request request => exact K.queues s _ h rfl rfl
  | dispatch_next_request =>
    exact (Keeps.bind K.dispatch_next_request (fun _ => Keeps.pure _)).state h

/-! ## Silence -/

/-- Nothing in the scheduler says that the node of the id is active, and no update in the queue
will. -/
structure Quiet (node_id : String) (s : Scheduler) : Prop where
  unmarked : Unmarked node_id s.layer_allocator
  updates : ∀ u ∈ s.pending_node_updates, u.node_id = node_id → u.is_active ≠ some true

/-- A node changes, but not in its id, and it does not become active. -/
theorem Unmarked.changed {node_id : String} {a : Allocator} {r : Ref} {n : Node}
    (h : Unmarked node_id a) (hid : n.node_id = a.node_id r)
    (hactive : a.node_id r = node_id → n.is_active = false) :
    Unmarked node_id (a.set_node r n) := by
  have hids : ∀ r', (a.set_node r n).node_id r' = a.node_id r' := by
    intro r'
    unfold Allocator.node_id
    by_cases hr : r' = r
    · subst hr
      simpa [set_node, Allocator.node_id] using hid
    · simp [set_node, hr]
  refine ⟨?_, ?_⟩
  · intro id r' hr'
    rw [hids]
    exact h.named id r' hr'
  · intro r' hr'
    rw [hids] at hr'
    by_cases hr : r' = r
    · subst hr
      simpa [set_node] using hactive hr'
    · simpa [set_node, hr] using h.inactive r' hr'

theorem unmarked_events (node_id : String) : KeptByEvents (OfAllocator (Unmarked node_id)) where
  rebalances := kept_by_rebalance (kept_on_inside (unmarked_kept node_id))
  joins := kept_by_join (unmarked_kept node_id)
  leaves := fun left => on_allocator_keeps (leave_unmarked node_id left)
  counts := fun _ r h => Unmarked.changed h rfl (h.inactive r)
  queues := by
    intro s s' h hallocator _
    unfold OfAllocator
    rw [hallocator]
    exact h

/-- These events leave the updates in the queue alone. -/
theorem updates_events (updates : List NodeUpdate) :
    KeptByEvents (fun s => s.pending_node_updates = updates) where
  rebalances := kept_by_frame (fun _ _ h => h) (fun _ _ h => h)
  joins := fun _ =>
    ⟨on_allocator_frame (fun _ _ h => h) _, fun _ _ => on_allocator_frame (fun _ _ h => h) _,
      on_allocator_frame (fun _ _ h => h) _, fun _ h => h⟩
  leaves := fun _ => on_allocator_frame (fun _ _ h => h) _
  counts := fun _ _ h => h
  queues := fun _ _ h _ hupdates => hupdates.trans h

/-- The event brings no word from the node that it is active. -/
def Event.Silent (node_id : String) : Event → Prop
  | .node_join _ m _ => m.node_id = node_id → m.is_active = some false
  | .node_update _ m _ => m.node_id = node_id → m.is_active = some false
  | _ => True

theorem quiet_of_new {node_id : String} {s : Scheduler} {r : Ref} {n : Node} (h : Quiet node_id s)
    (hr : Unused s r) (hn : n.node_id = node_id → n.is_active = false) :
    Unmarked node_id (s.layer_allocator.set_node r n) := by
  refine ⟨?_, ?_⟩
  · intro id r' hr'
    have hne : r' ≠ r := by
      rintro rfl
      exact hr.registered (List.mem_map_of_mem (f := Prod.snd) (Dict.get?_eq_some.mp hr'))
    unfold Allocator.node_id
    simp only [set_node, Function.update_of_ne hne]
    exact h.unmarked.named id r' hr'
  · intro r' hr'
    by_cases hsame : r' = r
    · subst hsame
      unfold Allocator.node_id at hr'
      simp only [set_node, Function.update_self] at hr' ⊢
      exact hn hr'
    · unfold Allocator.node_id at hr'
      simp only [set_node, Function.update_of_ne hsame] at hr' ⊢
      exact h.unmarked.inactive r' hr'

theorem build_node_silent {node_id : String} {m : ModelInfo} {now : Rat} {message : NodeMessage}
    (h : message.node_id = node_id → message.is_active = some false) :
    (build_node m now message).node_id = node_id → (build_node m now message).is_active = false := by
  intro hid
  have hactive : (build_node m now message).is_active = message.is_active.getD true := rfl
  rw [hactive, h hid]
  rfl

theorem node_update_quiet {node_id : String} {s : Scheduler} {now : Rat} {m : NodeMessage} {r : Ref}
    (h : Quiet node_id s) (hr : Unused s r)
    (hm : m.node_id = node_id → m.is_active = some false) :
    Quiet node_id (stateOf (node_update now m r s)) := by
  have hkeeps : Triple (fun s' => s' = s) (node_update now m r) (fun _ => Quiet node_id)
      (fun _ => Quiet node_id) := by
    apply Triple.reads
    intro s' hs'
    rw [hs']
    apply Triple.cond
    · intro _
      apply Triple.bind (R := fun _ => Quiet node_id)
      · apply Triple.modifies
        intro s' hs'
        rw [hs']
        exact ⟨quiet_of_new h hr (build_node_silent hm), h.updates⟩
      · intro _
        exact Keeps.modifies (fun _ h => ⟨h.unmarked, h.updates⟩)
    · intro _
      apply Triple.mono (P := Quiet node_id) _ _ (fun _ _ h => h) (fun _ _ h => h)
      · refine Keeps.bind (raised_keeps _) (fun _ => Keeps.modifies (fun s' h => ⟨h.unmarked, ?_⟩))
        intro u hu hid
        rcases List.mem_append.mp hu with hold | hnew
        · exact h.updates u hold hid
        · cases List.mem_singleton.mp hnew
          have hsilent : (build_node s.model_info now m).is_active = false :=
            build_node_silent hm hid
          simp [hsilent]
      · intro s' hs'
        rw [hs']
        exact h
  exact hkeeps.state rfl

theorem process_node_update_quiet {node_id : String} {s : Scheduler} {now : Rat}
    (h : Quiet node_id s) : Quiet node_id (stateOf (process_node_update now s)) := by
  have hkeeps : Triple (fun s' => s' = s) (process_node_update now) (fun _ => Quiet node_id)
      (fun _ => Quiet node_id) := by
    apply Triple.reads
    intro s' hs'
    rw [hs']
    split
    · exact Triple.pure (fun s' (hs' : s' = s) => hs' ▸ h)
    · rename_i u rest hq
      have hrest : Quiet node_id { s with pending_node_updates := rest } :=
        ⟨h.unmarked, fun v hv => h.updates v (by rw [hq]; exact List.mem_cons_of_mem _ hv)⟩
      have hqueue : Triple (fun s' => s' = s)
          (set { s with pending_node_updates := rest } : SchedM PUnit)
          (fun _ s' => s' = { s with pending_node_updates := rest }) (fun _ => Quiet node_id) :=
        Triple.sets (fun _ _ => rfl)
      apply Triple.bind hqueue
      intro _
      split
      · exact Triple.pure (fun s' (hs' : s' = _) => hs' ▸ hrest)
      · rename_i r hget
        apply Triple.modifies
        intro s' hs'
        rw [hs']
        refine ⟨Unmarked.changed h.unmarked rfl ?_, hrest.updates⟩
        -- The object has the id of the update.
        intro hr
        have hid : u.node_id = node_id := (h.unmarked.named u.node_id r hget).symm.trans hr
        have hword := h.updates u (by rw [hq]; exact List.mem_cons_self) hid
        rcases hactive : u.is_active with _ | ⟨_ | _⟩
        · exact h.unmarked.inactive r hr
        · rfl
        · exact (hword hactive).elim
  exact hkeeps.state rfl

/-- While its worker does not say so, a node does not become active. -/
theorem event_quiet {node_id : String} {s : Scheduler} {e : Event} (h : Quiet node_id s)
    (he : e.Possible s) (hsilent : e.Silent node_id) : Quiet node_id (e.after s) := by
  have hinternal : e.Internal → Quiet node_id (e.after s) := by
    intro hi
    refine ⟨(unmarked_events node_id).event hi h.unmarked, ?_⟩
    have hupdates : (e.after s).pending_node_updates = s.pending_node_updates :=
      (updates_events s.pending_node_updates).event hi rfl
    rw [hupdates]
    exact h.updates
  cases e with
  | node_join now m r => exact ⟨quiet_of_new h he (build_node_silent hsilent), h.updates⟩
  | node_update now m r => exact node_update_quiet h he hsilent
  | process_node_update now => exact process_node_update_quiet h
  | node_leave m => exact hinternal trivial
  | process_join => exact hinternal trivial
  | bootstrap_after_joins => exact hinternal trivial
  | process_leave => exact hinternal trivial
  | checking_node_heartbeat now => exact hinternal trivial
  | wait_for_bootstrap => exact hinternal trivial
  | receive_request request => exact hinternal trivial
  | dispatch_next_request => exact hinternal trivial

end scheduling.scheduler
