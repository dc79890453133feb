-- Which nodes a heartbeat check evicts. It looks at the activity flag of a
-- node when its turn comes. By then the leave of an earlier node may have
-- cleared the flag, because a rebalance deallocates every node, or it may have
-- raised, which ends the check.
import InferenceMesh.Scheduling.Departure

open ordered_dict python state_exn
open scheduling.model_info scheduling.node scheduling.layer_allocation scheduling.request_routing

namespace scheduling.scheduler

open Allocator

/-- The node is active, and its last heartbeat is too old. -/
def expired (s : Scheduler) (now : Rat) (r : Ref) : Bool :=
  (s.node r).is_active && now - (s.node r).last_heartbeat > s.heartbeat_timeout

/-- The check of one node. -/
def check (now : Rat) (r : Ref) : SchedM Unit := do
  let s ← get
  if expired s now r then leave (s.node r).node_id else pure ()

theorem checking_node_heartbeat_eq (s : Scheduler) (now : Rat) :
    checking_node_heartbeat now s = s.nodes.forM (check now) s := rfl

theorem check_expired {s : Scheduler} {now : Rat} {r : Ref} (h : expired s now r = true) :
    check now r s = leave (s.node r).node_id s := by
  unfold check
  rw [get_bind, if_pos h]

theorem check_fresh {s : Scheduler} {now : Rat} {r : Ref} (h : expired s now r = false) :
    check now r s = .ok () s := by
  unfold check
  rw [get_bind, h]
  rfl

/-! ## What a leave changes -/

/-- A later state of the nodes: no id has come back, and no node has become active. -/
structure Later (s s' : Scheduler) : Prop where
  placed : Placed s'.layer_allocator
  timeout : s'.heartbeat_timeout = s.heartbeat_timeout
  alike : Alike s.layer_allocator s'.layer_allocator
  inactive : ∀ r, (s.node r).is_active = false → (s'.node r).is_active = false
  unknown : ∀ id, s.node_id_to_node.get? id = none → s'.node_id_to_node.get? id = none

theorem Later.refl {s : Scheduler} (h : Placed s.layer_allocator) : Later s s :=
  ⟨h, rfl, Alike.refl _, fun _ h => h, fun _ h => h⟩

theorem Later.trans {s s' s'' : Scheduler} (h : Later s s') (h' : Later s' s'') : Later s s'' :=
  ⟨h'.placed, h'.timeout.trans h.timeout, h.alike.trans h'.alike,
    fun r hr => h'.inactive r (h.inactive r hr), fun id hid => h'.unknown id (h.unknown id hid)⟩

theorem Later.node_id {s s' : Scheduler} (h : Later s s') (r : Ref) :
    (s'.node r).node_id = (s.node r).node_id := h.alike.node_id r

/-- The nodes that count as stale later are among those that do now. -/
theorem Later.expired_iff {s s' : Scheduler} (h : Later s s') (now : Rat) (r : Ref) :
    expired s' now r = true ↔ expired s now r = true ∧ (s'.node r).is_active = true := by
  have hbare := congrArg Node.last_heartbeat (h.alike.store r)
  have hheartbeat : (s'.node r).last_heartbeat = (s.node r).last_heartbeat := hbare
  unfold expired
  rw [hheartbeat, h.timeout]
  simp only [Bool.and_eq_true, decide_eq_true_eq]
  constructor
  · rintro ⟨hactive, hold⟩
    refine ⟨⟨?_, hold⟩, hactive⟩
    by_contra hnot
    rw [h.inactive r (by simpa using hnot)] at hactive
    cases hactive
  · rintro ⟨⟨_, hold⟩, hactive⟩
    exact ⟨hactive, hold⟩

theorem timeout_kept (timeout : Rat) : KeptByRebalance (fun s => s.heartbeat_timeout = timeout) :=
  kept_by_frame (fun _ _ h => h) (fun _ _ h => h)

/-- The node that leaves does not become active either. -/
theorem leave_inactive {a : Allocator} {r : Ref} (node_id : String)
    (h : (a.store r).is_active = false) :
    ((stateOf (layer_allocation.leave node_id a)).store r).is_active = false := by
  have hleave : Keeps (fun a => (a.store r).is_active = false)
      (layer_allocation.leave node_id) := by
    apply KeptOn.reads
    intro b _
    split
    · exact Keeps.throws _
    · exact Keeps.bind ((inactive_kept r).deallocate _) (fun _ => Keeps.modifies (fun _ h => h))
  exact hleave.state h

/-- A leave makes no node active and brings no id back. -/
theorem leave_later {s : Scheduler} (node_id : String) (h : Placed s.layer_allocator) :
    Later s (stateOf (leave node_id s)) := by
  rcases hget : s.node_id_to_node.get? node_id with _ | r
  · obtain ⟨e, hrun⟩ := leave_raises hget
    rw [hrun]
    exact Later.refl h
  · have hleft := removed_left h.views hget
    have hviews : Views (removed s node_id).layer_allocator :=
      (placed_kept.leave h node_id).views
    refine ⟨(leave_placed node_id).state h, ?_, ?_, ?_, ?_⟩
    all_goals rw [leave_eq h.views hget]
    · exact (after_removal_keeps (timeout_kept _)).state rfl
    · exact (after_removal_keeps (kept_by_rebalance (kept_on_inside
        (alike_kept s.layer_allocator)))).state hleft.alike
    · intro r' hr'
      exact (after_removal_keeps (kept_by_rebalance (kept_on_inside
        (inactive_kept r')))).state (leave_inactive node_id hr')
    · intro id hid
      have hunknown : (removed s node_id).layer_allocator.node_id_to_node.get? id = none := by
        rw [hleft.ids, Dict.get?_erase]
        split
        · rfl
        · exact hid
      exact ((after_removal_keeps (kept_by_rebalance (kept_on_inside
        (absent_kept _ id)))).state (absent_of_views hviews hunknown)).unknown

/-- After a leave the id is unknown, whether it returns or raises. -/
theorem leave_forgets {s : Scheduler} (node_id : String) (h : Placed s.layer_allocator) :
    (stateOf (leave node_id s)).node_id_to_node.get? node_id = none := by
  rcases hget : s.node_id_to_node.get? node_id with _ | r
  · obtain ⟨e, hrun⟩ := leave_raises hget
    rw [hrun]
    exact hget
  · have hleft := removed_left h.views hget
    have hviews : Views (removed s node_id).layer_allocator :=
      (placed_kept.leave h node_id).views
    have hunknown : (removed s node_id).layer_allocator.node_id_to_node.get? node_id = none := by
      rw [hleft.ids, Dict.get?_erase]
      simp
    rw [leave_eq h.views hget]
    exact ((after_removal_keeps (kept_by_rebalance (kept_on_inside
      (absent_kept _ node_id)))).state (absent_of_views hviews hunknown)).unknown

/-- The other nodes stay listed. -/
theorem leave_lists {s : Scheduler} {node_id : String} {r : Ref} (h : Placed s.layer_allocator)
    (hr : r ∈ s.nodes) (hne : (s.node r).node_id ≠ node_id) :
    r ∈ (stateOf (leave node_id s)).nodes := by
  rcases hget : s.node_id_to_node.get? node_id with _ | r'
  · obtain ⟨e, hrun⟩ := leave_raises hget
    rw [hrun]
    exact hr
  · have hleft := removed_left h.views hget
    rw [leave_eq h.views hget]
    exact (after_removal_keeps (kept_by_rebalance (kept_on_inside (listed_kept r)))).state
      ((hleft.nodes r).mpr ⟨hr, hne⟩)

/-! ## The walk -/

theorem check_later {s : Scheduler} (now : Rat) (r : Ref) (h : Placed s.layer_allocator) :
    Later s (stateOf (check now r s)) := by
  by_cases hr : expired s now r = true
  · rw [check_expired hr]
    exact leave_later _ h
  · rw [check_fresh (by simpa using hr)]
    exact Later.refl h

theorem walk_later {s : Scheduler} (now : Rat) (rest : List Ref) (h : Placed s.layer_allocator) :
    Later s (stateOf (rest.forM (check now) s)) := by
  induction rest generalizing s with
  | nil => exact Later.refl h
  | cons r rest ih =>
    have hcheck := check_later now r h
    rcases hrun : check now r s with ⟨_, s'⟩ | ⟨e, s'⟩
    · rw [hrun] at hcheck
      rw [forM_cons_of_ok hrun]
      exact hcheck.trans (ih hcheck.placed)
    · rw [hrun] at hcheck
      rw [forM_cons_of_error hrun]
      exact hcheck

/-- A node stays listed, unless a stale node ahead has its id. -/
theorem walk_lists {s : Scheduler} {now : Rat} {r : Ref} {rest : List Ref}
    (h : Placed s.layer_allocator) (hr : r ∈ s.nodes)
    (hother : ∀ r' ∈ rest, expired s now r' = true → (s.node r').node_id ≠ (s.node r).node_id) :
    r ∈ (stateOf (rest.forM (check now) s)).nodes := by
  induction rest generalizing s with
  | nil => exact hr
  | cons r₀ rest ih =>
    have hlater := check_later now r₀ h
    have hlisted : r ∈ (stateOf (check now r₀ s)).nodes := by
      by_cases hr₀ : expired s now r₀ = true
      · rw [check_expired hr₀]
        exact leave_lists h hr (Ne.symm (hother r₀ List.mem_cons_self hr₀))
      · rw [check_fresh (by simpa using hr₀)]
        exact hr
    rcases hrun : check now r₀ s with ⟨_, s'⟩ | ⟨e, s'⟩
    · rw [hrun] at hlater hlisted
      rw [forM_cons_of_ok hrun]
      apply ih hlater.placed hlisted
      intro r' hr' hexpired
      rw [hlater.node_id r', hlater.node_id r]
      exact hother r' (List.mem_cons_of_mem _ hr') ((hlater.expired_iff now r').mp hexpired).1
    · rw [hrun] at hlisted
      rw [forM_cons_of_error hrun]
      exact hlisted

/-- A node that is not active is skipped. -/
theorem skipped_stays {s : Scheduler} {now : Rat} {r : Ref} {rest : List Ref}
    (h : Placed s.layer_allocator) (hrest : ∀ r' ∈ rest, r' ∈ s.nodes) (hr : r ∈ s.nodes)
    (hinactive : (s.node r).is_active = false) :
    r ∈ (stateOf (rest.forM (check now) s)).nodes := by
  apply walk_lists h hr
  intro r' hr' hexpired hid
  have hsame : r' = r := h.views.eq_of_node_id (hrest r' hr') hr hid
  unfold expired at hexpired
  rw [hsame, hinactive] at hexpired
  cases hexpired

/-- The stale nodes that are still ahead are left alone: the leave of one of them returns, and it
lets the flags of the ones after it be. The leave of the last one may do what it likes. -/
def Undisturbed (now : Rat) : List Ref → Scheduler → Prop
  | [], _ => True
  | r :: rest, s =>
    if expired s now r then
      (∀ r' ∈ rest, expired s now r' = false) ∨
        ∃ s', leave (s.node r).node_id s = .ok () s' ∧
          (∀ r' ∈ rest, expired s now r' = true → (s'.node r').is_active = true) ∧
          Undisturbed now rest s'
    else Undisturbed now rest s

/-- A listed node has its id in the map. -/
theorem known_of_listed {s : Scheduler} {r : Ref} (h : Placed s.layer_allocator)
    (hr : r ∈ s.nodes) : s.node_id_to_node.get? (s.node r).node_id ≠ none := by
  have hget : s.node_id_to_node.get? (s.node r).node_id = some r := h.views.listed r hr
  rw [hget]
  exact Option.some_ne_none r

/-- The walk forgets every stale node exactly when they are left alone. -/
theorem walk_forgets_iff (now : Rat) (rest : List Ref) {s : Scheduler}
    (h : Placed s.layer_allocator) (hrest : ∀ r ∈ rest, r ∈ s.nodes) (hnodup : rest.Nodup) :
    (∀ r ∈ rest, expired s now r = true →
      (stateOf (rest.forM (check now) s)).node_id_to_node.get? (s.node r).node_id = none) ↔
    Undisturbed now rest s := by
  induction rest generalizing s with
  | nil => simp [Undisturbed]
  | cons r rest ih =>
    obtain ⟨hnew, hnodup'⟩ := List.nodup_cons.mp hnodup
    have hrest' : ∀ r' ∈ rest, r' ∈ s.nodes := fun r' hr' => hrest r' (List.mem_cons_of_mem _ hr')
    unfold Undisturbed
    by_cases hr : expired s now r = true
    · rw [if_pos hr]
      have hlater := leave_later (s.node r).node_id h
      have hforgets := leave_forgets (s.node r).node_id h
      have hlists : ∀ r' ∈ rest, r' ∈ (stateOf (leave (s.node r).node_id s)).nodes := by
        intro r' hr'
        refine leave_lists h (hrest' r' hr') ?_
        intro hid
        have hsame := h.views.eq_of_node_id (hrest' r' hr') (hrest r List.mem_cons_self) hid
        exact hnew (hsame ▸ hr')
      rcases hrun : leave (s.node r).node_id s with ⟨_, s'⟩ | ⟨e, s'⟩
      · rw [hrun] at hlater hforgets hlists
        simp only [stateOf] at hlater hforgets hlists
        have hwalk := walk_later now rest hlater.placed
        rw [forM_cons_of_ok ((check_expired hr).trans hrun)]
        constructor
        · intro hall
          refine Or.inr ⟨s', rfl, ?_, ?_⟩
          · -- A node that is skipped is still listed at the end.
            intro r' hr' hexpired
            by_contra hinactive
            have hstays : r' ∈ (stateOf (rest.forM (check now) s')).nodes :=
              skipped_stays hlater.placed hlists (hlists r' hr') (by simpa using hinactive)
            have hknown := known_of_listed hwalk.placed hstays
            rw [hwalk.node_id r', hlater.node_id r'] at hknown
            exact hknown (hall r' (List.mem_cons_of_mem _ hr') hexpired)
          · rw [← ih hlater.placed hlists hnodup']
            intro r' hr' hexpired
            rw [hlater.node_id r']
            exact hall r' (List.mem_cons_of_mem _ hr') ((hlater.expired_iff now r').mp hexpired).1
        · rintro hcase r' hr' hexpired
          rcases List.mem_cons.mp hr' with rfl | hr'
          · exact hwalk.unknown _ hforgets
          · rcases hcase with hlast | ⟨s'', hok, hactive, hundisturbed⟩
            · rw [hlast r' hr'] at hexpired
              cases hexpired
            · cases hok
              rw [← ih hlater.placed hlists hnodup'] at hundisturbed
              have hforgotten := hundisturbed r' hr'
                ((hlater.expired_iff now r').mpr ⟨hexpired, hactive r' hr' hexpired⟩)
              rw [hlater.node_id r'] at hforgotten
              exact hforgotten
      · rw [hrun] at hlater hforgets hlists
        simp only [stateOf] at hlater hforgets hlists
        rw [forM_cons_of_error ((check_expired hr).trans hrun)]
        constructor
        · intro hall
          refine Or.inl (fun r' hr' => ?_)
          by_contra hexpired
          have hknown := known_of_listed hlater.placed (hlists r' hr')
          rw [hlater.node_id r'] at hknown
          exact hknown (hall r' (List.mem_cons_of_mem _ hr') (by simpa using hexpired))
        · rintro (hlast | ⟨s'', hok, _⟩) r' hr' hexpired
          · rcases List.mem_cons.mp hr' with rfl | hr'
            · exact hforgets
            · rw [hlast r' hr'] at hexpired
              cases hexpired
          · cases hok
    · have hfresh : expired s now r = false := by simpa using hr
      rw [if_neg hr, forM_cons_of_ok (check_fresh hfresh), ← ih h hrest' hnodup']
      simp [hfresh]

/-- The check leaves no trace of a node that was active and stale when it began. -/
def EvictsStale (now : Rat) (s : Scheduler) : Prop :=
  ∀ r ∈ s.nodes, expired s now r = true →
    Evicted (stateOf (checking_node_heartbeat now s)).layer_allocator (s.node r).node_id

/-- Two equal nodes. With seven layers they share one pipeline, and with five each of them has a
pipeline of its own. -/
def two_nodes (num_layers : Nat) : Scheduler :=
  .init (fun r => a100_40g (build_model_info num_layers) (if r = 0 then "a" else "b"))
    (build_model_info num_layers) [0, 1] 1 .dp .dp ⊤ 40 0 60

theorem two_nodes_placed (num_layers : Nat) : Placed (two_nodes num_layers).layer_allocator := by
  apply init_scheduler_placed
  · have hids : ["a", "b"].Nodup := by decide
    exact hids
  · intro r _
    exact ⟨rfl, rfl⟩

end scheduling.scheduler
