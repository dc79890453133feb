-- The queue of joins. Nothing catches the exception of a join there, so the
-- first node that cannot be given its layers ends the loop, and with it the
-- thread of the events. The leaves are handled with a catch.
import InferenceMesh.Scheduling.Departure

open ordered_dict python state_exn
open scheduling.model_info scheduling.node scheduling.layer_allocation scheduling.request_routing

namespace scheduling.scheduler

open Allocator

/-! ## The queues as a whole -/

/-- Applies the pending updates. -/
def process_node_updates (now : Rat) : SchedM Unit := do
  let s ← get
  s.pending_node_updates.forM (fun _ => process_node_update now)

/-- Handles the pending joins. A join does not change whether a node is a manual one, so the flags
are those before the loop. -/
def process_joins : SchedM Unit := do
  let s ← get
  s.pending_joins.forM (fun _ => process_join)
  let joined_any := !s.pending_joins.isEmpty
  let had_manual_assignment := s.pending_joins.any (fun r => (s.node r).manual_layer_assignment)
  if joined_any && !had_manual_assignment then bootstrap_after_joins else pure ()

/-- Handles the pending leaves. -/
def process_leaves : SchedM Unit := do
  let s ← get
  s.pending_leaves.forM (fun _ => process_leave)

/-- One round of the thread of the events. Nothing is caught here. -/
def event_loop_round (now : Rat) (check_is_due : Bool) : SchedM Unit := do
  process_node_updates now
  process_joins
  process_leaves
  if check_is_due then checking_node_heartbeat now else pure ()

/-! ## When a join returns -/

/-- A manual node names a range of the model, and another one finds room from the lightest layer
on, once the scheduler is bootstrapped. -/
def Joinable (s : Scheduler) (r : Ref) : Prop :=
  if (s.node r).manual_layer_assignment then
    ∃ start_layer end_layer, (s.node r).start_layer = some start_layer ∧
      (s.node r).end_layer = some end_layer ∧ start_layer < end_layer ∧
      s.layer_allocator.fits start_layer end_layer
  else s.bootstrapped = true →
    ∃ l : Nat, s.layer_allocator.get_lightest_layer = some l ∧
      (l : Int) < s.layer_allocator.adjust_end_layer_for_tail (s.node r) l ∧
      s.layer_allocator.fits l (s.layer_allocator.adjust_end_layer_for_tail (s.node r) l)

/-- An allocation returns exactly when the range has layers and all of them exist. -/
theorem allocate_returned_iff (a : Allocator) (r : Ref) (start_layer end_layer : Int) :
    returned (allocate r start_layer end_layer a) = true ↔
      start_layer < end_layer ∧ a.fits start_layer end_layer := by
  by_cases hlt : start_layer < end_layer
  · by_cases hfits : a.fits start_layer end_layer
    · obtain ⟨loads, hrun, _⟩ := allocate_ok (r := r) hlt hfits
      rw [hrun]
      simp [returned, hlt, hfits]
    · obtain ⟨e, loads, hrun, _⟩ := allocate_outside (r := r) hlt hfits
      rw [hrun]
      simp [returned, hfits]
  · obtain ⟨e, hrun⟩ := allocate_empty (a := a) (r := r) (not_lt.mp hlt)
    rw [hrun]
    simp [returned, hlt]

/-- What a declaration leaves as it was. -/
structure Declared (a a' : Allocator) (r : Ref) : Prop where
  store : a'.store = a.store
  loads : a'.layer_to_load = a.layer_to_load
  heap : a'.layer_loads_heap = a.layer_loads_heap
  model_info : a'.model_info = a.model_info
  known : a'.node_id_to_node.has (a.node_id r) = true

theorem declare_declared (a : Allocator) (r : Ref) :
    ∃ a', declare r a = .ok () a' ∧ Declared a a' r := by
  by_cases hhas : a.node_id_to_node.has (a.node_id r) = true
  · exact ⟨_, declare_known hhas, rfl, rfl, rfl, rfl, hhas⟩
  · refine ⟨_, declare_new (Dict.has_eq_false.mp (by simpa using hhas)), rfl, rfl, rfl, rfl, ?_⟩
    exact Dict.has_iff.mpr ⟨r, Dict.get?_insert_self _ _ _⟩

theorem Declared.fits_iff {a a' : Allocator} {r : Ref} (h : Declared a a' r)
    (start_layer end_layer : Int) :
    a'.fits start_layer end_layer ↔ a.fits start_layer end_layer := by
  unfold fits
  rw [h.loads]

theorem Declared.adjust {a a' : Allocator} {r : Ref} (h : Declared a a' r) (n : Node) (l : Int) :
    a'.adjust_end_layer_for_tail n l = a.adjust_end_layer_for_tail n l := by
  unfold adjust_end_layer_for_tail num_total_layers
  rw [h.model_info]

/-- A join of the allocator returns exactly when there is room at the lightest layer. -/
theorem join_returned_iff (a : Allocator) (r : Ref) :
    returned (layer_allocation.join r a) = true ↔
      ∃ l : Nat, a.get_lightest_layer = some l ∧
        (l : Int) < a.adjust_end_layer_for_tail (a.store r) l ∧
        a.fits l (a.adjust_end_layer_for_tail (a.store r) l) := by
  obtain ⟨a', hrun, hdeclared⟩ := declare_declared a r
  have hlightest : a'.get_lightest_layer = a.get_lightest_layer := by
    unfold get_lightest_layer
    rw [hdeclared.heap]
  unfold layer_allocation.join
  rw [bind_of_ok hrun, get_bind, hlightest, hdeclared.store]
  rcases hl : a.get_lightest_layer with _ | l
  · constructor
    · intro h
      cases h
    · rintro ⟨l, hnone, _⟩
      cases hnone
  · simp only [hdeclared.adjust, allocate_returned_iff, hdeclared.fits_iff, Option.some.injEq,
      exists_eq_left']

theorem on_allocator_returned {x : AllocM Unit} (s : Scheduler) :
    returned (on_allocator x s) = returned (x s.layer_allocator) := by
  unfold on_allocator
  rcases x s.layer_allocator with ⟨v, a⟩ | ⟨e, a⟩ <;> rfl

/-- A program that is followed by one that always returns. -/
theorem returned_then {x : SchedM Unit} {f : Scheduler → Scheduler} (s : Scheduler) :
    returned ((x >>= fun _ => modify f) s) = returned (x s) := by
  rcases hrun : x s with ⟨_, s'⟩ | ⟨e, s'⟩
  · rw [bind_of_ok hrun]
    rfl
  · rw [bind_of_error hrun]

theorem assign_layers_returned_iff (s : Scheduler) (r : Ref) :
    returned (assign_layers r (!s.bootstrapped) s) = true ↔ Joinable s r := by
  unfold assign_layers Joinable
  rw [get_bind]
  split
  · rcases hs : (s.node r).start_layer with _ | start_layer
    · simp [throw, throwThe, MonadExceptOf.throw, EStateM.throw, returned]
    · rcases he : (s.node r).end_layer with _ | end_layer
      · simp [throw, throwThe, MonadExceptOf.throw, EStateM.throw, returned]
      · simp only [returned_then, on_allocator_returned, allocate_returned_iff, Option.some.injEq]
        constructor
        · rintro ⟨hlt, hfits⟩
          exact ⟨start_layer, end_layer, rfl, rfl, hlt, hfits⟩
        · rintro ⟨_, _, rfl, rfl, hlt, hfits⟩
          exact ⟨hlt, hfits⟩
  · rcases hboot : s.bootstrapped with _ | _
    · simp [returned, pure, EStateM.pure]
    · simp only [Bool.not_true, Bool.not_false, if_true, on_allocator_returned, join_returned_iff,
        forall_const]
      exact Iff.rfl

/-- The state once the node is declared. -/
theorem join_eq (s : Scheduler) (r : Ref) (wait : Bool) :
    ∃ a', Declared s.layer_allocator a' r ∧
      join r wait s = assign_layers r wait { s with layer_allocator := a' } := by
  obtain ⟨a', hrun, hdeclared⟩ := declare_declared s.layer_allocator r
  refine ⟨a', hdeclared, ?_⟩
  apply bind_of_ok
  unfold on_allocator
  rw [hrun]

theorem Declared.joinable_iff {s : Scheduler} {a' : Allocator} {r : Ref}
    (h : Declared s.layer_allocator a' r) :
    Joinable { s with layer_allocator := a' } r ↔ Joinable s r := by
  have hnode : ({ s with layer_allocator := a' } : Scheduler).node r = s.node r :=
    congrFun h.store r
  have hlightest : a'.get_lightest_layer = s.layer_allocator.get_lightest_layer := by
    unfold get_lightest_layer
    rw [h.heap]
  unfold Joinable
  rw [hnode]
  simp only [hlightest, h.adjust, h.fits_iff]

/-- A join returns exactly when the node is joinable. -/
theorem join_returns_iff (s : Scheduler) (r : Ref) :
    returned (join r (!s.bootstrapped) s) = true ↔ Joinable s r := by
  obtain ⟨a', hdeclared, hrun⟩ := join_eq s r (!s.bootstrapped)
  rw [hrun, ← hdeclared.joinable_iff]
  exact assign_layers_returned_iff { s with layer_allocator := a' } r

/-! ## What a join keeps -/

/-- An id that is known stays known. -/
theorem known_kept (node_id : String) :
    KeptOn (fun _ => True) (fun a => a.node_id_to_node.has node_id = true) where
  listed := fun _ _ _ _ => trivial
  searched := fun _ _ _ _ _ _ => trivial
  allocates := fun a r start_layer end_layer h _ => allocate_knows h r _ _
  deallocates := fun a r h => by
    rw [deallocate_ids]
    exact h
  declares := by
    intro a r h _
    by_cases hhas : a.node_id_to_node.has (a.node_id r) = true
    · rw [declare_known hhas]
      exact h
    · rw [declare_new (Dict.has_eq_false.mp (by simpa using hhas))]
      obtain ⟨r', hr'⟩ := Dict.has_iff.mp h
      have hne : a.node_id r ≠ node_id := by
        rintro rfl
        exact hhas h
      have hget : (a.register r).sort_nodes.node_id_to_node.get? node_id = some r' :=
        (Dict.get?_insert_ne _ _ hne).trans hr'
      exact Dict.has_iff.mpr ⟨r', hget⟩

/-- What makes `J` an invariant of the join of a node. -/
structure KeptByJoin (r : Ref) (J : Scheduler → Prop) : Prop where
  declares : Keeps J (on_allocator (declare r))
  allocates : ∀ start_layer end_layer, Keeps J (on_allocator (allocate r start_layer end_layer))
  joins : Keeps J (on_allocator (layer_allocation.join r))
  bootstraps : ∀ s, J s → J { s with bootstrapped := true }

theorem kept_by_join {I : Allocator → Prop} (K : KeptOn (fun _ => True) I) (r : Ref) :
    KeptByJoin r (OfAllocator I) where
  declares := on_allocator_keeps (K.declare trivial)
  allocates := fun _ _ => on_allocator_keeps (K.allocate trivial _ _)
  joins := on_allocator_keeps (K.join trivial)
  bootstraps := fun _ h => h

theorem on_allocator_frame {J : Scheduler → Prop}
    (hallocator : ∀ s a, J s → J { s with layer_allocator := a }) (x : AllocM Unit) :
    Keeps J (on_allocator x) := by
  intro s hs
  unfold on_allocator
  rcases x s.layer_allocator with ⟨v, a⟩ | ⟨e, a⟩
  · exact hallocator s a hs
  · exact hallocator s a hs

theorem assign_layers_keeps {J : Scheduler → Prop} {r : Ref} (K : KeptByJoin r J) (wait : Bool) :
    Keeps J (assign_layers r wait) := by
  apply Keeps.bind Keeps.gets
  intro s
  apply Keeps.cond
  · intro _
    split
    · refine Keeps.bind (K.allocates _ _) (fun _ => ?_)
      apply Keeps.modifies
      intro s' hs'
      split
      · exact K.bootstraps s' hs'
      · exact hs'
    · exact Keeps.throws _
  · intro _
    exact Keeps.cond (fun _ => K.joins) (fun _ => Keeps.pure _)

theorem join_keeps {J : Scheduler → Prop} {r : Ref} (K : KeptByJoin r J) (wait : Bool) :
    Keeps J (join r wait) := Keeps.bind K.declares (fun _ => assign_layers_keeps K wait)

/-- After a join the id of the node is known, whether the join returns or raises. -/
theorem join_known (s : Scheduler) (r : Ref) (wait : Bool) :
    (stateOf (join r wait s)).node_id_to_node.has (s.node r).node_id = true := by
  obtain ⟨a', hdeclared, hrun⟩ := join_eq s r wait
  rw [hrun]
  exact (assign_layers_keeps (kept_by_join (known_kept _) r) wait).state hdeclared.known

/-- A join leaves the queue alone. -/
theorem join_pending (pending : List Ref) (r : Ref) :
    KeptByJoin r (fun s => s.pending_joins = pending) where
  declares := on_allocator_frame (fun _ _ h => h) _
  allocates := fun _ _ => on_allocator_frame (fun _ _ h => h) _
  joins := on_allocator_frame (fun _ _ h => h) _
  bootstraps := fun _ h => h

/-! ## The loop over the queue -/

theorem process_join_eq {s : Scheduler} {r : Ref} {rest : List Ref}
    (h : s.pending_joins = r :: rest) :
    process_join s = join r (!s.bootstrapped) { s with pending_joins := rest } := by
  unfold process_join
  rw [get_bind, h]
  rfl

/-- In its turn each queued node is joinable. -/
def EachJoinable : List Ref → Scheduler → Prop
  | [], _ => True
  | r :: rest, s => Joinable s r ∧ EachJoinable rest (stateOf (process_join s))

/-- In its turn each queued node joins cleanly. -/
def EachClean : List Ref → Scheduler → Prop
  | [], _ => True
  | r :: rest, s => JoinsCleanly s r ∧ EachClean rest (stateOf (process_join s))

/-- One round of the loop. -/
theorem process_join.spec {s : Scheduler} {r : Ref} {rest : List Ref}
    (h : s.pending_joins = r :: rest) :
    (returned (process_join s) = true ↔ Joinable s r) ∧
      (stateOf (process_join s)).pending_joins = rest ∧
      (stateOf (process_join s)).node_id_to_node.has (s.node r).node_id = true ∧
      Alike s.layer_allocator (stateOf (process_join s)).layer_allocator := by
  rw [process_join_eq h]
  refine ⟨join_returns_iff { s with pending_joins := rest } r, ?_, join_known _ r _, ?_⟩
  · exact (join_keeps (join_pending rest r) _).state rfl
  · exact (join_keeps (kept_by_join (alike_kept s.layer_allocator) r) _).state (Alike.refl _)

theorem process_join_known (node_id : String) :
    Keeps (OfAllocator (fun a => a.node_id_to_node.has node_id = true)) process_join := by
  apply Triple.reads
  intro s hs
  rcases hq : s.pending_joins with _ | ⟨r, rest⟩
  · exact Triple.pure (fun s' (hs' : s' = s) => hs' ▸ hs)
  · have hqueue : Triple (fun s' => s' = s) (set { s with pending_joins := rest } : SchedM PUnit)
        (fun _ => OfAllocator (fun a => a.node_id_to_node.has node_id = true))
        (fun _ => OfAllocator (fun a => a.node_id_to_node.has node_id = true)) :=
      Triple.sets (fun _ _ => hs)
    exact Triple.bind hqueue (fun _ => join_keeps (kept_by_join (known_kept node_id) r) _)

/-- The loop returns exactly when each node is joinable in its turn. -/
theorem join_loop_returns_iff (queue : List Ref) {s : Scheduler} (h : s.pending_joins = queue) :
    returned (queue.forM (fun _ => process_join) s) = true ↔ EachJoinable queue s := by
  induction queue generalizing s with
  | nil => simp [EachJoinable, returned, pure, EStateM.pure]
  | cons r rest ih =>
    obtain ⟨hreturns, hpending, _⟩ := process_join.spec h
    unfold EachJoinable
    rw [← hreturns, ← ih hpending]
    rcases hrun : process_join s with ⟨_, s'⟩ | ⟨e, s'⟩
    · rw [forM_cons_of_ok (f := fun _ => process_join) hrun]
      simp [returned, stateOf]
    · rw [forM_cons_of_error (f := fun _ => process_join) hrun]
      simp [returned]

/-- What a loop that returns has done: the queue is empty, and its nodes are known. -/
theorem join_loop_done (queue : List Ref) {s : Scheduler} (h : s.pending_joins = queue)
    (hreturned : returned (queue.forM (fun _ => process_join) s) = true) :
    (stateOf (queue.forM (fun _ => process_join) s)).pending_joins = [] ∧
      ∀ r ∈ queue, (stateOf (queue.forM (fun _ => process_join) s)).node_id_to_node.has
        (s.node r).node_id = true := by
  induction queue generalizing s with
  | nil => exact ⟨h, fun r hr => by cases hr⟩
  | cons r rest ih =>
    obtain ⟨_, hpending, hknown, halike⟩ := process_join.spec h
    rcases hrun : process_join s with ⟨_, s'⟩ | ⟨e, s'⟩
    · rw [hrun] at hpending hknown halike
      rw [forM_cons_of_ok (f := fun _ => process_join) hrun] at hreturned ⊢
      obtain ⟨hempty, hrest⟩ := ih hpending hreturned
      refine ⟨hempty, ?_⟩
      intro r' hr'
      rcases List.mem_cons.mp hr' with rfl | hr'
      · exact (Keeps.forEach rest (fun _ _ => process_join_known _)).state hknown
      · have hid : (s'.node r').node_id = (s.node r').node_id := halike.node_id r'
        rw [← hid]
        exact hrest r' hr'
    · rw [forM_cons_of_error (f := fun _ => process_join) hrun] at hreturned
      cases hreturned

/-- Clean joins keep the placement, whether the loop returns or raises. -/
theorem join_loop_placed (queue : List Ref) {s : Scheduler} (h : s.pending_joins = queue)
    (hplaced : Placed s.layer_allocator) (hclean : EachClean queue s) :
    Placed (stateOf (queue.forM (fun _ => process_join) s)).layer_allocator := by
  induction queue generalizing s with
  | nil => exact hplaced
  | cons r rest ih =>
    obtain ⟨_, hpending, _, _⟩ := process_join.spec h
    have hhead : ∀ r' ∈ s.pending_joins.head?, JoinsCleanly s r' := by
      intro r' hr'
      rw [h] at hr'
      cases hr'
      exact hclean.1
    have hplaced' := process_join_placed hplaced hhead
    have hclean' := hclean.2
    rcases hrun : process_join s with ⟨_, s'⟩ | ⟨e, s'⟩
    · rw [hrun] at hplaced' hpending hclean'
      rw [forM_cons_of_ok (f := fun _ => process_join) hrun]
      exact ih hpending hplaced' hclean'
    · rw [hrun] at hplaced'
      rw [forM_cons_of_error (f := fun _ => process_join) hrun]
      exact hplaced'

/-! ## The attempt to bootstrap -/

theorem bootstrap_after_joins_returns (s : Scheduler) :
    returned (bootstrap_after_joins s) = true := by
  unfold bootstrap_after_joins
  rw [get_bind]
  split
  · rcases hrun : (do let _ ← bootstrap false false; pure () : SchedM Unit) s with
      ⟨_, s'⟩ | ⟨e, s'⟩
    · rw [tryCatch_of_ok hrun]
      rfl
    · rw [tryCatch_of_error hrun]
      rfl
  · rfl

/-- A bootstrap leaves the queue alone, and it forgets no id. -/
theorem bootstrap_after_joins_keeps_by {J : Scheduler → Prop} (K : KeptByRebalance J) :
    Keeps J bootstrap_after_joins := by
  apply Keeps.bind Keeps.gets
  intro s
  apply Keeps.cond
  · intro _
    apply Keeps.catches _ (fun _ => Keeps.pure _)
    exact Keeps.bind (bootstrap_keeps K false false) (fun _ => Keeps.pure _)
  · exact fun _ => Keeps.pure _

/-! ## The queue -/

/-- The queue is processed: the call returns, the queue is empty, each of its nodes is known, and
the allocator is consistent when it was so and the joins are clean. -/
structure Processed (s : Scheduler) : Prop where
  returns : returned (process_joins s) = true
  drained : (stateOf (process_joins s)).pending_joins = []
  known : ∀ r ∈ s.pending_joins,
    (stateOf (process_joins s)).node_id_to_node.has (s.node r).node_id = true
  consistent : Placed s.layer_allocator → EachClean s.pending_joins s →
    Placed (stateOf (process_joins s)).layer_allocator

/-- What follows the loop. -/
def after_loop (s : Scheduler) : SchedM Unit :=
  if !s.pending_joins.isEmpty && !s.pending_joins.any (fun r => (s.node r).manual_layer_assignment)
  then bootstrap_after_joins else pure ()

theorem process_joins_eq (s : Scheduler) :
    process_joins s =
      (s.pending_joins.forM (fun _ => process_join) >>= fun _ => after_loop s) s := rfl

theorem after_loop_keeps {J : Scheduler → Prop} (K : KeptByRebalance J) (s : Scheduler) :
    Keeps J (after_loop s) :=
  Keeps.cond (fun _ => bootstrap_after_joins_keeps_by K) (fun _ => Keeps.pure _)

theorem after_loop_returns (s s' : Scheduler) : returned (after_loop s s') = true := by
  unfold after_loop
  split
  · exact bootstrap_after_joins_returns s'
  · rfl

/-- The queue of joins is processed exactly when each node is joinable in its turn. -/
theorem processed_iff_each_joinable (s : Scheduler) :
    Processed s ↔ EachJoinable s.pending_joins s := by
  rw [← join_loop_returns_iff s.pending_joins rfl]
  rcases hrun : s.pending_joins.forM (fun _ => process_join) s with ⟨_, s'⟩ | ⟨e, s'⟩
  · have hall : process_joins s = after_loop s s' := by
      rw [process_joins_eq, bind_of_ok hrun]
    obtain ⟨hdrained, hknown⟩ := join_loop_done s.pending_joins rfl (by rw [hrun]; rfl)
    rw [hrun] at hdrained hknown
    refine ⟨fun _ => rfl, fun _ => ⟨?_, ?_, ?_, ?_⟩⟩
    all_goals rw [hall]
    · exact after_loop_returns s s'
    · have hkeeps := after_loop_keeps (J := fun s => s.pending_joins = [])
        (kept_by_frame (fun _ _ h => h) (fun _ _ h => h)) s
      exact hkeeps.state hdrained
    · intro r hr
      exact (after_loop_keeps (kept_by_rebalance (kept_on_inside (known_kept _))) s).state
        (hknown r hr)
    · intro hplaced hclean
      have hplaced' := join_loop_placed s.pending_joins rfl hplaced hclean
      rw [hrun] at hplaced'
      exact (after_loop_keeps placed_kept_by_rebalance s).state hplaced'
  · constructor
    · intro h
      have hreturns := h.returns
      rw [process_joins_eq, bind_of_error hrun] at hreturns
      exact hreturns
    · intro h
      cases h

/-- When the joins raise, the round ends there: the leaves and the heartbeats are not looked at. -/
theorem round_raises {s s' : Scheduler} {now : Rat} {check_is_due : Bool}
    (hupdates : process_node_updates now s = .ok () s')
    (hraises : returned (process_joins s') = false) :
    event_loop_round now check_is_due s = process_joins s' := by
  unfold event_loop_round
  rw [bind_of_ok hupdates]
  rcases hrun : process_joins s' with ⟨_, s''⟩ | ⟨e, s''⟩
  · rw [hrun] at hraises
    cases hraises
  · exact bind_of_error hrun

/-! ## A node without room -/

/-- A message of a node whose memory holds no layer. -/
def small (id : String) : NodeMessage :=
  { joining id with hardware := { (joining id).hardware with memory_gb := 1 } }

/-- A bootstrapped scheduler, with a node in the queue. -/
def one_queued (m : NodeMessage) : Scheduler := (Event.node_join 1 m 1).after joined_once

/-- A large node joins after the bootstrap. -/
theorem large_node_is_processed : Processed (one_queued (joining "b")) := by
  rw [processed_iff_each_joinable]
  have hqueue : (one_queued (joining "b")).pending_joins = [1] := by decide +kernel
  rw [hqueue]
  refine ⟨?_, trivial⟩
  rw [← join_returns_iff]
  decide +kernel

/-- A node that is too small raises, and the one behind it stays in the queue. -/
theorem small_node_blocks_the_queue :
    ¬ ∀ s, Reachable (fun _ _ => True) empty_scheduler s → Processed s := by
  intro hall
  have honce : Reachable (fun _ _ => True) empty_scheduler joined_once :=
    .event (.event (.event .start first_join_unused trivial) trivial trivial) trivial trivial
  have hsmall : Reachable (fun _ _ => True) empty_scheduler (one_queued (small "b")) :=
    .event honce ⟨by decide +kernel, by decide +kernel, by decide +kernel⟩ trivial
  have htwo : Reachable (fun _ _ => True) empty_scheduler
      ((Event.node_join 2 (joining "c") 2).after (one_queued (small "b"))) :=
    .event hsmall ⟨by decide +kernel, by decide +kernel, by decide +kernel⟩ trivial
  have hdrained := (hall _ htwo).drained
  have hleft : (stateOf (process_joins ((Event.node_join 2 (joining "c") 2).after
      (one_queued (small "b"))))).pending_joins = [2] := by decide +kernel
  rw [hleft] at hdrained
  cases hdrained

end scheduling.scheduler
