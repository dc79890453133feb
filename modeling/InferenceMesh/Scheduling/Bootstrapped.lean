-- When the bootstrapped flag means that there is a full pipeline. A join and a
-- rebalance keep this meaning. A leave keeps it when a pipeline is left without
-- the node, or when all nodes that are left are automatic ones: in its other
-- branches it skips the rebalance, and the flag stays.
import InferenceMesh.Scheduling.Departure

open ordered_dict python state_exn
open scheduling.model_info scheduling.node scheduling.layer_allocation scheduling.request_routing

namespace scheduling.scheduler

open Allocator

/-! ## The flag -/

/-- A scheduler that is bootstrapped has a full pipeline. -/
def FlagHolds (s : Scheduler) : Prop :=
  s.bootstrapped = true → s.layer_allocator.has_full_pipeline false = true

def FlagIs (b : Bool) (s : Scheduler) : Prop := s.bootstrapped = b

theorem flag_holds_of_unset {s : Scheduler} (h : FlagIs false s) : FlagHolds s := by
  intro hset
  rw [show s.bootstrapped = false from h] at hset
  cases hset

theorem on_allocator_flag {α : Type} (b : Bool) (x : AllocM α) :
    Keeps (FlagIs b) (on_allocator x) := by
  intro s hs
  unfold on_allocator
  rcases x s.layer_allocator with ⟨v, a⟩ | ⟨e, a⟩
  · exact hs
  · exact hs

theorem run_warmup_and_truncate_flag (b : Bool) (override_warmup_count : Nat) :
    Keeps (FlagIs b) (run_warmup_and_truncate override_warmup_count) := by
  apply Keeps.bind Keeps.gets
  intro s
  apply Keeps.cond (fun _ => Keeps.pure _)
  intro _
  exact Keeps.bind (raised_keeps _) (fun _ => on_allocator_flag b _)

/-- The flag is only set when the check finds a full pipeline. -/
theorem finish_bootstrap_flag (skip_warmup : Bool) :
    Triple (FlagIs false) (finish_bootstrap skip_warmup) (fun _ => FlagHolds)
      (fun _ => FlagHolds) := by
  have hwarm : Keeps (FlagIs false) (warm_up skip_warmup) := by
    apply Keeps.bind Keeps.gets
    intro s
    exact Keeps.cond (fun _ => run_warmup_and_truncate_flag false 0) (fun _ => Keeps.pure _)
  unfold finish_bootstrap
  apply Triple.bind (Triple.mono hwarm (fun _ h => h) (fun _ _ h => h)
    (fun _ _ h => flag_holds_of_unset h))
  intro _
  apply Triple.reads
  intro s hs
  apply Triple.cond
  · intro _
    apply Triple.pure
    rintro _ rfl
    exact flag_holds_of_unset hs
  · intro hfull
    apply Triple.bind (R := fun _ => FlagHolds)
    · apply Triple.modifies
      rintro _ rfl _
      simpa using hfull
    · exact fun _ => Keeps.pure _

/-- A bootstrap that starts from existing allocations is only tried when the flag is not set. -/
theorem bootstrap_flag (clear_existing skip_warmup : Bool) :
    Triple (fun s => clear_existing = true ∨ FlagIs false s) (bootstrap clear_existing skip_warmup)
      (fun _ => FlagHolds) (fun _ => FlagHolds) := by
  unfold bootstrap
  apply Triple.reads
  intro s hs
  apply Triple.cond
  · intro hfew
    apply Triple.pure
    rintro _ rfl
    rcases hs with hclear | hunset
    · simp [hclear] at hfew
    · exact flag_holds_of_unset hunset
  · intro _
    have hclears : Triple (fun s' => s' = s) (cond clear_existing clear_allocations (pure ()))
        (fun _ => FlagIs false) (fun _ => FlagHolds) := by
      cases clear_existing
      · apply Triple.pure
        rintro _ rfl
        exact hs.resolve_left (by simp)
      · have hclear : Triple (fun _ => True) clear_allocations (fun _ => FlagIs false)
            (fun _ => FlagIs false) := by
          apply Triple.reads
          intro s₀ _
          apply Triple.bind (R := fun _ => FlagIs false)
          · exact Triple.modifies (fun _ _ => rfl)
          · exact fun _ => on_allocator_flag false _
        exact Triple.mono hclear (fun _ _ => trivial) (fun _ _ h => h)
          (fun _ _ h => flag_holds_of_unset h)
    apply Triple.bind hclears
    intro _
    apply Triple.bind (Triple.mono (on_allocator_flag false layer_allocation.global_allocation)
      (fun _ h => h) (fun _ _ h => h) (fun _ _ h => flag_holds_of_unset h))
    intro success
    apply Triple.cond
    · exact fun _ => Triple.pure (fun _ h => flag_holds_of_unset h)
    · exact fun _ => finish_bootstrap_flag skip_warmup

/-! ## A leave -/

/-- The range of a node with another id. -/
def SpansWithout (a : Allocator) (node_id : String) (start_layer end_layer : Int) : Prop :=
  ∃ id r, id ≠ node_id ∧ a.node_id_to_node.get? id = some r ∧
    a.node_allocation.get? id = some (start_layer, end_layer)

/-- A full pipeline of nodes with other ids. -/
def PipelineWithout (a : Allocator) (node_id : String) : Prop :=
  0 < a.num_total_layers ∧
    Relation.ReflTransGen (SpansWithout a node_id) 0 a.num_total_layers

theorem spans_without_iff {a a' : Allocator} {node_id : String} (h : Left node_id a a')
    (start_layer end_layer : Int) :
    a'.Spans false start_layer end_layer ↔ SpansWithout a node_id start_layer end_layer := by
  constructor
  · rintro ⟨id, r, hr, hse, _⟩
    rw [h.ids, Dict.get?_erase] at hr
    by_cases hid : node_id = id
    · rw [if_pos hid] at hr
      cases hr
    · rw [if_neg hid] at hr
      rw [h.allocation id (Ne.symm hid)] at hse
      exact ⟨id, r, Ne.symm hid, hr, hse⟩
  · rintro ⟨id, r, hid, hr, hse⟩
    refine ⟨id, r, ?_, ?_, fun hactive => by cases hactive⟩
    · rw [h.ids, Dict.get?_erase, if_neg (Ne.symm hid)]
      exact hr
    · rw [h.allocation id hid]
      exact hse

/-- After the removal there is a full pipeline exactly when there was one without the node. -/
theorem full_pipeline_after_removal {a a' : Allocator} {node_id : String} (hviews : Views a')
    (h : Left node_id a a') :
    a'.has_full_pipeline false = true ↔ PipelineWithout a node_id := by
  have hlayers : a'.num_total_layers = a.num_total_layers := by
    unfold num_total_layers
    rw [h.alike.model_info]
  have hspans : a'.Spans false = SpansWithout a node_id := by
    funext s e
    exact propext (spans_without_iff h s e)
  rw [has_full_pipeline_iff hviews]
  unfold PipelineWithout Allocator.Chain
  rw [hspans, hlayers]

/-- The nodes that a leave of the id leaves are there, and all of them are automatic. -/
def OthersAutomatic (s : Scheduler) (node_id : String) : Prop :=
  (∃ r ∈ s.nodes, (s.node r).node_id ≠ node_id) ∧
    ∀ r ∈ s.nodes, (s.node r).node_id ≠ node_id → (s.node r).manual_layer_assignment = false

/-- When the flag still holds after the leave of a node: a pipeline is left, or a rebalance is
tried, and the warm-up before it does not raise. -/
def LeavesServable (s : Scheduler) (node_id : String) : Prop :=
  s.bootstrapped = true → s.node_id_to_node.has node_id = true →
    PipelineWithout s.layer_allocator node_id ∨
      (OthersAutomatic s node_id ∧
        ∃ s', run_warmup_and_truncate 1 (removed s node_id) = .ok () s')

/-- A rebalance is tried when all nodes are automatic ones and there are some. -/
theorem rebalance_flag {s : Scheduler}
    (h : s.bootstrapped = true → s.layer_allocator.has_full_pipeline false = true ∨
      (s.nodes ≠ [] ∧ (∀ r ∈ s.nodes, (s.node r).manual_layer_assignment = false) ∧
        ∃ s', run_warmup_and_truncate 1 s = .ok () s')) :
    FlagHolds (stateOf (rebalance_after_leave s)) := by
  have hboot : Triple (fun _ => True) (do
      let _ ← bootstrap true true
      pure ()) (fun _ => FlagHolds) (fun _ => FlagHolds) :=
    Triple.bind (Triple.mono (bootstrap_flag true true) (fun _ _ => Or.inl rfl) (fun _ _ h => h)
      (fun _ _ h => h)) (fun _ => Keeps.pure _)
  have hskip : (s.nodes ≠ [] ∧ (∀ r ∈ s.nodes, (s.node r).manual_layer_assignment = false) →
      False) → FlagHolds s := by
    intro hmanual hset
    rcases h hset with hfull | ⟨hsome, hautomatic, _⟩
    · exact hfull
    · exact (hmanual ⟨hsome, hautomatic⟩).elim
  have hcount : (∀ r ∈ s.nodes, (s.node r).manual_layer_assignment = false) →
      s.nodes.countP (fun r => (s.node r).manual_layer_assignment) = 0 := by
    intro hautomatic
    exact List.countP_eq_zero.mpr (fun r hr => by simp [hautomatic r hr])
  unfold rebalance_after_leave
  rw [get_bind]
  split
  · rename_i hall
    apply hskip
    rintro ⟨hsome, hautomatic⟩
    rw [hcount hautomatic] at hall
    exact hsome (List.length_eq_zero_iff.mp hall.symm)
  · split
    · rename_i hmixed
      apply hskip
      rintro ⟨_, hautomatic⟩
      rw [hcount hautomatic] at hmixed
      exact Nat.lt_irrefl 0 hmixed
    · split
      · rename_i hbroken
        have hwarm := run_warmup_and_truncate_flag s.bootstrapped 1 s rfl
        rcases hrun : run_warmup_and_truncate 1 s with ⟨_, s'⟩ | ⟨e, s'⟩
        · rw [bind_of_ok hrun, get_bind]
          split
          · exact hboot.state trivial
          · rename_i hagain
            have hfull : s'.layer_allocator.has_full_pipeline false = true := by simpa using hagain
            exact fun _ => hfull
        · rw [hrun] at hwarm
          rw [bind_of_error hrun]
          have hsame : s'.bootstrapped = s.bootstrapped := hwarm
          intro hset
          have hset' : s.bootstrapped = true := hsame.symm.trans hset
          rcases h hset' with hfull | ⟨_, _, s'', hok⟩
          · rw [hfull] at hbroken
            cases hbroken
          · rw [hrun] at hok
            cases hok
      · exact hboot.state trivial

theorem leave_flag {s : Scheduler} {node_id : String} (hplaced : Placed s.layer_allocator)
    (hflag : FlagHolds s) (hleaves : LeavesServable s node_id) :
    FlagHolds (stateOf (leave node_id s)) := by
  rcases hget : s.node_id_to_node.get? node_id with _ | r
  · obtain ⟨e, hrun⟩ := leave_raises hget
    rw [hrun]
    exact hflag
  · have hleft := removed_left hplaced.views hget
    have hplaced' : Placed (removed s node_id).layer_allocator := placed_kept.leave hplaced node_id
    have hfull := full_pipeline_after_removal hplaced'.views hleft
    have hnode : ∀ r' ∈ s.nodes, (s.node r').node_id ≠ node_id →
        (removed s node_id).node r' = s.node r' := fun r' _ hne => hleft.others r' hne
    have hcase : s.bootstrapped = true →
        (removed s node_id).layer_allocator.has_full_pipeline false = true ∨
          ((removed s node_id).nodes ≠ [] ∧
            (∀ r' ∈ (removed s node_id).nodes,
              ((removed s node_id).node r').manual_layer_assignment = false) ∧
            ∃ s', run_warmup_and_truncate 1 (removed s node_id) = .ok () s') := by
      intro hset
      rcases hleaves hset (Dict.has_iff.mpr ⟨r, hget⟩) with
        hpipeline | ⟨⟨⟨r₀, hr₀, hne₀⟩, hautomatic⟩, hwarm⟩
      · exact Or.inl (hfull.mpr hpipeline)
      · refine Or.inr ⟨List.ne_nil_of_mem ((hleft.nodes r₀).mpr ⟨hr₀, hne₀⟩), ?_, hwarm⟩
        intro r' hr'
        obtain ⟨hmem, hne⟩ := (hleft.nodes r').mp hr'
        rw [hnode r' hmem hne]
        exact hautomatic r' hmem hne
    rw [leave_eq hplaced.views hget]
    unfold after_removal
    rw [get_bind]
    rcases hneeded : (removed s node_id).layer_allocator.should_global_rebalance with e | needed
    · -- The balance is only looked at when there is a full pipeline.
      intro _
      by_contra hbroken
      unfold should_global_rebalance at hneeded
      rw [Bool.not_eq_true] at hbroken
      have hbroken' : (removed s node_id).layer_allocator.has_full_pipeline false = false := hbroken
      rw [hbroken'] at hneeded
      cases hneeded
    · cases needed with
      | false =>
        intro _
        by_contra hbroken
        unfold should_global_rebalance at hneeded
        rw [Bool.not_eq_true] at hbroken
        have hbroken' : (removed s node_id).layer_allocator.has_full_pipeline false = false :=
          hbroken
        rw [hbroken'] at hneeded
        cases hneeded
      | true => exact rebalance_flag hcase

/-! ## A join -/

/-- A join only sets the flag when there is a full pipeline. -/
theorem join_sets_flag (s : Scheduler) (r : Ref) (bootstrap : Bool) :
    (stateOf (join r bootstrap s)).bootstrapped = true → s.bootstrapped = true ∨
      (stateOf (join r bootstrap s)).layer_allocator.has_full_pipeline false = true := by
  have hkeep : ∀ s', FlagIs s.bootstrapped s' → s'.bootstrapped = true →
      s.bootstrapped = true ∨ s'.layer_allocator.has_full_pipeline false = true := by
    intro s' hsame hset
    exact Or.inl ((show s'.bootstrapped = s.bootstrapped from hsame).symm.trans hset)
  have hjoin : Triple (FlagIs s.bootstrapped) (join r bootstrap)
      (fun _ s' => s'.bootstrapped = true → s.bootstrapped = true ∨
        s'.layer_allocator.has_full_pipeline false = true)
      (fun _ s' => s'.bootstrapped = true → s.bootstrapped = true ∨
        s'.layer_allocator.has_full_pipeline false = true) := by
    apply Triple.bind (Triple.mono (on_allocator_flag s.bootstrapped (declare r)) (fun _ h => h)
      (fun _ _ h => h) (fun _ s' h => hkeep s' h))
    intro _
    apply Triple.reads
    intro s₁ hs₁
    apply Triple.cond
    · intro _
      rcases (s₁.node r).start_layer with _ | start_layer
      · exact Triple.throws (fun s' hs' => hkeep s' (hs' ▸ hs₁))
      · rcases (s₁.node r).end_layer with _ | end_layer
        · exact Triple.throws (fun s' hs' => hkeep s' (hs' ▸ hs₁))
        · have hallocate : Triple (fun s' => s' = s₁)
              (on_allocator (allocate r start_layer end_layer)) (fun _ => FlagIs s.bootstrapped)
              (fun _ => FlagIs s.bootstrapped) :=
            Triple.mono (on_allocator_flag _ _) (fun s' hs' => hs' ▸ hs₁) (fun _ _ h => h)
              (fun _ _ h => h)
          apply Triple.bind (Triple.mono hallocate (fun _ h => h) (fun _ _ h => h)
            (fun _ s' h => hkeep s' h))
          intro _
          apply Triple.modifies
          intro s' hs'
          split
          · rename_i hfull
            exact fun _ => Or.inr hfull
          · exact hkeep s' hs'
    · intro _
      apply Triple.cond
      · intro _
        exact Triple.mono (on_allocator_flag s.bootstrapped (layer_allocation.join r))
          (fun s' (hs' : s' = s₁) => hs' ▸ hs₁) (fun _ s' h => hkeep s' h) (fun _ s' h => hkeep s' h)
      · exact fun _ => Triple.pure (fun s' (hs' : s' = s₁) => hkeep s' (hs' ▸ hs₁))
  exact hjoin.state rfl

theorem join_flag {s : Scheduler} {r : Ref} {bootstrap : Bool} (hplaced : Placed s.layer_allocator)
    (hflag : FlagHolds s) (hclean : JoinsAs s r bootstrap) :
    FlagHolds (stateOf (join r bootstrap s)) := by
  intro hset
  rcases join_sets_flag s r bootstrap hset with hbefore | hfull
  · exact (join_gains hplaced.views hclean).full_pipeline hplaced.views (hflag hbefore)
  · exact hfull

/-! ## Runs -/

/-- An operation on the nodes of the scheduler. -/
inductive Operation where
  | new_node (r : Ref) (n : Node)
  | join (r : Ref) (wait : Bool)
  | leave (node_id : String)
  | bootstrap (clear_existing skip_warmup : Bool)

def Operation.run : Operation → SchedM Unit
  | .new_node r n => scheduler.new_node r n
  | .join r wait => scheduler.join r wait
  | .leave node_id => scheduler.leave node_id
  | .bootstrap clear_existing skip_warmup => do
    let _ ← scheduler.bootstrap clear_existing skip_warmup

/-- The state after an operation, whether it returns or raises. -/
def Operation.after (o : Operation) (s : Scheduler) : Scheduler := stateOf (o.run s)

/-- A new object has a reference of its own. -/
def Operation.Possible (s : Scheduler) : Operation → Prop
  | .new_node r _ => Unused s r
  | _ => True

/-- A node joins cleanly, a node that leaves leaves a pipeline or lets a rebalance be tried, and
a bootstrap is tried while the flag is not set. -/
def Operation.Servable (s : Scheduler) : Operation → Prop
  | .new_node _ _ => True
  | .join r wait => JoinsAs s r wait
  | .leave node_id => LeavesServable s node_id
  | .bootstrap clear_existing _ => clear_existing = true ∨ s.bootstrapped = false

/-- The states that possible operations reach, each of them with `C`. -/
inductive Operated (C : Scheduler → Operation → Prop) (s₀ : Scheduler) : Scheduler → Prop
  | start : Operated C s₀ s₀
  | step {s : Scheduler} {o : Operation} :
    Operated C s₀ s → o.Possible s → C s o → Operated C s₀ (o.after s)

theorem operation_placed {s : Scheduler} {o : Operation} (h : Placed s.layer_allocator)
    (ho : o.Possible s) (hservable : o.Servable s) : Placed (o.after s).layer_allocator := by
  unfold Operation.after
  cases o with
  | new_node r n => exact placed_of_new h ho n
  | join r wait => exact join_placed h hservable
  | leave node_id => exact (leave_placed node_id).state h
  | bootstrap clear_existing skip_warmup =>
    exact (Keeps.bind (bootstrap_keeps placed_kept_by_rebalance clear_existing skip_warmup)
      (fun _ => Keeps.pure _)).state h

/-- A new object has no part in the pipelines. -/
theorem new_node_flag {s : Scheduler} {r : Ref} (n : Node) (hplaced : Placed s.layer_allocator)
    (hr : Unused s r) (hflag : FlagHolds s) : FlagHolds (stateOf (new_node r n s)) := by
  intro hset
  have hgains : Gains s.layer_allocator (s.layer_allocator.set_node r n) :=
    ⟨(placed_of_new hplaced hr n).views,
      fun _ _ ⟨id, r', hr', hse, _⟩ => ⟨id, r', hr', hse, fun hactive => by cases hactive⟩, rfl,
      fun _ => (placed_of_new hplaced hr n).hosted⟩
  exact hgains.full_pipeline hplaced.views (hflag hset)

theorem operation_flag {s : Scheduler} {o : Operation} (hplaced : Placed s.layer_allocator)
    (hflag : FlagHolds s) (ho : o.Possible s) (hservable : o.Servable s) :
    FlagHolds (o.after s) := by
  unfold Operation.after
  cases o with
  | new_node r n => exact new_node_flag n hplaced ho hflag
  | join r wait => exact join_flag hplaced hflag hservable
  | leave node_id => exact leave_flag hplaced hflag hservable
  | bootstrap clear_existing skip_warmup =>
    exact (Triple.bind (bootstrap_flag clear_existing skip_warmup)
      (fun _ => Keeps.pure _)).state hservable

section init

variable {store : Ref → Node} {m : ModelInfo} {nodes : List Ref} {min_nodes : Nat}
  {strategy : Strategy} {router : Router} {rebalance_threshold : WithTop Rat} {iterations : Nat}
  {warm_up_requests : Nat} {heartbeat_timeout : Rat}

/-- In every state that is reached, a scheduler that is bootstrapped has a full pipeline. -/
theorem bootstrapped_means_servable (hids : (nodes.map (fun r => (store r).node_id)).Nodup)
    (hidle : ∀ r ∈ nodes, Idle (store r)) {s : Scheduler}
    (hrun : Operated Operation.Servable (Scheduler.init store m nodes min_nodes strategy router
      rebalance_threshold iterations warm_up_requests heartbeat_timeout) s) :
    s.bootstrapped = true → s.layer_allocator.has_full_pipeline false = true := by
  have hinvariant : Placed s.layer_allocator ∧ FlagHolds s := by
    induction hrun with
    | start => exact ⟨init_scheduler_placed hids hidle, fun hset => by cases hset⟩
    | step _ hpossible hservable ih =>
      exact ⟨operation_placed ih.1 hpossible hservable,
        operation_flag ih.1 ih.2 hpossible hservable⟩
  exact hinvariant.2

end init

/-! ## The last node leaves -/

/-- One large node has joined, and the bootstrap has given it all layers. -/
def served_by_one : Scheduler :=
  (Operation.bootstrap false false).after
    ((Operation.join 0 true).after
      ((Operation.new_node 0 (build_node (build_model_info 4) 0 (joining "a"))).after
        empty_scheduler))

theorem served_by_one_reached : Operated Operation.Servable empty_scheduler served_by_one := by
  refine .step (.step (.step .start first_join_unused trivial) trivial ?_) trivial
    (Or.inr (by decide +kernel))
  show JoinsAs _ 0 true
  unfold JoinsAs
  decide +kernel

theorem one_node_serves : served_by_one.layer_allocator.has_full_pipeline false = true :=
  bootstrapped_means_servable (show (([] : List Ref).map _).Nodup from List.nodup_nil)
    (fun _ hr => absurd hr List.not_mem_nil) served_by_one_reached (by decide +kernel)

/-- When the only node leaves, the flag stays: no node is as many as all nodes. -/
theorem flag_outlives_the_last_node :
    ¬ ∀ s, Operated (fun _ _ => True) empty_scheduler s →
      s.bootstrapped = true → s.layer_allocator.has_full_pipeline false = true := by
  intro hall
  have hrun : Operated (fun _ _ => True) empty_scheduler
      ((Operation.leave "a").after served_by_one) :=
    .step (.step (.step (.step .start first_join_unused trivial) trivial trivial) trivial trivial)
      trivial trivial
  have hbroken : ((Operation.leave "a").after served_by_one).layer_allocator.has_full_pipeline
      false = false := by decide +kernel
  have hfull := hall _ hrun (by decide +kernel)
  rw [hbroken] at hfull
  cases hfull

end scheduling.scheduler
