-- What the scheduler sees of a node is what the allocator has for its id, as
-- long as a join brings in a new id: then every step of the queues, of the
-- bootstrap, of the warm-up and of the rebalance keeps the views of the
-- allocator. A join that gives layers to an id that is there splits them.
import InferenceMesh.Scheduling.Hosting
import InferenceMesh.Scheduling.Scheduler

open ordered_dict python state_exn
open scheduling.model_info scheduling.node scheduling.layer_allocation scheduling.request_routing

namespace scheduling.scheduler

open Allocator

/-! ## The operations of the scheduler -/

/-- What holds of the allocator, said of the scheduler. -/
def OfAllocator (I : Allocator → Prop) (s : Scheduler) : Prop := I s.layer_allocator

theorem on_allocator_triple {α : Type} {P : Allocator → Prop} {Q : α → Allocator → Prop}
    {E : Exn → Allocator → Prop} {x : AllocM α} (h : Triple P x Q E) :
    Triple (OfAllocator P) (on_allocator x) (fun v => OfAllocator (Q v))
      (fun e => OfAllocator (E e)) := by
  intro s hs
  have hx := h s.layer_allocator hs
  unfold on_allocator
  rcases hrun : x s.layer_allocator with ⟨v, a⟩ | ⟨e, a⟩
  · rw [hrun] at hx
    exact hx
  · rw [hrun] at hx
    exact hx

theorem on_allocator_keeps {α : Type} {I : Allocator → Prop} {x : AllocM α} (h : Keeps I x) :
    Keeps (OfAllocator I) (on_allocator x) := on_allocator_triple h

theorem raised_keeps {α : Type} {J : Scheduler → Prop} (x : Except Exn α) : Keeps J (raised x) := by
  unfold raised
  split
  · exact Keeps.pure _
  · exact Keeps.throws _

section kept

variable {I : Allocator → Prop}

/-- Any range may be given out. -/
abbrev KeptByAll (I : Allocator → Prop) : Prop := Kept I (fun _ _ _ => True)

/-- What makes `I` an invariant of a warm-up and of a rebalance of the nodes that are there. -/
structure KeptInside (I : Allocator → Prop) : Prop where
  reallocates : ∀ a r start_layer end_layer, I a → r ∈ a.nodes →
    I (stateOf (reallocate r start_layer end_layer a))
  allocations : Keeps I layer_allocation.global_allocation
  clears : ∀ a, I a → I (stateOf (deallocate_all a.nodes a))

theorem kept_inside (K : KeptByAll I) : KeptInside I where
  reallocates := fun a _ _ _ hI hr =>
    K.reallocate hI ((K.views a hI).usable_of_listed hr) (fun _ => trivial)
  allocations := Triple.of_state (fun _ hI => K.global_allocation hI (fun _ _ _ _ _ _ _ _ => trivial))
  clears := by
    intro a hI
    have hv := K.views a hI
    have hids : (a.nodes.map a.node_id).Nodup := hv.ids_nodup hv.nodup (fun _ hr => hr)
    have hall := K.deallocate_all hids
    exact (Triple.mono hall (fun _ h => h) (fun _ _ h => h.1) (fun _ _ h => h)).state
      ⟨hI, From.refl a, fun r hr => hv.usable_of_listed hr⟩

theorem truncate_keeps (K : KeptInside I) (t : Turn) : Keeps I (truncate t) := by
  have hrealloc : ∀ (a : Allocator) r start_layer end_layer, I a → r ∈ a.nodes →
      Triple (fun s => s = a) (reallocate r start_layer end_layer) (fun _ a => I a)
        (fun _ a => I a) := by
    intro a r start_layer end_layer hI hr
    apply Triple.of_state
    intro s hs
    rw [hs]
    exact K.reallocates a r start_layer end_layer hI hr
  have hdone : ∀ a, I a → Triple (fun s => s = a) (pure () : AllocM Unit) (fun _ a => I a)
      (fun _ a => I a) := by
    intro a hI
    apply Triple.pure
    intro s hs
    rw [hs]
    exact hI
  apply Triple.reads
  intro a hI
  split
  · exact hdone a hI
  · rename_i r hfind
    have hr := List.mem_of_find?_eq_some hfind
    split
    · split
      · exact Triple.cond (fun _ => hrealloc a r _ _ hI hr) (fun _ => hdone a hI)
      · exact Triple.cond (fun _ => hrealloc a r _ _ hI hr) (fun _ => hdone a hI)
    · exact hdone a hI

theorem run_warmup_and_truncate_keeps (K : KeptInside I) (override_warmup_count : Nat) :
    Keeps (OfAllocator I) (run_warmup_and_truncate override_warmup_count) := by
  apply Keeps.bind Keeps.gets
  intro s
  apply Keeps.cond
  · exact fun _ => Keeps.pure _
  · intro _
    apply Keeps.bind (raised_keeps _)
    intro agg_turns
    exact on_allocator_keeps (Keeps.forEach _ (fun t _ => truncate_keeps K t))

/-- The listed nodes lose their ranges. -/
theorem clear_allocations_keeps (K : KeptInside I) : Keeps (OfAllocator I) clear_allocations := by
  apply Triple.reads
  intro s hs
  apply Triple.bind (R := fun _ s' => s'.layer_allocator = s.layer_allocator)
  · apply Triple.modifies
    intro s' hs'
    rw [hs']
  · intro _
    have hclear : Triple (fun a => a = s.layer_allocator) (deallocate_all s.nodes)
        (fun _ a => I a) (fun _ a => I a) :=
      Triple.of_state (fun a ha => ha ▸ K.clears s.layer_allocator hs)
    exact on_allocator_triple hclear

/-- What makes `J` an invariant of a bootstrap and of what follows a leave. -/
structure KeptByRebalance (J : Scheduler → Prop) : Prop where
  warms_up : ∀ override_warmup_count, Keeps J (run_warmup_and_truncate override_warmup_count)
  allocations : Keeps J global_allocation
  clears : Keeps J clear_allocations
  bootstraps : ∀ s, J s → J { s with bootstrapped := true }

theorem kept_by_rebalance (K : KeptInside I) : KeptByRebalance (OfAllocator I) where
  warms_up := run_warmup_and_truncate_keeps K
  allocations := on_allocator_keeps K.allocations
  clears := clear_allocations_keeps K
  bootstraps := fun _ h => h

/-- A rebalance changes the allocator and the flag, and no other field. -/
theorem kept_by_frame {J : Scheduler → Prop}
    (hallocator : ∀ s a, J s → J { s with layer_allocator := a })
    (hflag : ∀ s b, J s → J { s with bootstrapped := b }) : KeptByRebalance J := by
  have hon : ∀ {α : Type} (x : AllocM α), Keeps J (on_allocator x) := by
    intro α x s hs
    unfold on_allocator
    rcases x s.layer_allocator with ⟨v, a⟩ | ⟨e, a⟩
    · exact hallocator s a hs
    · exact hallocator s a hs
  refine ⟨?_, hon _, ?_, fun s hs => hflag s true hs⟩
  · intro n
    apply Keeps.bind Keeps.gets
    intro s
    apply Keeps.cond (fun _ => Keeps.pure _)
    exact fun _ => Keeps.bind (raised_keeps _) (fun _ => hon _)
  · apply Keeps.bind Keeps.gets
    intro s
    exact Keeps.bind (Keeps.modifies (fun s' hs' => hflag s' false hs')) (fun _ => hon _)

section rebalance

variable {J : Scheduler → Prop}

theorem finish_bootstrap_keeps (K : KeptByRebalance J) (skip_warmup : Bool) :
    Keeps J (finish_bootstrap skip_warmup) := by
  have hwarm : Keeps J (warm_up skip_warmup) := by
    apply Keeps.bind Keeps.gets
    intro s
    exact Keeps.cond (fun _ => K.warms_up 0) (fun _ => Keeps.pure _)
  apply Keeps.bind hwarm
  intro _
  apply Keeps.bind Keeps.gets
  intro s
  apply Keeps.cond
  · exact fun _ => Keeps.pure _
  · exact fun _ => Keeps.bind (Keeps.modifies K.bootstraps) (fun _ => Keeps.pure _)

theorem bootstrap_keeps (K : KeptByRebalance J) (clear_existing skip_warmup : Bool) :
    Keeps J (bootstrap clear_existing skip_warmup) := by
  apply Keeps.bind Keeps.gets
  intro s
  apply Keeps.cond (fun _ => Keeps.pure _)
  intro _
  have hclear : Keeps J (cond clear_existing clear_allocations (pure ())) := by
    cases clear_existing
    · exact Keeps.pure _
    · exact K.clears
  apply Keeps.bind hclear
  intro _
  apply Keeps.bind K.allocations
  intro _
  exact Keeps.cond (fun _ => Keeps.pure _) (fun _ => finish_bootstrap_keeps K _)

theorem rebalance_after_leave_keeps (K : KeptByRebalance J) : Keeps J rebalance_after_leave := by
  have hboot : Keeps J (do
      let _ ← bootstrap true true
      pure ()) := Keeps.bind (bootstrap_keeps K true true) (fun _ => Keeps.pure _)
  apply Keeps.bind Keeps.gets
  intro s
  apply Keeps.cond (fun _ => Keeps.pure _)
  intro _
  apply Keeps.cond (fun _ => Keeps.pure _)
  intro _
  apply Keeps.cond _ (fun _ => hboot)
  intro _
  apply Keeps.bind (K.warms_up 1)
  intro _
  apply Keeps.bind Keeps.gets
  intro s
  exact Keeps.cond (fun _ => hboot) (fun _ => Keeps.pure _)

end rebalance

theorem leave_keeps (K : KeptInside I) (node_id : String)
    (hleave : Keeps I (layer_allocation.leave node_id)) :
    Keeps (OfAllocator I) (leave node_id) := by
  apply Keeps.bind Keeps.gets
  intro s
  apply Keeps.cond (fun _ => Keeps.throws _)
  intro _
  apply Keeps.bind (on_allocator_keeps hleave)
  intro _
  refine Keeps.bind (Keeps.modifies (fun _ h => h)) ?_
  intro _
  apply Keeps.bind Keeps.gets
  intro s
  apply Keeps.bind (raised_keeps _)
  intro _
  exact Keeps.cond (fun _ => rebalance_after_leave_keeps (kept_by_rebalance K)) (fun _ => Keeps.pure _)

end kept

/-! ## A join -/

theorem placed_kept_inside : KeptInside Placed := kept_inside placed_kept

theorem placed_kept_by_rebalance : KeptByRebalance (OfAllocator Placed) :=
  kept_by_rebalance placed_kept_inside

theorem leave_placed (node_id : String) : Keeps (OfAllocator Placed) (leave node_id) :=
  leave_keeps placed_kept_inside node_id
    (Triple.of_state (fun _ h => placed_kept.leave h node_id))

/-- The node without the range that it came with. -/
def cleared (a : Allocator) (r : Ref) : Allocator :=
  a.set_node r (a.store r).clear_layer_allocation

theorem cleared_self (a : Allocator) (r : Ref) :
    (cleared a r).store r = (a.store r).clear_layer_allocation := Function.update_self _ _ _

theorem cleared_other (a : Allocator) {r r' : Ref} (hne : r' ≠ r) :
    (cleared a r).store r' = a.store r' := Function.update_of_ne hne _ _

theorem cleared_node_id (a : Allocator) (r : Ref) : (cleared a r).node_id r = a.node_id r := by
  unfold Allocator.node_id
  rw [cleared_self]
  rfl

/-- An allocation overwrites the range that a node came with. -/
theorem allocate_cleared {a : Allocator} {r : Ref} {start_layer end_layer : Int}
    (hlt : start_layer < end_layer) :
    allocate r start_layer end_layer (cleared a r) = allocate r start_layer end_layer a := by
  have hrecord : (cleared a r).record_allocation r start_layer end_layer =
      a.record_allocation r start_layer end_layer := by
    simp [cleared, set_node, record_allocation, num_total_layers, Node.clear_layer_allocation,
      Node.set_layer_allocation]
    rfl
  unfold allocate
  rw [if_neg (not_le.mpr hlt)]
  have hmodify : (modify (fun a => a.record_allocation r start_layer end_layer) : AllocM Unit)
      (cleared a r) = .ok () (a.record_allocation r start_layer end_layer) :=
    congrArg (EStateM.Result.ok ()) hrecord
  refine (bind_of_ok hmodify).trans ?_
  exact (bind_of_ok rfl).symm

theorem cleared_views {a : Allocator} {r : Ref} (h : Views a)
    (hnew : a.node_id_to_node.get? (a.node_id r) = none) : Views (cleared a r) := by
  have hother : ∀ id r', a.node_id_to_node.get? id = some r' → (cleared a r).store r' = a.store r' := by
    intro id r' hr'
    have hne : r' ≠ r := by
      rintro rfl
      rw [h.named id _ hr', hr'] at hnew
      cases hnew
    exact cleared_other a hne
  refine ⟨?_, ?_, h.registered, h.ascending, ?_, h.nodup⟩
  · intro id r' hr'
    unfold Allocator.node_id
    rw [hother id r' hr']
    exact h.named id r' hr'
  · intro id r' hr'
    rw [hother id r' hr']
    exact h.ranges id r' hr'
  · intro r' hr'
    have hreg := h.listed r' hr'
    unfold Allocator.node_id
    rw [hother _ r' hreg]
    exact hreg

/-- The node gets layers when it joins: a manual node those it asks for, and another one those
from the lightest layer on, once the scheduler is bootstrapped. -/
def gets_layers (s : Scheduler) (r : Ref) : Bool :=
  if (s.node r).manual_layer_assignment then
    match (s.node r).start_layer, (s.node r).end_layer with
    | some start_layer, some end_layer => decide (start_layer < end_layer)
    | _, _ => false
  else
    s.bootstrapped &&
      match s.layer_allocator.get_lightest_layer with
      | some l => decide ((l : Int) < s.layer_allocator.adjust_end_layer_for_tail (s.node r) l)
      | none => false

/-- A node whose id is there gets no layers, and a new one that came with a range gets some. -/
def JoinsCleanly (s : Scheduler) (r : Ref) : Prop :=
  if s.node_id_to_node.has (s.node r).node_id then gets_layers s r = false
  else Idle (s.node r) ∨ gets_layers s r = true

instance (s : Scheduler) (r : Ref) : Decidable (JoinsCleanly s r) := by
  unfold JoinsCleanly; infer_instance

/-- What an assignment does to the allocator. -/
theorem assign_layers.spec (s : Scheduler) (r : Ref) (bootstrap : Bool) :
    (stateOf (assign_layers r bootstrap s)).layer_allocator =
      if (s.node r).manual_layer_assignment then
        match (s.node r).start_layer, (s.node r).end_layer with
        | some start_layer, some end_layer =>
          stateOf (allocate r start_layer end_layer s.layer_allocator)
        | _, _ => s.layer_allocator
      else if bootstrap then s.layer_allocator
      else stateOf (layer_allocation.join r s.layer_allocator) := by
  have hon : ∀ x : AllocM Unit, (stateOf (on_allocator x s)).layer_allocator =
      stateOf (x s.layer_allocator) := by
    intro x
    unfold on_allocator
    rcases x s.layer_allocator with ⟨v, a⟩ | ⟨e, a⟩ <;> rfl
  simp only [assign_layers, bind, EStateM.bind, get, getThe, MonadStateOf.get, EStateM.get]
  split
  · rcases (s.node r).start_layer with _ | start_layer
    · rfl
    · rcases (s.node r).end_layer with _ | end_layer
      · rfl
      · show (stateOf ((on_allocator (allocate r start_layer end_layer) >>= _) s)).layer_allocator =
          stateOf (allocate r start_layer end_layer s.layer_allocator)
        rw [← hon]
        rcases hrun : on_allocator (allocate r start_layer end_layer) s with ⟨v, s'⟩ | ⟨e, s'⟩
        · rw [bind_of_ok hrun]
          show (if s'.layer_allocator.has_full_pipeline false then
            { s' with bootstrapped := true } else s').layer_allocator = s'.layer_allocator
          split <;> rfl
        · rw [bind_of_error hrun]
  · cases bootstrap
    · exact hon _
    · rfl

/-- What a join does to the allocator. -/
theorem join.spec {s : Scheduler} {r : Ref} {a : Allocator}
    (hdeclare : declare r s.layer_allocator = .ok () a)
    (hstore : a.store = s.layer_allocator.store) (bootstrap : Bool) :
    (stateOf (join r bootstrap s)).layer_allocator =
      if (s.node r).manual_layer_assignment then
        match (s.node r).start_layer, (s.node r).end_layer with
        | some start_layer, some end_layer => stateOf (allocate r start_layer end_layer a)
        | _, _ => a
      else if bootstrap then a
      else stateOf (layer_allocation.join r a) := by
  have hrun : join r bootstrap s = assign_layers r bootstrap { s with layer_allocator := a } := by
    apply bind_of_ok
    unfold on_allocator
    rw [hdeclare]
  have hnode : ({ s with layer_allocator := a } : Scheduler).node r = s.node r :=
    congrFun hstore r
  rw [hrun, assign_layers.spec, hnode]

/-- A join of a registered node allocates it from the lightest layer on. -/
theorem join_with_room {a : Allocator} {r : Ref} {l : Nat}
    (hhas : a.node_id_to_node.has (a.node_id r) = true) (hl : a.get_lightest_layer = some l) :
    layer_allocation.join r a = allocate r l (a.adjust_end_layer_for_tail (a.store r) l)
      a.sort_nodes := by
  refine (bind_of_ok (declare_known hhas)).trans ?_
  have hl' : a.sort_nodes.get_lightest_layer = some l := hl
  simp only [bind, EStateM.bind, get, getThe, MonadStateOf.get, EStateM.get, hl']
  rfl

/-- Without room it changes the order of the nodes at most. -/
theorem join_without_room {a : Allocator} {r : Ref}
    (hhas : a.node_id_to_node.has (a.node_id r) = true)
    (hroom : ∀ l : Nat, a.get_lightest_layer = some l →
      a.adjust_end_layer_for_tail (a.store r) l ≤ l) :
    stateOf (layer_allocation.join r a) = a.sort_nodes := by
  rcases hl : a.get_lightest_layer with _ | l
  · have hrun : layer_allocation.join r a =
        .error (.ValueError "No layers to assign") a.sort_nodes := by
      refine (bind_of_ok (declare_known hhas)).trans ?_
      have hl' : a.sort_nodes.get_lightest_layer = none := hl
      simp only [bind, EStateM.bind, get, getThe, MonadStateOf.get, EStateM.get, hl']
      rfl
    rw [hrun]
    rfl
  · obtain ⟨e, hempty⟩ := allocate_empty (a := a.sort_nodes) (r := r) (hroom l hl)
    rw [join_with_room hhas hl, hempty]
    rfl

/-! ## When a node gets layers -/

section gets_layers

variable {s : Scheduler} {r : Ref}

theorem gets_layers_of_range {start_layer end_layer : Int}
    (hm : (s.node r).manual_layer_assignment = true)
    (hs : (s.node r).start_layer = some start_layer) (he : (s.node r).end_layer = some end_layer) :
    gets_layers s r = decide (start_layer < end_layer) := by
  unfold gets_layers
  rw [if_pos hm, hs, he]

theorem gets_layers_without_range (hm : (s.node r).manual_layer_assignment = true)
    (hrange : ∀ start_layer end_layer, (s.node r).start_layer = some start_layer →
      (s.node r).end_layer = some end_layer → False) : gets_layers s r = false := by
  unfold gets_layers
  rw [if_pos hm]
  split
  · rename_i start_layer end_layer hs he
    exact (hrange start_layer end_layer hs he).elim
  · rfl

theorem gets_layers_before_bootstrap (hm : ¬ (s.node r).manual_layer_assignment = true)
    (hboot : s.bootstrapped = false) : gets_layers s r = false := by
  unfold gets_layers
  rw [if_neg hm, hboot, Bool.false_and]

theorem gets_layers_without_layer (hm : ¬ (s.node r).manual_layer_assignment = true)
    (hl : s.layer_allocator.get_lightest_layer = none) : gets_layers s r = false := by
  unfold gets_layers
  rw [if_neg hm, hl, Bool.and_false]

theorem gets_layers_of_room {l : Nat} (hm : ¬ (s.node r).manual_layer_assignment = true)
    (hboot : s.bootstrapped = true) (hl : s.layer_allocator.get_lightest_layer = some l) :
    gets_layers s r =
      decide ((l : Int) < s.layer_allocator.adjust_end_layer_for_tail (s.node r) l) := by
  unfold gets_layers
  rw [if_neg hm, hboot, hl, Bool.true_and]

end gets_layers

/-- The join of a node that waits for the bootstrap, or not. -/
def JoinsAs (s : Scheduler) (r : Ref) (bootstrap : Bool) : Prop :=
  JoinsCleanly { s with bootstrapped := !bootstrap } r

/-- A node whose id is there and that gets no layers leaves the ranges alone. -/
theorem join_present {s : Scheduler} {r : Ref} {bootstrap : Bool} (h : Views s.layer_allocator)
    (hhas : s.node_id_to_node.has (s.node r).node_id = true)
    (hno : gets_layers { s with bootstrapped := !bootstrap } r = false) :
    Gains s.layer_allocator (stateOf (join r bootstrap s)).layer_allocator := by
  rw [join.spec (declare_known hhas) rfl]
  have hv : Gains s.layer_allocator s.layer_allocator.sort_nodes :=
    Gains.sort_nodes ⟨h, Extends.refl _, rfl, fun hhosted => hhosted⟩
  split
  · rename_i hm
    split
    · rename_i start_layer end_layer hs he
      have hgets : gets_layers { s with bootstrapped := !bootstrap } r =
          decide (start_layer < end_layer) := gets_layers_of_range hm hs he
      rw [hgets] at hno
      have hle : end_layer ≤ start_layer := not_lt.mp (of_decide_eq_false hno)
      obtain ⟨e, hempty⟩ := allocate_empty (a := s.layer_allocator.sort_nodes) (r := r) hle
      rw [hempty]
      exact hv
    · exact hv
  · rename_i hm
    split
    · exact hv
    · rename_i hboot
      have hboot' : (!bootstrap) = true := by simpa using hboot
      have hroom : ∀ l : Nat, s.layer_allocator.get_lightest_layer = some l →
          s.layer_allocator.adjust_end_layer_for_tail (s.node r) l ≤ l := by
        intro l hl
        have hgets : gets_layers { s with bootstrapped := !bootstrap } r =
            decide ((l : Int) < s.layer_allocator.adjust_end_layer_for_tail (s.node r) l) :=
          gets_layers_of_room hm hboot' hl
        rw [hgets] at hno
        exact not_lt.mp (of_decide_eq_false hno)
      have hrun : stateOf (layer_allocation.join r s.layer_allocator.sort_nodes) =
          s.layer_allocator.sort_nodes.sort_nodes := join_without_room hhas hroom
      rw [hrun]
      exact hv.sort_nodes

theorem cleared_sort_nodes (a : Allocator) (r : Ref) :
    (cleared a r).sort_nodes = cleared a.sort_nodes r := by
  have hcap : (cleared a r).capacity = a.capacity := by
    funext r'
    show ((cleared a r).store r').capacity = (a.store r').capacity
    by_cases hr : r' = r
    · rw [hr, cleared_self]
      rfl
    · rw [cleared_other a hr]
  unfold Allocator.sort_nodes
  rw [hcap]
  rfl

theorem cleared_register (a : Allocator) (r : Ref) :
    (cleared a r).register r = cleared (a.register r) r := by
  unfold Allocator.register
  rw [cleared_node_id]
  rfl

theorem clear_of_idle {n : Node} (h : Idle n) : n.clear_layer_allocation = n := by
  obtain ⟨hs, he⟩ := h
  cases n
  cases hs
  cases he
  rfl

theorem cleared_of_idle {a : Allocator} {r : Ref} (h : Idle (a.store r)) : cleared a r = a := by
  unfold cleared set_node
  rw [clear_of_idle h, Function.update_eq_self]

/-- A new node is declared, and without the range that it came with it is free. -/
theorem declare_cleared {a : Allocator} {r : Ref} (h : Views a)
    (hnew : a.node_id_to_node.get? (a.node_id r) = none) :
    ∃ a', declare r a = .ok () a' ∧ a'.store = a.store ∧
      a'.get_lightest_layer = a.get_lightest_layer ∧
      a'.node_id_to_node.has (a'.node_id r) = true ∧ Gains a (cleared a' r) ∧
      Free (cleared a' r) r := by
  have hidle : Idle ((cleared a r).store r) := by
    rw [cleared_self]
    exact ⟨rfl, rfl⟩
  have hnew' : (cleared a r).node_id_to_node.get? ((cleared a r).node_id r) = none := by
    rw [cleared_node_id]
    exact hnew
  have hv := ((cleared_views h hnew).register hnew' hidle).sort_nodes
  have hfree : Free ((cleared a r).register r).sort_nodes r :=
    ⟨Or.inl (Dict.get?_insert_self _ _ _), hidle⟩
  rw [cleared_register, cleared_sort_nodes] at hv hfree
  have hextends : Extends a (cleared (a.register r).sort_nodes r) := by
    rintro s e ⟨id, r', hr', hse, _⟩
    have hne : a.node_id r ≠ id := by
      rintro rfl
      rw [hnew] at hr'
      cases hr'
    refine ⟨id, r', ?_, hse, fun hactive => by cases hactive⟩
    show (a.node_id_to_node.insert (a.node_id r) r).get? id = some r'
    rw [Dict.get?_insert, if_neg hne]
    exact hr'
  exact ⟨(a.register r).sort_nodes, declare_new hnew, rfl, rfl,
    Dict.has_iff.mpr ⟨r, Dict.get?_insert_self _ _ _⟩, ⟨hv, hextends, rfl, fun hhosted => hhosted.congr rfl rfl rfl rfl rfl⟩, hfree⟩

/-- A new node without a range, or one that gets layers, joins the views. -/
theorem join_absent {s : Scheduler} {r : Ref} {bootstrap : Bool} (h : Views s.layer_allocator)
    (hnew : s.node_id_to_node.get? (s.node r).node_id = none)
    (hclean : Idle (s.node r) ∨ gets_layers { s with bootstrapped := !bootstrap } r = true) :
    Gains s.layer_allocator (stateOf (join r bootstrap s)).layer_allocator := by
  obtain ⟨a, hdeclare, hstore, hlightest, hhas, hgains, hfree⟩ := declare_cleared h hnew
  have hlayers : a.num_total_layers = s.layer_allocator.num_total_layers := hgains.layers
  have hnode : a.store r = s.node r := congrFun hstore r
  rw [join.spec hdeclare hstore]
  -- A node that gets no layers came without a range.
  have hwaits : gets_layers { s with bootstrapped := !bootstrap } r = false →
      Gains s.layer_allocator a := by
    intro hno
    rcases hclean with hempty | hyes
    · rw [← hnode] at hempty
      rw [cleared_of_idle hempty] at hgains
      exact hgains
    · rw [hno] at hyes
      cases hyes
  split
  · rename_i hm
    split
    · rename_i start_layer end_layer hs he
      have hgets : gets_layers { s with bootstrapped := !bootstrap } r =
          decide (start_layer < end_layer) := gets_layers_of_range hm hs he
      by_cases hlt : start_layer < end_layer
      · rw [← allocate_cleared hlt]
        exact hgains.allocate hfree start_layer end_layer
      · obtain ⟨e, hempty⟩ := allocate_empty (a := a) (r := r) (not_lt.mp hlt)
        rw [hempty]
        exact hwaits (hgets.trans (decide_eq_false hlt))
    · rename_i hrange
      exact hwaits (gets_layers_without_range hm hrange)
  · rename_i hm
    split
    · rename_i hboot
      exact hwaits (gets_layers_before_bootstrap hm (by simpa using hboot))
    · rename_i hboot
      have hboot' : (!bootstrap) = true := by simpa using hboot
      have hend : ∀ l, a.adjust_end_layer_for_tail (a.store r) l =
          s.layer_allocator.adjust_end_layer_for_tail (s.node r) l := by
        intro l
        unfold adjust_end_layer_for_tail
        rw [hnode, hlayers]
      have hroom_iff : ∀ l, s.layer_allocator.get_lightest_layer = some l →
          (gets_layers { s with bootstrapped := !bootstrap } r = true ↔
            (l : Int) < a.adjust_end_layer_for_tail (a.store r) l) := by
        intro l hl
        have hgets : gets_layers { s with bootstrapped := !bootstrap } r =
            decide ((l : Int) < s.layer_allocator.adjust_end_layer_for_tail (s.node r) l) :=
          gets_layers_of_room hm hboot' hl
        rw [hgets, hend, decide_eq_true_eq]
      by_cases hgets : gets_layers { s with bootstrapped := !bootstrap } r = true
      · rcases hl : s.layer_allocator.get_lightest_layer with _ | l
        · exfalso
          have hno : gets_layers { s with bootstrapped := !bootstrap } r = false :=
            gets_layers_without_layer hm hl
          rw [hno] at hgets
          cases hgets
        · have hlt := (hroom_iff l hl).mp hgets
          rw [join_with_room hhas (hlightest.trans hl), ← allocate_cleared hlt,
            ← cleared_sort_nodes]
          exact hgains.sort_nodes.allocate hfree _ _
      · have hno : gets_layers { s with bootstrapped := !bootstrap } r = false := by
          simpa using hgets
        have hroom : ∀ l : Nat, a.get_lightest_layer = some l →
            a.adjust_end_layer_for_tail (a.store r) l ≤ l := by
          intro l hl
          exact not_lt.mp (fun hlt => hgets ((hroom_iff l (hlightest.symm.trans hl)).mpr hlt))
        rw [join_without_room hhas hroom]
        exact (hwaits hno).sort_nodes

/-- A clean join keeps the ranges that are there. -/
theorem join_gains {s : Scheduler} {r : Ref} {bootstrap : Bool} (h : Views s.layer_allocator)
    (hclean : JoinsAs s r bootstrap) :
    Gains s.layer_allocator (stateOf (join r bootstrap s)).layer_allocator := by
  unfold JoinsAs JoinsCleanly at hclean
  split at hclean
  · rename_i hhas
    exact join_present h hhas hclean
  · rename_i hhas
    exact join_absent h (Dict.has_eq_false.mp ((Bool.not_eq_true _).mp hhas)) hclean

theorem join_placed {s : Scheduler} {r : Ref} {bootstrap : Bool} (h : Placed s.layer_allocator)
    (hclean : JoinsAs s r bootstrap) : Placed (stateOf (join r bootstrap s)).layer_allocator := by
  have hgains := join_gains h.views hclean
  exact ⟨hgains.views, hgains.hosted h.hosted⟩

/-! ## Changes to a node -/

/-- A node may change in all but its id and its range. -/
theorem views_of_changed {a : Allocator} {r : Ref} (h : Views a) {n : Node}
    (hid : n.node_id = (a.store r).node_id) (hstart : n.start_layer = (a.store r).start_layer)
    (hend : n.end_layer = (a.store r).end_layer) : Views (a.set_node r n) := by
  have hstore : ∀ r', ((a.set_node r n).store r').node_id = (a.store r').node_id ∧
      ((a.set_node r n).store r').start_layer = (a.store r').start_layer ∧
      ((a.set_node r n).store r').end_layer = (a.store r').end_layer := by
    intro r'
    by_cases hr : r' = r
    · subst hr
      simp [set_node, hid, hstart, hend]
    · simp [set_node, hr]
  refine ⟨?_, ?_, h.registered, h.ascending, ?_, h.nodup⟩
  · intro id r' hr'
    unfold Allocator.node_id
    rw [(hstore r').1]
    exact h.named id r' hr'
  · intro id r' hr'
    rw [(hstore r').2.1, (hstore r').2.2]
    exact h.ranges id r' hr'
  · intro r' hr'
    unfold Allocator.node_id
    rw [(hstore r').1]
    exact h.listed r' hr'

theorem placed_of_changed {a : Allocator} {r : Ref} (h : Placed a) {n : Node}
    (hid : n.node_id = (a.store r).node_id) (hstart : n.start_layer = (a.store r).start_layer)
    (hend : n.end_layer = (a.store r).end_layer) : Placed (a.set_node r n) :=
  ⟨views_of_changed h.views hid hstart hend, h.hosted.congr rfl rfl rfl rfl rfl⟩

/-- The reference is not in use yet. -/
structure Unused (s : Scheduler) (r : Ref) : Prop where
  registered : r ∉ s.node_id_to_node.values
  listed : r ∉ s.nodes
  pending : r ∉ s.pending_joins

theorem views_of_new {s : Scheduler} {r : Ref} (h : Views s.layer_allocator) (hr : Unused s r)
    (n : Node) : Views (s.layer_allocator.set_node r n) := by
  have hother : ∀ id r', s.layer_allocator.node_id_to_node.get? id = some r' →
      (s.layer_allocator.set_node r n).store r' = s.layer_allocator.store r' := by
    intro id r' hr'
    have hne : r' ≠ r := by
      rintro rfl
      exact hr.registered (List.mem_map_of_mem (f := Prod.snd) (Dict.get?_eq_some.mp hr'))
    exact Function.update_of_ne hne _ _
  refine ⟨?_, ?_, h.registered, h.ascending, ?_, h.nodup⟩
  · intro id r' hr'
    unfold Allocator.node_id
    rw [hother id r' hr']
    exact h.named id r' hr'
  · intro id r' hr'
    rw [hother id r' hr']
    exact h.ranges id r' hr'
  · intro r' hr'
    have hreg := h.listed r' hr'
    unfold Allocator.node_id
    rw [hother _ r' hreg]
    exact hreg

theorem placed_of_new {s : Scheduler} {r : Ref} (h : Placed s.layer_allocator) (hr : Unused s r)
    (n : Node) : Placed (s.layer_allocator.set_node r n) :=
  ⟨views_of_new h.views hr n, h.hosted.congr rfl rfl rfl rfl rfl⟩

theorem update_node_info_keeps (now : Rat) (r : Ref) (u : NodeUpdate) :
    Keeps (OfAllocator Placed) (update_node_info now r u) :=
  Keeps.modifies (fun _ h => placed_of_changed h rfl rfl rfl)

theorem assign_request_keeps (node_id : String) :
    Keeps (OfAllocator Placed) (assign_request node_id) := by
  apply Keeps.bind Keeps.gets
  intro s
  split
  · exact Keeps.throws _
  · refine Keeps.bind (Keeps.modifies (fun _ h => h)) ?_
    intro _
    exact Keeps.modifies (fun _ h => placed_of_changed h rfl rfl rfl)

theorem find_optimal_path_keeps {I : Allocator → Prop} :
    Keeps (OfAllocator I) find_optimal_path := by
  apply Triple.of_state
  intro s hs
  have hsame : (stateOf (find_optimal_path s)).layer_allocator = s.layer_allocator := by
    unfold find_optimal_path
    split
    · split <;> rfl
    · split <;> rfl
  unfold OfAllocator
  rw [hsame]
  exact hs

theorem dispatch_next_request_keeps : Keeps (OfAllocator Placed) dispatch_next_request := by
  apply Triple.reads
  intro s hs
  split
  · apply Triple.pure
    intro s' hs'
    rw [hs']
    exact hs
  · rename_i req rest _
    have hqueue : Triple (fun s' => s' = s) (set { s with request_queue := rest } : SchedM PUnit)
        (fun _ => OfAllocator Placed) (fun _ => OfAllocator Placed) := Triple.sets (fun _ _ => hs)
    apply Triple.bind hqueue
    intro _
    apply Keeps.bind find_optimal_path_keeps
    rintro ⟨path, latency⟩
    exact Keeps.bind (Keeps.forEach _ (fun id _ => assign_request_keeps id))
      (fun _ => Keeps.pure _)

/-! ## Events -/

/-- A message of a worker that arrives, or one step of the threads of the scheduler. -/
inductive Event where
  | node_join (now : Rat) (m : NodeMessage) (r : Ref)
  | node_update (now : Rat) (m : NodeMessage) (r : Ref)
  | node_leave (m : NodeMessage)
  | process_node_update (now : Rat)
  | process_join
  | bootstrap_after_joins
  | process_leave
  | checking_node_heartbeat (now : Rat)
  | wait_for_bootstrap
  | receive_request (request : RequestSignal)
  | dispatch_next_request

def Event.run : Event → SchedM Unit
  | .node_join now m r => scheduler.node_join now m r
  | .node_update now m r => scheduler.node_update now m r
  | .node_leave m => scheduler.node_leave m
  | .process_node_update now => scheduler.process_node_update now
  | .process_join => scheduler.process_join
  | .bootstrap_after_joins => scheduler.bootstrap_after_joins
  | .process_leave => scheduler.process_leave
  | .checking_node_heartbeat now => scheduler.checking_node_heartbeat now
  | .wait_for_bootstrap => do let _ ← bootstrap false false
  | .receive_request request => scheduler.receive_request request
  | .dispatch_next_request => do let _ ← scheduler.dispatch_next_request

/-- The state after an event, whether it returns or raises. -/
def Event.after (e : Event) (s : Scheduler) : Scheduler := stateOf (e.run s)

/-- A new object has a reference of its own. -/
def Event.Possible (s : Scheduler) : Event → Prop
  | .node_join _ _ r => Unused s r
  | .node_update _ _ r => Unused s r
  | _ => True

/-- The node of the join that is processed next joins cleanly. -/
def Event.Clean (s : Scheduler) : Event → Prop
  | .process_join => ∀ r ∈ s.pending_joins.head?, JoinsCleanly s r
  | _ => True

/-- The states that possible events reach, each of them with `C`. -/
inductive Reachable (C : Scheduler → Event → Prop) (s₀ : Scheduler) : Scheduler → Prop
  | start : Reachable C s₀ s₀
  | event {s : Scheduler} {e : Event} :
    Reachable C s₀ s → e.Possible s → C s e → Reachable C s₀ (e.after s)

theorem node_join_placed {s : Scheduler} {now : Rat} {m : NodeMessage} {r : Ref}
    (h : Placed s.layer_allocator) (hr : Unused s r) :
    Placed (stateOf (node_join now m r s)).layer_allocator :=
  placed_of_new h hr (build_node s.model_info now m)

theorem node_update_placed {s : Scheduler} {now : Rat} {m : NodeMessage} {r : Ref}
    (h : Placed s.layer_allocator) (hr : Unused s r) :
    Placed (stateOf (node_update now m r s)).layer_allocator := by
  have hkeeps : Triple (fun s' => s' = s) (node_update now m r) (fun _ => OfAllocator Placed)
      (fun _ => OfAllocator Placed) := by
    apply Triple.reads
    intro s' hs'
    rw [hs']
    apply Triple.cond
    · intro _
      apply Triple.bind (R := fun _ => OfAllocator Placed)
      · apply Triple.modifies
        intro s' hs'
        rw [hs']
        exact placed_of_new h hr _
      · intro _
        exact Keeps.modifies (fun _ h => h)
    · intro _
      apply Triple.mono (P := OfAllocator Placed) _ _ (fun _ _ h => h) (fun _ _ h => h)
      · exact Keeps.bind (raised_keeps _) (fun _ => Keeps.modifies (fun _ h => h))
      · intro s' hs'
        rw [hs']
        exact h
  exact hkeeps.state rfl

theorem process_node_update_keeps (now : Rat) :
    Keeps (OfAllocator Placed) (process_node_update now) := by
  apply Triple.reads
  intro s hs
  split
  · apply Triple.pure
    intro s' hs'
    rw [hs']
    exact hs
  · rename_i u rest _
    have hqueue : Triple (fun s' => s' = s)
        (set { s with pending_node_updates := rest } : SchedM PUnit)
        (fun _ => OfAllocator Placed) (fun _ => OfAllocator Placed) := Triple.sets (fun _ _ => hs)
    apply Triple.bind hqueue
    intro _
    split
    · exact Keeps.pure _
    · exact update_node_info_keeps now _ u

theorem process_join_placed {s : Scheduler} (h : Placed s.layer_allocator)
    (hclean : ∀ r ∈ s.pending_joins.head?, JoinsCleanly s r) :
    Placed (stateOf (process_join s)).layer_allocator := by
  rcases hq : s.pending_joins with _ | ⟨r, rest⟩
  · have hrun : process_join s = .ok () s := by
      simp only [process_join, bind, EStateM.bind, get, getThe, MonadStateOf.get, EStateM.get, hq]
      rfl
    rw [hrun]
    exact h
  · have hrun : process_join s =
        join r (!s.bootstrapped) { s with pending_joins := rest } := by
      simp only [process_join, bind, EStateM.bind, get, getThe, MonadStateOf.get, EStateM.get, hq]
      rfl
    have hr : JoinsCleanly s r := hclean r (by rw [hq]; rfl)
    have hjoins : JoinsAs { s with pending_joins := rest } r (!s.bootstrapped) := by
      unfold JoinsAs
      rw [Bool.not_not]
      exact hr
    rw [hrun]
    exact join_placed (s := { s with pending_joins := rest }) h hjoins

theorem process_leave_keeps : Keeps (OfAllocator Placed) process_leave := by
  apply Triple.reads
  intro s hs
  split
  · apply Triple.pure
    intro s' hs'
    rw [hs']
    exact hs
  · rename_i node_id rest _
    have hqueue : Triple (fun s' => s' = s) (set { s with pending_leaves := rest } : SchedM PUnit)
        (fun _ => OfAllocator Placed) (fun _ => OfAllocator Placed) := Triple.sets (fun _ _ => hs)
    apply Triple.bind hqueue
    intro _
    exact Keeps.catches (leave_placed node_id) (fun _ => Keeps.pure _)

theorem bootstrap_after_joins_keeps : Keeps (OfAllocator Placed) bootstrap_after_joins := by
  apply Keeps.bind Keeps.gets
  intro s
  apply Keeps.cond
  · intro _
    apply Keeps.catches _ (fun _ => Keeps.pure _)
    exact Keeps.bind (bootstrap_keeps placed_kept_by_rebalance false false) (fun _ => Keeps.pure _)
  · exact fun _ => Keeps.pure _

theorem checking_node_heartbeat_keeps (now : Rat) :
    Keeps (OfAllocator Placed) (checking_node_heartbeat now) := by
  apply Keeps.bind Keeps.gets
  intro s
  apply Keeps.forEach
  intro r _
  apply Keeps.bind Keeps.gets
  intro s
  exact Keeps.cond (fun _ => leave_placed _) (fun _ => Keeps.pure _)

/-- A possible event that joins cleanly keeps the placement. -/
theorem event_placed {s : Scheduler} {e : Event} (h : Placed s.layer_allocator) (he : e.Possible s)
    (hc : e.Clean s) : Placed (e.after s).layer_allocator := by
  unfold Event.after
  cases e with
  | node_join now m r => exact node_join_placed h he
  | node_update now m r => exact node_update_placed h he
  | node_leave m => exact h
  | process_node_update now => exact (process_node_update_keeps now).state h
  | process_join => exact process_join_placed h hc
  | bootstrap_after_joins => exact bootstrap_after_joins_keeps.state h
  | process_leave => exact process_leave_keeps.state h
  | checking_node_heartbeat now => exact (checking_node_heartbeat_keeps now).state h
  | wait_for_bootstrap =>
    exact (Keeps.bind (bootstrap_keeps placed_kept_by_rebalance false false) (fun _ => Keeps.pure _)).state h
  | receive_request request => exact h
  | dispatch_next_request =>
    exact (Keeps.bind dispatch_next_request_keeps (fun _ => Keeps.pure _)).state h

/-! ## One view -/

/-- The range of a reply. -/
def LayerReply.range (reply : LayerReply) : Int × Int := (reply.start_layer, reply.end_layer)

/-- The scheduler and the allocator see the same: the listed ids are distinct, each leads to the
listed node, this has the range that the allocator has for the id, and a worker that asks is told
that range. -/
structure SameView (s : Scheduler) : Prop where
  ids : (s.nodes.map (fun r => (s.node r).node_id)).Nodup
  object : ∀ r ∈ s.nodes, s.node_id_to_node.get? (s.node r).node_id = some r
  start_layer : ∀ r ∈ s.nodes, (s.node r).start_layer =
    (s.layer_allocator.node_allocation.get? (s.node r).node_id).map Prod.fst
  end_layer : ∀ r ∈ s.nodes, (s.node r).end_layer =
    (s.layer_allocator.node_allocation.get? (s.node r).node_id).map Prod.snd
  reply : ∀ r ∈ s.nodes, (get_layer_allocation s (s.node r).node_id).map LayerReply.range =
    s.layer_allocator.node_allocation.get? (s.node r).node_id

/-- The reply has the range that the allocator has for the id. -/
theorem get_layer_allocation.spec {s : Scheduler} {id : String} {r : Ref}
    (hr : s.node_id_to_node.get? id = some r) :
    (get_layer_allocation s id).map LayerReply.range =
      s.layer_allocator.node_allocation.get? id := by
  have hperm : s.layer_allocator.list_node_allocations.Perm
      s.layer_allocator.node_allocation.items := List.perm_insertionSort _ _
  have hmem : ∀ p, (id, p) ∈ s.layer_allocator.list_node_allocations ↔
      s.layer_allocator.node_allocation.get? id = some p := by
    intro p
    rw [hperm.mem_iff, Dict.get?_eq_some]
  rcases hreply : get_layer_allocation s id with _ | reply
  · rcases hp : s.layer_allocator.node_allocation.get? id with _ | p
    · rfl
    · -- The item of the id would have been found.
      unfold get_layer_allocation at hreply
      have hnone := List.findSome?_eq_none_iff.mp hreply (id, p) ((hmem p).mpr hp)
      rw [if_pos rfl, hr] at hnone
      cases hnone
  · unfold get_layer_allocation at hreply
    obtain ⟨x, hx, hfound⟩ := List.exists_of_findSome?_eq_some hreply
    obtain ⟨id', p⟩ := x
    split at hfound
    · rename_i he
      cases he
      rw [hr] at hfound
      cases hfound
      rw [(hmem p).mp hx]
      rfl
    · cases hfound

theorem same_view_of_views {s : Scheduler} (h : Views s.layer_allocator) : SameView s where
  ids := h.ids_nodup h.nodup (fun _ hr => hr)
  object := h.listed
  start_layer := fun r hr => (h.ranges _ r (h.listed r hr)).1
  end_layer := fun r hr => (h.ranges _ r (h.listed r hr)).2
  reply := fun r hr => get_layer_allocation.spec (h.listed r hr)

section init

variable {store : Ref → Node} {m : ModelInfo} {nodes : List Ref} {min_nodes : Nat}
  {strategy : Strategy} {router : Router} {rebalance_threshold : WithTop Rat} {iterations : Nat}
  {warm_up_requests : Nat} {heartbeat_timeout : Rat}

theorem init_scheduler_placed (hids : (nodes.map (fun r => (store r).node_id)).Nodup)
    (hidle : ∀ r ∈ nodes, Idle (store r)) :
    Placed (Scheduler.init store m nodes min_nodes strategy router rebalance_threshold iterations
      warm_up_requests heartbeat_timeout).layer_allocator := by
  have hplaced : Placed (Allocator.init store m strategy nodes rebalance_threshold iterations true) :=
    placed_of_bookkeeping (init_bookkeeping hids hidle)
  unfold Scheduler.init
  split
  · exact placed_kept.global_allocation hplaced (fun _ _ _ _ _ _ _ _ => trivial)
  · exact hplaced

theorem clean_run_placed (hids : (nodes.map (fun r => (store r).node_id)).Nodup)
    (hidle : ∀ r ∈ nodes, Idle (store r)) {s : Scheduler}
    (hrun : Reachable Event.Clean (Scheduler.init store m nodes min_nodes strategy router
      rebalance_threshold iterations warm_up_requests heartbeat_timeout) s) :
    Placed s.layer_allocator := by
  induction hrun with
  | start => exact init_scheduler_placed hids hidle
  | event _ hpossible hclean ih => exact event_placed ih hpossible hclean

/-- While nodes join cleanly, the scheduler and the allocator see the same in every state. -/
theorem views_agree_while_nodes_join_cleanly
    (hids : (nodes.map (fun r => (store r).node_id)).Nodup) (hidle : ∀ r ∈ nodes, Idle (store r))
    {s : Scheduler}
    (hrun : Reachable Event.Clean (Scheduler.init store m nodes min_nodes strategy router
      rebalance_threshold iterations warm_up_requests heartbeat_timeout) s) :
    SameView s := same_view_of_views (clean_run_placed hids hidle hrun).views

end init

/-! ## A worker that joins twice -/

/-- A message of a large node. -/
def joining (id : String) : NodeMessage where
  node_id := id
  hardware := (a100_80g (build_model_info 4) id).hardware
  kvcache_mem_ratio := (a100_80g (build_model_info 4) id).kvcache_mem_ratio
  param_mem_ratio := (a100_80g (build_model_info 4) id).param_mem_ratio
  max_concurrent_requests := none
  max_sequence_length := none
  is_active := none
  manual_layer_assignment := none
  start_layer := none
  end_layer := none
  current_requests := none
  layer_latency_ms := none
  rtt_to_nodes := none

/-- A scheduler without nodes. -/
def empty_scheduler : Scheduler :=
  .init (fun _ => a100_80g (build_model_info 4) "") (build_model_info 4) [] 1 .dp
    (.rr .init) ⊤ 40 0 60

def joined_once : Scheduler :=
  Event.bootstrap_after_joins.after
    (Event.process_join.after ((Event.node_join 0 (joining "a") 0).after empty_scheduler))

def joined_twice : Scheduler :=
  Event.process_join.after ((Event.node_join 1 (joining "a") 1).after joined_once)

theorem first_join_unused : Unused empty_scheduler 0 := ⟨by decide +kernel, by decide +kernel, by decide⟩

theorem first_join_is_clean : Reachable Event.Clean empty_scheduler joined_once := by
  refine .event (.event (.event .start first_join_unused trivial) trivial ?_) trivial trivial
  intro r hr
  have hr' : r = 0 := by
    have h0 : ((Event.node_join 0 (joining "a") 0).after empty_scheduler).pending_joins.head? =
        some 0 := by decide +kernel
    rw [h0] at hr
    exact (Option.some.inj hr).symm
  rw [hr']
  decide +kernel

/-- The first join is clean. -/
theorem joined_once_agrees : SameView joined_once :=
  views_agree_while_nodes_join_cleanly (by decide) (by decide) first_join_is_clean

theorem joined_twice_reached : Reachable (fun _ _ => True) empty_scheduler joined_twice := by
  have honce : Reachable (fun _ _ => True) empty_scheduler joined_once :=
    .event (.event (.event .start first_join_unused trivial) trivial trivial) trivial trivial
  exact .event (.event honce ⟨by decide +kernel, by decide +kernel, by decide +kernel⟩ trivial)
    trivial trivial

/-- After the second join the id leads to an object that is not listed. -/
theorem second_join_splits_the_views :
    ¬ ∀ s, Reachable (fun _ _ => True) empty_scheduler s → SameView s := by
  intro hall
  have hview := hall joined_twice joined_twice_reached
  have hlisted : 0 ∈ joined_twice.nodes := by decide +kernel
  have hobject : joined_twice.node_id_to_node.get? (joined_twice.node 0).node_id = some 1 := by
    decide +kernel
  have hsame := hview.object 0 hlisted
  rw [hobject] at hsame
  cases hsame

end scheduling.scheduler
