-- The activity flag of a node (parallax/p2p/server.py, scheduling/scheduler.py
-- and backend/server/rpc_connection_handler.py). A worker says with each
-- heartbeat whether its executors are ready, and the scheduler takes its word,
-- whatever it has done to the layers of the node since then.
import InferenceMesh.P2P.LayerChange
import InferenceMesh.Scheduling.Marking

open ordered_dict state_exn
open scheduling.node scheduling.layer_allocation scheduling.scheduler parallax.launch

namespace parallax.announcer

/-! ## A worker and the scheduler -/

def _get_status (w : Worker) : ServerState := w.shared.status.getD w.announcer.status

/-- What a worker reports. The other fields are taken as they come. -/
def get_node_info (w : Worker) (node_id : String) (m : NodeMessage) : NodeMessage :=
  { m with node_id := node_id, is_active := some (decide (_get_status w = .READY)) }

/-- A call on its way to the scheduler. -/
structure Request where
  number : Nat
  is_join : Bool
  message : NodeMessage

/-- One worker, the scheduler, and what is on its way between them. The calls are numbered, the join
is the first one, and a reply is only taken while its call is waited for. -/
structure System where
  scheduler : Scheduler
  worker : Worker
  waiting : Option Nat
  calls : Nat
  requests : List Request
  handling : List Nat
  replies : List (Nat × Option LayerReply)

/-- A step of the system. The lists are addressed by position: nothing arrives in order. -/
inductive Move where
  | worker (action : parallax.launch.Action)
  | node_join (m : NodeMessage)
  | node_update (m : NodeMessage)
  | give_up
  | receive (i : Nat) (now : Rat) (r : Ref)
  | refuse (i : Nat)
  | answer (i : Nat)
  | fail (i : Nat)
  | take (i : Nat)
  | scheduler (e : Event)

/-- The worker calls the scheduler. -/
def Move.calls : Move → Bool
  | .node_join _ => true
  | .node_update _ => true
  | _ => false

/-- A step of the worker alone. -/
def Local : parallax.launch.Action → Bool
  | .join_reply _ => false
  | .heartbeat_reply _ => false
  | _ => true

/-- What another node may send, and what the threads of the scheduler do. -/
def FromOthers (node_id : String) : Event → Prop
  | .node_join _ m _ => m.node_id ≠ node_id
  | .node_update _ m _ => m.node_id ≠ node_id
  | _ => True

instance (node_id : String) (e : Event) : Decidable (FromOthers node_id e) := by
  cases e <;> unfold FromOthers <;> infer_instance

instance (s : Scheduler) (r : Ref) : Decidable (Unused s r) :=
  decidable_of_iff (r ∉ s.node_id_to_node.values ∧ r ∉ s.nodes ∧ r ∉ s.pending_joins)
    ⟨fun h => ⟨h.1, h.2.1, h.2.2⟩, fun h => ⟨h.registered, h.listed, h.pending⟩⟩

instance (s : Scheduler) (e : Event) : Decidable (e.Possible s) := by
  cases e <;> unfold Event.Possible <;> infer_instance

/-- The call as the scheduler gets it. -/
def Request.event (q : Request) (now : Rat) (r : Ref) : Event :=
  if q.is_join then .node_join now q.message r else .node_update now q.message r

/-- The worker takes a reply. An empty reply to the join ends it. -/
def take_reply (w : Worker) (reply : Option LayerReply) : Option Worker :=
  if w.announcer.joined then w.step (.heartbeat_reply reply)
  else match reply with
    | some reply => w.step (.join_reply reply)
    | none => none

namespace System

variable (node_id : String) (S : System)

/-- A new call. -/
def calling (is_join : Bool) (m : NodeMessage) : System :=
  { S with
    waiting := some S.calls
    calls := S.calls + 1
    requests := S.requests ++ [⟨S.calls, is_join, get_node_info S.worker node_id m⟩] }

def step : Move → Option System
  | .worker action =>
    if Local action then (S.worker.step action).map (fun w => { S with worker := w }) else none
  | .node_join m =>
    if S.worker.announcer.writes = [] ∧ S.calls = 0 then some (S.calling node_id true m) else none
  | .node_update m =>
    if S.worker.announcer.writes = [] ∧ S.worker.announcer.joined = true ∧ S.waiting = none then
      some (S.calling node_id false m)
    else none
  | .give_up =>
    if S.worker.announcer.joined = true then some { S with waiting := none } else none
  | .receive i now r =>
    match S.requests[i]? with
    | some q =>
      if Unused S.scheduler r then
        some { S with
          scheduler := (q.event now r).after S.scheduler
          requests := S.requests.eraseIdx i
          handling := S.handling ++ [q.number] }
      else none
    | none => none
  | .refuse i =>
    match S.requests[i]? with
    | some q =>
      some { S with
        requests := S.requests.eraseIdx i
        replies := S.replies ++ [(q.number, none)] }
    | none => none
  | .answer i =>
    match S.handling[i]? with
    | some number =>
      some { S with
        handling := S.handling.eraseIdx i
        replies := S.replies ++ [(number, get_layer_allocation S.scheduler node_id)] }
    | none => none
  | .fail i =>
    match S.handling[i]? with
    | some number =>
      some { S with
        handling := S.handling.eraseIdx i
        replies := S.replies ++ [(number, none)] }
    | none => none
  | .take i =>
    match S.replies[i]? with
    | some (number, reply) =>
      if S.waiting = some number then
        (take_reply S.worker reply).map (fun w =>
          { S with worker := w, waiting := none, replies := S.replies.eraseIdx i })
      else none
    | none => none
  | .scheduler e =>
    if e.Possible S.scheduler ∧ FromOthers node_id e then
      some { S with scheduler := e.after S.scheduler }
    else none

/-- A worker at its start, and a scheduler that has not heard of it. -/
def start (args : LaunchArgs) (s : Scheduler) : System where
  scheduler := s
  worker := .start args
  waiting := none
  calls := 0
  requests := []
  handling := []
  replies := []

end System

/-- The states that steps with `C` reach. -/
inductive Reachable (C : System → Move → Prop) (node_id : String) (args : LaunchArgs)
    (s : Scheduler) : System → Prop
  | start : Reachable C node_id args s (.start args s)
  | step {S S' : System} {move : Move} :
    Reachable C node_id args s S → C S move → S.step node_id move = some S' →
      Reachable C node_id args s S'

/-- While the node is marked active, the executors of its worker are loaded with the range that the
scheduler has allocated to the node. -/
def Honest (node_id : String) (S : System) : Prop :=
  ∀ r ∈ S.scheduler.nodes, (S.scheduler.node r).node_id = node_id →
    (S.scheduler.node r).is_active = true →
      ∃ x ∈ S.worker.executors, x.loaded = x.tp_size ∧ ∃ start_layer end_layer,
        x.range = (some start_layer, some end_layer) ∧
          S.scheduler.layer_allocator.node_allocation.get? node_id = some (start_layer, end_layer)

/-! ## The word of a worker -/

/-- No word that the worker is ready is on its way, waits in the queue, or is believed. -/
structure Silent (node_id : String) (S : System) : Prop where
  quiet : Quiet node_id S.scheduler
  requests : ∀ q ∈ S.requests, q.message.is_active = some false

/-- The executors are loaded with the range that the worker was told, no change of it is pending,
the scheduler has the same range for the node, and so does the reply that is waited for. -/
structure Settled (node_id : String) (S : System) : Prop where
  joined : S.worker.announcer.joined = true
  running : S.worker.phase = .running
  unsignalled : ¬ S.worker.Signalled
  loaded : ∃ x ∈ S.worker.executors, x.loaded = x.tp_size ∧ x.range = S.worker.last_written
  told : ∃ reply, get_layer_allocation S.scheduler node_id = some reply ∧
    (some reply.start_layer, some reply.end_layer) = S.worker.last_written ∧
    some reply.model_name = S.worker.announcer.model_name
  waited : ∀ number reply, (number, reply) ∈ S.replies → S.waiting = some number →
    reply = get_layer_allocation S.scheduler node_id

/-- The event leaves what the scheduler would tell the worker, or its word is gone afterwards. -/
def Lasting (node_id : String) (S S' : System) : Prop :=
  get_layer_allocation S'.scheduler node_id = get_layer_allocation S.scheduler node_id ∨
    Silent node_id S'

/-- A worker only says that it is ready when it is settled. While its word is on its way or
believed, its executors do not end, its layers are not moved, and the call that it waits for is not
answered with an empty reply. -/
def Steady (node_id : String) (S : System) (move : Move) : Prop :=
  match move with
  | .node_join _ => _get_status S.worker = .READY → Settled node_id S
  | .node_update _ => _get_status S.worker = .READY → Settled node_id S
  | .worker .executors_exit => Silent node_id S
  | .receive _ _ _ => ∀ S', S.step node_id move = some S' → Lasting node_id S S'
  | .scheduler _ => ∀ S', S.step node_id move = some S' → Lasting node_id S S'
  | .refuse i => ∀ q ∈ S.requests[i]?, S.waiting = some q.number → Silent node_id S
  | .fail i => ∀ number ∈ S.handling[i]?, S.waiting = some number → Silent node_id S
  | _ => True

/-! ## Steps of the worker -/

theorem settled_local {node_id : String} {S : System} {w' : Worker}
    {action : parallax.launch.Action} (h : Settled node_id S) (hlocal : Local action = true)
    (hexit : action ≠ .executors_exit) (hstep : S.worker.step action = some w') :
    Settled node_id { S with worker := w' } := by
  have hflag : S.worker.shared._layer_allocation_changed = false := by
    by_contra hset
    exact h.unsignalled (Or.inl (by simpa using hset))
  obtain ⟨x, hx, hloaded, hrange⟩ := h.loaded
  have hexecutors : S.worker.executors = some x := hx
  cases action with
  | write =>
    unfold Worker.step at hstep
    dsimp only at hstep
    split at hstep
    · cases hstep
    · rename_i y rest hwrites
      cases hstep
      refine ⟨h.joined, h.running, ?_, h.loaded, h.told, h.waited⟩
      rintro (hset | hmem)
      · cases y with
        | _layer_allocation_changed value =>
          have hvalue : value = true := hset
          exact h.unsignalled (Or.inr (by rw [hwrites, hvalue]; exact List.mem_cons_self))
        | _ => exact h.unsignalled (Or.inl hset)
      · exact h.unsignalled (Or.inr (by rw [hwrites]; exact List.mem_cons_of_mem _ hmem))
  | join_reply reply => cases hlocal
  | heartbeat_reply reply => cases hlocal
  | read => simp [Worker.step, Worker.read_next, h.running] at hstep
  | got_model_info => simp [Worker.step, Worker.use_model_info, h.running] at hstep
  | start_executors => simp [Worker.step, h.running] at hstep
  | load => simp [Worker.step, hexecutors, hloaded] at hstep
  | executors_exit => exact absurd rfl hexit
  | check_layer_change =>
    simp only [Worker.step, h.running, hflag, hexecutors] at hstep
    cases hstep
    exact h
  | reset => simp [Worker.step, h.running] at hstep
  | stop_executors => simp [Worker.step, h.running] at hstep

/-- A reply that says what the worker knows changes nothing. -/
theorem settled_take {node_id : String} {S : System} {w' : Worker} {number : Nat}
    {reply : Option LayerReply} (h : Settled node_id S) (hmem : (number, reply) ∈ S.replies)
    (hwaiting : S.waiting = some number) (htake : take_reply S.worker reply = some w') :
    w' = S.worker := by
  obtain ⟨told, htold, hrange, hmodel⟩ := h.told
  have hreply : reply = some told := (h.waited number reply hmem hwaiting).trans htold
  obtain ⟨hstart, hend⟩ := Prod.mk.inj hrange
  have hsame : ¬ S.worker.announcer.differs told := by
    rintro (hne | hne | hne)
    · exact hne hstart
    · exact hne hend
    · exact hne hmodel
  unfold take_reply at htake
  rw [if_pos h.joined, hreply] at htake
  unfold Worker.step at htake
  dsimp only at htake
  split at htake
  · cases htake
    have hkept : S.worker.announcer.on_heartbeat (some told) = S.worker.announcer := by
      unfold Announcer.on_heartbeat
      exact if_neg hsame
    rw [hkept]
  · cases htake

/-! ## Steps of the system -/

section steps

variable {node_id : String} {S S' : System} {move : Move}

/-- What a step does. -/
inductive Stepped (node_id : String) (S : System) : Move → System → Prop
  | worker {action : parallax.launch.Action} {w : Worker} (hlocal : Local action = true)
    (hstep : S.worker.step action = some w) :
    Stepped node_id S (.worker action) { S with worker := w }
  | node_join (m : NodeMessage) : Stepped node_id S (.node_join m) (S.calling node_id true m)
  | node_update (m : NodeMessage) : Stepped node_id S (.node_update m) (S.calling node_id false m)
  | give_up : Stepped node_id S .give_up { S with waiting := none }
  | receive {i : Nat} {now : Rat} {r : Ref} {q : Request} (hq : S.requests[i]? = some q)
    (hunused : Unused S.scheduler r) :
    Stepped node_id S (.receive i now r) { S with
      scheduler := (q.event now r).after S.scheduler
      requests := S.requests.eraseIdx i
      handling := S.handling ++ [q.number] }
  | refuse {i : Nat} {q : Request} (hq : S.requests[i]? = some q) :
    Stepped node_id S (.refuse i) { S with
      requests := S.requests.eraseIdx i
      replies := S.replies ++ [(q.number, none)] }
  | answer {i number : Nat} (hnumber : S.handling[i]? = some number) :
    Stepped node_id S (.answer i) { S with
      handling := S.handling.eraseIdx i
      replies := S.replies ++ [(number, get_layer_allocation S.scheduler node_id)] }
  | fail {i number : Nat} (hnumber : S.handling[i]? = some number) :
    Stepped node_id S (.fail i) { S with
      handling := S.handling.eraseIdx i
      replies := S.replies ++ [(number, none)] }
  | take {i number : Nat} {reply : Option LayerReply} {w : Worker}
    (hreply : S.replies[i]? = some (number, reply)) (hwaiting : S.waiting = some number)
    (htake : take_reply S.worker reply = some w) :
    Stepped node_id S (.take i)
      { S with worker := w, waiting := none, replies := S.replies.eraseIdx i }
  | scheduler {e : Event} (hpossible : e.Possible S.scheduler) (hothers : FromOthers node_id e) :
    Stepped node_id S (.scheduler e) { S with scheduler := e.after S.scheduler }

theorem step_cases (hstep : S.step node_id move = some S') : Stepped node_id S move S' := by
  cases move with
  | worker action =>
    simp only [System.step, Option.ite_none_right_eq_some, Option.map_eq_some_iff] at hstep
    obtain ⟨hlocal, w, hw, rfl⟩ := hstep
    exact .worker hlocal hw
  | node_join m =>
    simp only [System.step, Option.ite_none_right_eq_some, Option.some.injEq] at hstep
    obtain ⟨_, rfl⟩ := hstep
    exact .node_join m
  | node_update m =>
    simp only [System.step, Option.ite_none_right_eq_some, Option.some.injEq] at hstep
    obtain ⟨_, rfl⟩ := hstep
    exact .node_update m
  | give_up =>
    simp only [System.step, Option.ite_none_right_eq_some, Option.some.injEq] at hstep
    obtain ⟨_, rfl⟩ := hstep
    exact .give_up
  | receive i now r =>
    unfold System.step at hstep
    dsimp only at hstep
    split at hstep
    · rename_i q hq
      simp only [Option.ite_none_right_eq_some, Option.some.injEq] at hstep
      obtain ⟨hunused, rfl⟩ := hstep
      exact .receive hq hunused
    · cases hstep
  | refuse i =>
    unfold System.step at hstep
    dsimp only at hstep
    split at hstep
    · rename_i q hq
      cases hstep
      exact .refuse hq
    · cases hstep
  | answer i =>
    unfold System.step at hstep
    dsimp only at hstep
    split at hstep
    · rename_i number hnumber
      cases hstep
      exact .answer hnumber
    · cases hstep
  | fail i =>
    unfold System.step at hstep
    dsimp only at hstep
    split at hstep
    · rename_i number hnumber
      cases hstep
      exact .fail hnumber
    · cases hstep
  | take i =>
    unfold System.step at hstep
    dsimp only at hstep
    split at hstep
    · rename_i number reply hreply
      simp only [Option.ite_none_right_eq_some, Option.map_eq_some_iff] at hstep
      obtain ⟨hwaiting, w, htake, rfl⟩ := hstep
      exact .take hreply hwaiting htake
    · cases hstep
  | scheduler e =>
    simp only [System.step, Option.ite_none_right_eq_some, Option.some.injEq] at hstep
    obtain ⟨⟨hpossible, hothers⟩, rfl⟩ := hstep
    exact .scheduler hpossible hothers

/-- The calls in flight have numbers of their own. -/
structure Numbered (S : System) : Prop where
  requests : ∀ q ∈ S.requests, q.number < S.calls
  handling : ∀ number ∈ S.handling, number < S.calls
  replies : ∀ number reply, (number, reply) ∈ S.replies → number < S.calls

theorem numbered_calling (h : Numbered S) (is_join : Bool) (m : NodeMessage) :
    Numbered (S.calling node_id is_join m) := by
  refine ⟨fun q hq => ?_, fun number hnumber => ?_, fun number reply hreply => ?_⟩
  · rcases List.mem_append.mp hq with hq | hq
    · exact Nat.lt_succ_of_lt (h.requests q hq)
    · rw [List.mem_singleton.mp hq]
      exact Nat.lt_succ_self _
  · exact Nat.lt_succ_of_lt (h.handling number hnumber)
  · exact Nat.lt_succ_of_lt (h.replies number reply hreply)

/-- One more reply. -/
theorem replies_append {number : Nat} (h : Numbered S) (hnumber : number < S.calls)
    (reply : Option LayerReply) :
    ∀ number' reply', (number', reply') ∈ S.replies ++ [(number, reply)] → number' < S.calls := by
  intro number' reply' hreply'
  rcases List.mem_append.mp hreply' with hold | hnew
  · exact h.replies number' reply' hold
  · obtain ⟨rfl, _⟩ := Prod.mk.inj (List.mem_singleton.mp hnew)
    exact hnumber

theorem numbered_step (h : Numbered S) (hstep : Stepped node_id S move S') : Numbered S' := by
  cases hstep with
  | worker hlocal hstep => exact ⟨h.requests, h.handling, h.replies⟩
  | node_join m => exact numbered_calling h true m
  | node_update m => exact numbered_calling h false m
  | give_up => exact ⟨h.requests, h.handling, h.replies⟩
  | receive hq hunused =>
    refine ⟨fun q' hq' => h.requests q' (List.mem_of_mem_eraseIdx hq'), fun number hnumber => ?_,
      h.replies⟩
    rcases List.mem_append.mp hnumber with hold | hnew
    · exact h.handling number hold
    · rw [List.mem_singleton.mp hnew]
      exact h.requests _ (List.mem_of_getElem? hq)
  | refuse hq =>
    exact ⟨fun q' hq' => h.requests q' (List.mem_of_mem_eraseIdx hq'), h.handling,
      replies_append h (h.requests _ (List.mem_of_getElem? hq)) none⟩
  | answer hnumber =>
    exact ⟨h.requests, fun number' hnumber' => h.handling number' (List.mem_of_mem_eraseIdx hnumber'),
      replies_append h (h.handling _ (List.mem_of_getElem? hnumber)) _⟩
  | fail hnumber =>
    exact ⟨h.requests, fun number' hnumber' => h.handling number' (List.mem_of_mem_eraseIdx hnumber'),
      replies_append h (h.handling _ (List.mem_of_getElem? hnumber)) _⟩
  | take hreply hwaiting htake =>
    exact ⟨h.requests, h.handling,
      fun number reply hreply' => h.replies number reply (List.mem_of_mem_eraseIdx hreply')⟩
  | scheduler hpossible hothers => exact ⟨h.requests, h.handling, h.replies⟩

/-- The event of a silent call is silent. -/
theorem request_silent {q : Request} (h : q.message.is_active = some false) (now : Rat) (r : Ref) :
    (q.event now r).Silent node_id := by
  unfold Request.event
  split
  · exact fun _ => h
  · exact fun _ => h

theorem others_silent {e : Event} (h : FromOthers node_id e) : e.Silent node_id := by
  cases e with
  | node_join now m r => exact fun hid => absurd hid h
  | node_update now m r => exact fun hid => absurd hid h
  | _ => trivial

theorem request_possible (q : Request) (now : Rat) {r : Ref} (h : Unused S.scheduler r) :
    (q.event now r).Possible S.scheduler := by
  unfold Request.event
  split
  · exact h
  · exact h

/-- A call of a worker that is not ready. -/
theorem silent_calling (h : Silent node_id S) (hstatus : _get_status S.worker ≠ .READY)
    (is_join : Bool) (m : NodeMessage) : Silent node_id (S.calling node_id is_join m) := by
  refine ⟨h.quiet, fun q hq => ?_⟩
  rcases List.mem_append.mp hq with hq | hq
  · exact h.requests q hq
  · rw [List.mem_singleton.mp hq]
    show some (decide (_get_status S.worker = .READY)) = some false
    rw [decide_eq_false hstatus]

/-- A call of a settled worker. -/
theorem settled_calling (h : Settled node_id S) (hnumbered : Numbered S) (is_join : Bool)
    (m : NodeMessage) : Settled node_id (S.calling node_id is_join m) := by
  refine ⟨h.joined, h.running, h.unsignalled, h.loaded, h.told, fun number reply hmem hwaiting => ?_⟩
  -- The call has no reply yet.
  have hnew : S.calls = number := Option.some.inj hwaiting
  have hlt := hnumbered.replies number reply hmem
  omega

/-- While the worker does not say that it is ready, it stays silent. -/
theorem silent_kept (h : Silent node_id S)
    (hunready : move.calls = true → _get_status S.worker ≠ .READY)
    (hstep : Stepped node_id S move S') : Silent node_id S' := by
  cases hstep with
  | worker hlocal hstep => exact ⟨h.quiet, h.requests⟩
  | node_join m => exact silent_calling h (hunready rfl) true m
  | node_update m => exact silent_calling h (hunready rfl) false m
  | give_up => exact ⟨h.quiet, h.requests⟩
  | @receive i now r q hq hunused =>
    have hsilent := h.requests q (List.mem_of_getElem? hq)
    exact ⟨event_quiet h.quiet (request_possible q now hunused) (request_silent hsilent now r),
      fun q' hq' => h.requests q' (List.mem_of_mem_eraseIdx hq')⟩
  | refuse hq => exact ⟨h.quiet, fun q' hq' => h.requests q' (List.mem_of_mem_eraseIdx hq')⟩
  | answer hnumber => exact ⟨h.quiet, h.requests⟩
  | fail hnumber => exact ⟨h.quiet, h.requests⟩
  | take hreply hwaiting htake => exact ⟨h.quiet, h.requests⟩
  | scheduler hpossible hothers =>
    exact ⟨event_quiet h.quiet hpossible (others_silent hothers), h.requests⟩

theorem silent_step (h : Silent node_id S) (hnumbered : Numbered S)
    (hsteady : Steady node_id S move) (hstep : Stepped node_id S move S') :
    Silent node_id S' ∨ Settled node_id S' := by
  by_cases hready : move.calls = true ∧ _get_status S.worker = .READY
  · obtain ⟨hcalls, hready⟩ := hready
    cases hstep with
    | node_join m => exact Or.inr (settled_calling (hsteady hready) hnumbered true m)
    | node_update m => exact Or.inr (settled_calling (hsteady hready) hnumbered false m)
    | _ => cases hcalls
  · exact Or.inl (silent_kept h (fun hcalls hstatus => hready ⟨hcalls, hstatus⟩) hstep)

/-- The scheduler says the same as before. -/
theorem settled_scheduler (h : Settled node_id S) {s' : Scheduler} {requests : List Request}
    {handling : List Nat}
    (hsame : get_layer_allocation s' node_id = get_layer_allocation S.scheduler node_id) :
    Settled node_id { S with scheduler := s', requests := requests, handling := handling } := by
  refine ⟨h.joined, h.running, h.unsignalled, h.loaded, ?_, ?_⟩
  · show ∃ reply, get_layer_allocation s' node_id = some reply ∧ _
    rw [hsame]
    exact h.told
  · intro number reply hmem hwaiting
    show reply = get_layer_allocation s' node_id
    rw [hsame]
    exact h.waited number reply hmem hwaiting

/-- One more reply that is not waited for, or that says what the scheduler says. -/
theorem settled_reply (h : Settled node_id S) {number : Nat} {reply : Option LayerReply}
    {requests : List Request} {handling : List Nat}
    (hreply : S.waiting = some number → reply = get_layer_allocation S.scheduler node_id) :
    Settled node_id { S with
      requests := requests, handling := handling, replies := S.replies ++ [(number, reply)] } := by
  refine ⟨h.joined, h.running, h.unsignalled, h.loaded, h.told, ?_⟩
  intro number' reply' hmem hwaiting
  rcases List.mem_append.mp hmem with hold | hnew
  · exact h.waited number' reply' hold hwaiting
  · obtain ⟨rfl, rfl⟩ := Prod.mk.inj (List.mem_singleton.mp hnew)
    exact hreply hwaiting

/-- A worker that said that it is ready is settled until its word is gone. -/
theorem settled_step (h : Settled node_id S) (hnumbered : Numbered S)
    (hsteady : Steady node_id S move) (hrun : S.step node_id move = some S')
    (hstep : Stepped node_id S move S') : Silent node_id S' ∨ Settled node_id S' := by
  cases hstep with
  | @worker action w hlocal hstep =>
    by_cases hexit : action = .executors_exit
    · subst hexit
      have hsilent : Silent node_id S := hsteady
      exact Or.inl ⟨hsilent.quiet, hsilent.requests⟩
    · exact Or.inr (settled_local h hlocal hexit hstep)
  | node_join m => exact Or.inr (settled_calling h hnumbered true m)
  | node_update m => exact Or.inr (settled_calling h hnumbered false m)
  | give_up =>
    exact Or.inr ⟨h.joined, h.running, h.unsignalled, h.loaded, h.told,
      fun _ _ _ hwaiting => absurd hwaiting (Option.some_ne_none _).symm⟩
  | receive hq hunused =>
    rcases hsteady _ hrun with hsame | hsilent
    · exact Or.inr (settled_scheduler h hsame)
    · exact Or.inl hsilent
  | @refuse i q hq =>
    by_cases hwaiting : S.waiting = some q.number
    · have hsilent := hsteady q hq hwaiting
      exact Or.inl ⟨hsilent.quiet, fun q' hq' => hsilent.requests q' (List.mem_of_mem_eraseIdx hq')⟩
    · exact Or.inr (settled_reply h (fun h => absurd h hwaiting))
  | answer hnumber => exact Or.inr (settled_reply h (fun _ => rfl))
  | @fail i number hnumber =>
    by_cases hwaiting : S.waiting = some number
    · have hsilent := hsteady number hnumber hwaiting
      exact Or.inl ⟨hsilent.quiet, hsilent.requests⟩
    · exact Or.inr (settled_reply h (fun h => absurd h hwaiting))
  | take hreply hwaiting htake =>
    have hworker := settled_take h (List.mem_of_getElem? hreply) hwaiting htake
    subst hworker
    exact Or.inr ⟨h.joined, h.running, h.unsignalled, h.loaded, h.told,
      fun _ _ _ hwaiting => absurd hwaiting (Option.some_ne_none _).symm⟩
  | scheduler hpossible hothers =>
    rcases hsteady _ hrun with hsame | hsilent
    · exact Or.inr (settled_scheduler h hsame)
    · exact Or.inl hsilent

end steps

/-! ## Runs -/

theorem reachable_settled {node_id : String} {args : LaunchArgs} {s : Scheduler} {S : System}
    (hquiet : Quiet node_id s) (h : Reachable (Steady node_id) node_id args s S) :
    Numbered S ∧ (Silent node_id S ∨ Settled node_id S) := by
  induction h with
  | start =>
    refine ⟨⟨?_, ?_, ?_⟩, Or.inl ⟨hquiet, ?_⟩⟩
    all_goals simp [System.start]
  | step _ hsteady hstep ih =>
    obtain ⟨hnumbered, hstate⟩ := ih
    have hcases := step_cases hstep
    refine ⟨numbered_step hnumbered hcases, ?_⟩
    rcases hstate with hsilent | hsettled
    · exact silent_step hsilent hnumbered hsteady hcases
    · exact settled_step hsettled hnumbered hsteady hstep hcases

/-- What a worker is told is the range that the scheduler has allocated to the node. -/
theorem told_range {s : Scheduler} {node_id : String} {reply : LayerReply}
    (h : get_layer_allocation s node_id = some reply) :
    s.layer_allocator.node_allocation.get? node_id = some (reply.start_layer, reply.end_layer) := by
  unfold get_layer_allocation at h
  obtain ⟨⟨id, start_layer, end_layer⟩, hmem, hx⟩ := List.exists_of_findSome?_eq_some h
  unfold Allocator.list_node_allocations at hmem
  rw [(List.perm_insertionSort _ _).mem_iff] at hmem
  dsimp only at hx
  split at hx
  · rename_i hid
    subst hid
    split at hx
    · cases hx
    · cases hx
      exact Dict.get?_eq_some.mpr hmem
  · cases hx

/-- While a node is marked active, its worker is loaded with the layers that the scheduler has
allocated to it, when all steps are steady. -/
theorem active_means_loaded (node_id : String) (args : LaunchArgs) (s : Scheduler) (S : System)
    (hquiet : Quiet node_id s) (h : Reachable (Steady node_id) node_id args s S) :
    Honest node_id S := by
  intro r _ hid hactive
  rcases (reachable_settled hquiet h).2 with hsilent | hsettled
  · have hinactive := hsilent.quiet.unmarked.inactive r hid
    rw [show S.scheduler.layer_allocator.store r = S.scheduler.node r from rfl, hactive] at hinactive
    cases hinactive
  · obtain ⟨x, hx, hloaded, hrange⟩ := hsettled.loaded
    obtain ⟨reply, htold, hsame, _⟩ := hsettled.told
    exact ⟨x, hx, hloaded, reply.start_layer, reply.end_layer, hrange.trans hsame.symm,
      told_range htold⟩

/-! ## A rebalance -/

def System.run (node_id : String) (S : System) : List Move → Option System
  | [] => some S
  | move :: moves => (S.step node_id move).bind (fun S' => S'.run node_id moves)

theorem run_append (node_id : String) (S : System) (moves more : List Move) :
    S.run node_id (moves ++ more) = (S.run node_id moves).bind (fun S' => S'.run node_id more) := by
  induction moves generalizing S with
  | nil => rfl
  | cons move moves ih =>
    rw [List.cons_append, System.run, System.run, Option.bind_assoc]
    congr 1
    funext S'
    exact ih S'

/-- A run in which the worker does not say that it is ready. -/
def System.run_unready (node_id : String) (S : System) : List Move → Option System
  | [] => some S
  | move :: moves =>
    if move.calls && _get_status S.worker = .READY then none
    else (S.step node_id move).bind (fun S' => S'.run_unready node_id moves)

section runs

variable {node_id : String} {args : LaunchArgs} {s : Scheduler} {S S' : System}

theorem run_reachable {moves : List Move}
    (h : Reachable (fun _ _ => True) node_id args s S) (hrun : S.run node_id moves = some S') :
    Reachable (fun _ _ => True) node_id args s S' := by
  induction moves generalizing S with
  | nil =>
    cases hrun
    exact h
  | cons move moves ih =>
    obtain ⟨S₁, hstep, hrest⟩ := Option.bind_eq_some_iff.mp hrun
    exact ih (.step h trivial hstep) hrest

/-- A silent worker does nothing that is not steady. -/
theorem silent_steady {move : Move} (h : Silent node_id S)
    (hunready : move.calls = true → _get_status S.worker ≠ .READY) : Steady node_id S move := by
  cases move with
  | worker action =>
    cases action with
    | executors_exit => exact h
    | _ => trivial
  | node_join m => exact fun hready => absurd hready (hunready rfl)
  | node_update m => exact fun hready => absurd hready (hunready rfl)
  | receive i now r => exact fun _ hstep => Or.inr (silent_kept h hunready (step_cases hstep))
  | scheduler e => exact fun _ hstep => Or.inr (silent_kept h hunready (step_cases hstep))
  | refuse i => exact fun _ _ _ => h
  | fail i => exact fun _ _ _ => h
  | _ => trivial

theorem run_of_unready {moves : List Move} (hrun : S.run_unready node_id moves = some S') :
    S.run node_id moves = some S' := by
  induction moves generalizing S with
  | nil => exact hrun
  | cons move moves ih =>
    unfold System.run_unready at hrun
    split at hrun
    · cases hrun
    · obtain ⟨S₁, hstep, hrest⟩ := Option.bind_eq_some_iff.mp hrun
      exact Option.bind_eq_some_iff.mpr ⟨S₁, hstep, ih hrest⟩

theorem run_unready_reachable {moves : List Move}
    (h : Reachable (Steady node_id) node_id args s S) (hsilent : Silent node_id S)
    (hrun : S.run_unready node_id moves = some S') :
    Reachable (Steady node_id) node_id args s S' := by
  induction moves generalizing S with
  | nil =>
    cases hrun
    exact h
  | cons move moves ih =>
    unfold System.run_unready at hrun
    split at hrun
    · cases hrun
    · rename_i hcall
      obtain ⟨S₁, hstep, hrest⟩ := Option.bind_eq_some_iff.mp hrun
      have hunready : move.calls = true → _get_status S.worker ≠ .READY := by
        intro hcalls hready
        exact hcall (by simp [hcalls, hready])
      exact ih (.step h (silent_steady hsilent hunready) hstep)
        (silent_kept hsilent hunready (step_cases hstep)) hrest

end runs

/-- A worker on a GPU of 40 GB. -/
def worker_message (id : String) : NodeMessage :=
  { joining id with
    hardware := (a100_40g (build_model_info 7) id).hardware
    max_concurrent_requests := some 8
    max_sequence_length := some 1024 }

/-- A scheduler that waits for two workers. -/
def waiting_scheduler : Scheduler :=
  .init (fun _ => a100_40g (build_model_info 7) "") (build_model_info 7) [] 2 .dp (.rr .init) ⊤ 40 0 60

/-- Two workers join, and the first one loads its layers. -/
def joins_and_loads : List Move :=
  List.flatten [(writes 5).map .worker,
    [.node_join (worker_message "a"), .receive 0 0 0,
      .scheduler (.node_join 0 (worker_message "b") 1), .scheduler .process_join,
      .scheduler .process_join, .scheduler .bootstrap_after_joins, .answer 0, .take 0],
    (List.flatten [writes 6, reads, reads, [.start_executors, .load]]).map .worker]

/-- A heartbeat, with the range that the worker has. -/
def heartbeat_message : NodeMessage :=
  { worker_message "a" with start_layer := some 0, end_layer := some 4 }

/-- A heartbeat, and the reply to it. -/
def heartbeat : List Move :=
  [.node_update heartbeat_message, .receive 0 1 2, .answer 0, .scheduler (.process_node_update 1),
    .take 0]

/-- The other worker leaves, and the scheduler rebalances. -/
def other_leaves : List Move :=
  [.scheduler (.node_leave (worker_message "b")), .scheduler .process_leave]

def System.after (moves : List Move) : System :=
  ((System.start automatic waiting_scheduler).run "a" moves).getD
    (.start automatic waiting_scheduler)

theorem waiting_scheduler_quiet : Quiet "a" waiting_scheduler := by
  refine ⟨⟨?_, ?_⟩, ?_⟩
  · intro id r hr
    cases hr
  · intro r hr
    have hempty : "" = "a" := hr
    exact absurd hempty (by decide)
  · intro u hu
    cases hu

theorem after_reachable {moves : List Move}
    (h : ((System.start automatic waiting_scheduler).run "a" moves).isSome = true) :
    Reachable (fun _ _ => True) "a" automatic waiting_scheduler (.after moves) := by
  obtain ⟨S, hS⟩ := Option.isSome_iff_exists.mp h
  unfold System.after
  rw [hS]
  exact run_reachable .start hS

theorem loaded_reachable :
    Reachable (Steady "a") "a" automatic waiting_scheduler (.after joins_and_loads) := by
  have hsilent : Silent "a" (.start automatic waiting_scheduler) :=
    ⟨waiting_scheduler_quiet, fun q hq => by cases hq⟩
  have hsome : ((System.start automatic waiting_scheduler).run_unready "a" joins_and_loads).isSome =
      true := by decide +kernel
  obtain ⟨S, hS⟩ := Option.isSome_iff_exists.mp hsome
  unfold System.after
  rw [run_of_unready hS]
  exact run_unready_reachable .start hsilent hS

def is_running : Phase → Bool
  | .running => true
  | _ => false

theorem running_of_is_running {phase : Phase} (h : is_running phase = true) : phase = .running := by
  cases phase <;> simp_all [is_running]

theorem loaded_settled : Settled "a" (.after joins_and_loads) := by
  refine ⟨by decide +kernel, running_of_is_running (by decide +kernel), ?_, ?_, ?_, ?_⟩
  · unfold Worker.Signalled
    decide +kernel
  · exact ⟨⟨some 0, some 4, 1, 1⟩, by decide +kernel, rfl, by decide +kernel⟩
  · exact ⟨⟨"a", "GPUOss", 0, 4, 1⟩, by decide +kernel, by decide +kernel, by decide +kernel⟩
  · have hnone : (System.after joins_and_loads).replies = [] := by decide +kernel
    rw [hnone]
    intro number reply hmem
    cases hmem

/-- A step that leaves what the worker would be told. -/
theorem lasting_step {S : System} {move : Move}
    (h : ((S.step "a" move).map (fun S' => get_layer_allocation S'.scheduler "a")).all
      (fun reply => reply = get_layer_allocation S.scheduler "a") = true) {S' : System}
    (hstep : S.step "a" move = some S') : Lasting "a" S S' := by
  rw [hstep] at h
  exact Or.inl (of_decide_eq_true h)

/-- The state when a steady step is taken. -/
theorem step_reachable {moves : List Move} {move : Move}
    (h : Reachable (Steady "a") "a" automatic waiting_scheduler (.after moves))
    (hsteady : Steady "a" (.after moves) move)
    (hsome : ((System.start automatic waiting_scheduler).run "a" (moves ++ [move])).isSome = true) :
    Reachable (Steady "a") "a" automatic waiting_scheduler (.after (moves ++ [move])) := by
  obtain ⟨S', hS'⟩ := Option.isSome_iff_exists.mp hsome
  have hrun := hS'
  rw [run_append] at hrun
  obtain ⟨S, hS, hstep⟩ := Option.bind_eq_some_iff.mp hrun
  have hbefore : System.after moves = S := by
    unfold System.after
    rw [hS]
    rfl
  have hafter : System.after (moves ++ [move]) = S' := by
    unfold System.after
    rw [hS']
    rfl
  rw [hbefore] at h hsteady
  rw [hafter]
  obtain ⟨S'', hstep, hlast⟩ := Option.bind_eq_some_iff.mp hstep
  cases hlast
  exact .step h hsteady hstep

/-- The worker says that it is ready, is marked active, and is loaded with its layers. -/
theorem active_worker_is_loaded : Honest "a" (.after (joins_and_loads ++ heartbeat)) := by
  have hcalled : Reachable (Steady "a") "a" automatic waiting_scheduler
      (.after (joins_and_loads ++ [.node_update heartbeat_message])) :=
    step_reachable loaded_reachable (fun _ => loaded_settled) (by decide +kernel)
  have hreceived : Reachable (Steady "a") "a" automatic waiting_scheduler
      (.after (joins_and_loads ++ [.node_update heartbeat_message] ++ [.receive 0 1 2])) :=
    step_reachable hcalled (fun _ hstep => lasting_step (by decide +kernel) hstep)
      (by decide +kernel)
  have hanswered := @step_reachable _ (.answer 0) hreceived trivial (by decide +kernel)
  have hprocessed := @step_reachable _ (.scheduler (.process_node_update 1)) hanswered
    (fun _ hstep => lasting_step (by decide +kernel) hstep) (by decide +kernel)
  have htaken := @step_reachable _ (.take 0) hprocessed trivial (by decide +kernel)
  simp only [List.append_assoc, List.cons_append, List.nil_append] at htaken
  exact active_means_loaded "a" automatic waiting_scheduler _ waiting_scheduler_quiet htaken

/-- After the rebalance the worker still says that it is ready, and the scheduler believes it. -/
theorem rebalanced_worker_is_active :
    ¬ ∀ (node_id : String) (args : LaunchArgs) (s : Scheduler) (S : System), Quiet node_id s →
      Reachable (fun _ _ => True) node_id args s S → Honest node_id S := by
  intro hall
  have hreached := @after_reachable (joins_and_loads ++ heartbeat ++ other_leaves ++ heartbeat)
    (by decide +kernel)
  obtain ⟨_, _, _, start_layer, end_layer, _, hallocated⟩ :=
    hall _ _ _ _ waiting_scheduler_quiet hreached 0 (by decide +kernel) (by decide +kernel)
      (by decide +kernel)
  have hnone : (System.after (joins_and_loads ++ heartbeat ++ other_leaves ++
      heartbeat)).scheduler.layer_allocator.node_allocation.get? "a" = none := by decide +kernel
  rw [hnone] at hallocated
  cases hallocated

end parallax.announcer
