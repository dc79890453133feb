-- The run loop of a first peer (base_executor.py, `run_loop`), step by step: it
-- receives from the HTTP server and from the last peer, handles what it has
-- received, tells the other peers, admits, checks timeouts, forms a batch and
-- prepares its inputs.
import InferenceMesh.Server.FirstPeer

open ordered_dict python state_exn
open parallax.server.cache_manager parallax.server.request parallax.server.scheduler

namespace parallax.server.executor

/-! ## Steps -/

/-- The executor with the requests that it has received and not handled yet. -/
structure Loop where
  peer : Executor
  received : List Request

inductive Event where
  /-- A message of the HTTP server. -/
  | http (message : HttpMessage)
  /-- Packets of the last peer. -/
  | packets (reqs : List Request)
  /-- The first of the received requests is handled. -/
  | handle (now : Nat)
  | send_finished_batch
  | admit_requests (now : Nat)
  | check_timeouts (now : Nat)
  | form_batch (now : Nat)
  /-- A call on the cache for a request of the batch. -/
  | prepare (call : Call)

/-- The request that a call is for. -/
def request_of : Call → String
  | .allocate_request request_id _ => request_id
  | .append_slot request_id => request_id
  | .free_request request_id => request_id

/-- The preparation of a batch allocates and appends, and does not free. -/
def prepares : Call → Bool
  | .free_request _ => false
  | _ => true

namespace Executor

def with_scheduler (e : Executor) (s : Scheduler) : Executor := { e with scheduler := s }

def call_cache (e : Executor) (call : Call) : Executor :=
  { e with scheduler := { e.scheduler with
    cache_manager := e.scheduler.cache_manager.map (fun m => m.after call) } }

end Executor

inductive Step : Loop → Event → Loop → Prop where
  | http {e : Executor} {received : List Request} (message : HttpMessage) :
      Step ⟨e, received⟩ (.http message)
        ⟨(recv_from_http message (received, e)).2, (recv_from_http message (received, e)).1⟩
  | packets {e : Executor} {received reqs : List Request}
      (hpackets : ∀ r ∈ reqs, r.is_initial = false) :
      Step ⟨e, received⟩ (.packets reqs) ⟨e, received ++ reqs⟩
  | handle {e e' : Executor} {now : Nat} {req : Request} {rest : List Request}
      (hrun : handle_first now req e = .ok ⟨⟩ e') :
      Step ⟨e, req :: rest⟩ (.handle now) ⟨e', rest⟩
  | send_finished_batch {e : Executor} {received : List Request} :
      Step ⟨e, received⟩ .send_finished_batch ⟨executor.send_finished_batch e, received⟩
  | admit_requests {e : Executor} {received : List Request} (now : Nat) :
      Step ⟨e, received⟩ (.admit_requests now)
        ⟨e.with_scheduler (e.scheduler.admit_requests now), received⟩
  | check_timeouts {e e' : Executor} {received : List Request} {now : Nat}
      (hrun : executor.check_timeouts now e = .ok ⟨⟩ e') :
      Step ⟨e, received⟩ (.check_timeouts now) ⟨e', received⟩
  | form_batch {e : Executor} {received : List Request} (now : Nat) :
      Step ⟨e, received⟩ (.form_batch now)
        ⟨e.with_scheduler (e.scheduler.form_batch now).2, received⟩
  | prepare {e : Executor} {received : List Request} {call : Call} (hcall : prepares call = true)
      (hruns : e.runs (request_of call) = true) :
      Step ⟨e, received⟩ (.prepare call) ⟨e.call_cache call, received⟩

/-- A list of received requests is handled request by request. -/
theorem handle_input_first {now : Nat} {e : Executor} (hfirst : e.is_first_peer = true)
    (reqs : List Request) :
    handle_input_requests now reqs e = reqs.forM (handle_first now) e := by
  unfold handle_input_requests
  rw [get_bind, hfirst, if_pos rfl]

/-! ## The invariant of a first peer -/

section holds

variable {P : Request → Prop} {s : Scheduler} {req : Request}

theorem holds_insert (h : Holds P s) (hreq : P req) : Holds P { s with
    running_requests := s.running_requests.insert req.request_id req } := by
  refine ⟨h.waiting, ?_⟩
  intro id r hr
  unfold Scheduler.get_running_request at hr
  rw [Dict.get?_insert] at hr
  split at hr
  · rename_i hid
    cases hr
    exact ⟨hid, hreq⟩
  · exact h.running id r hr

theorem holds_map (h : Holds P s) {f : Request → Request} (hid : ∀ r, (f r).request_id = r.request_id)
    (hf : ∀ r, P r → P (f r)) :
    Holds P { s with running_requests := s.running_requests.mapValues f } := by
  refine ⟨h.waiting, ?_⟩
  intro id r hr
  unfold Scheduler.get_running_request at hr
  rw [Dict.get?_mapValues] at hr
  obtain ⟨r₀, hr₀, rfl⟩ := Option.map_eq_some_iff.mp hr
  obtain ⟨hid₀, hP⟩ := h.running id r₀ hr₀
  exact ⟨(hid r₀).trans hid₀, hf r₀ hP⟩

theorem holds_erase (h : Holds P s) (id : String) :
    Holds P { s with running_requests := s.running_requests.erase id } := by
  refine ⟨h.waiting, ?_⟩
  intro id' r hr
  unfold Scheduler.get_running_request at hr
  rw [Dict.get?_erase] at hr
  split at hr
  · cases hr
  · exact h.running id' r hr

theorem holds_move (h : Holds P s) (id : String) :
    Holds P { s with running_requests := s.running_requests.moveToEnd id } := by
  refine ⟨h.waiting, ?_⟩
  intro id' r hr
  unfold Scheduler.get_running_request at hr
  rw [Dict.get?_moveToEnd] at hr
  exact h.running id' r hr

end holds

variable {now : Nat} {e e' : Executor} {id : String} {req original_req : Request} {token : Int}

theorem open_unwritten : Unwritten (fun req => req.is_finished = false) := fun _ _ _ _ h => h

theorem commit_token_first_peer (hpeer : FirstPeer e)
    (hrun : e.running req.request_id = some original_req)
    (h : commit_token now req original_req token e = .ok ⟨⟩ e') : FirstPeer e' := by
  obtain ⟨hid, hopen⟩ := hpeer.running.running _ _ hrun
  have hunfinished := (with_token_decodes hopen token req.routing_table).2
  have hput := holds_insert hpeer.running hunfinished
  rw [commit_token.spec hpeer hrun rfl] at h
  cases h
  split
  · have hends : FirstPeer ((e.put_running (with_token original_req token
        req.routing_table)).ends_here req.request_id) :=
      ⟨hpeer.first, hpeer.scheduler_first, hpeer.eos,
        ⟨(holds_erase hput req.request_id).waiting, (holds_erase hput req.request_id).running⟩⟩
    unfold Executor.pass_on
    split
    · exact ⟨hends.first, hends.scheduler_first, hends.eos, hends.running⟩
    · exact ⟨hends.first, hends.scheduler_first, hends.eos, hends.running⟩
  · refine ⟨hpeer.first, hpeer.scheduler_first, hpeer.eos, ?_⟩
    have hready : ({ with_token original_req token req.routing_table with
        ready_for_next_step := true, last_updated_time := some now } : Request).is_finished = false :=
      hunfinished
    have hmoved := holds_move (holds_insert hput hready)
      (with_token original_req token req.routing_table).request_id
    exact ⟨hmoved.waiting, hmoved.running⟩

theorem handle_first_keeps (hpeer : FirstPeer e) (h : handle_first now req e = .ok ⟨⟩ e') :
    FirstPeer e' := by
  cases hkind : req.kind with
  | initial max_new_tokens max_total_length =>
    rw [handle_first_initial hkind] at h
    obtain ⟨s, hs, rfl⟩ := enque_step_ok h
    have hset := Scheduler.enque_request_settings hs
    exact ⟨hpeer.first, hset.is_first_peer.trans hpeer.scheduler_first,
      by rw [hset.eos_token_id]; exact hpeer.eos,
      hpeer.running.enque_request open_unwritten (fun hopen => hopen) hs⟩
  | intermediate position hidden_states next_token_id =>
    rw [handle_first_packet hkind, handle_token_eq] at h
    cases hrun : e.running req.request_id with
    | none =>
      rw [hrun] at h
      cases h
      exact hpeer
    | some original_req =>
      rw [hrun] at h
      dsimp only at h
      split at h
      · cases next_token_id with
        | none => cases h
        | some token => exact commit_token_first_peer hpeer hrun h
      · cases h
        exact hpeer

theorem cancel_cases (s : Scheduler) (rid : String) :
    (∃ r, s.get_running_request rid = some r ∧ s.cancel_request rid = .ok { s with
        running_requests := s.running_requests.insert rid { r with abort := true } }) ∨
      (s.get_running_request rid = none ∧ s.cancel_request rid =
        .error (.ValueError s!"Attempted to cancel non-existent request {rid}.")) := by
  unfold Scheduler.cancel_request Scheduler.get_running_request
  cases s.running_requests.get? rid with
  | none => exact Or.inr ⟨rfl, rfl⟩
  | some r => exact Or.inl ⟨r, rfl, rfl⟩

/-- A message of the HTTP server marks a running request, adds to what is received, or is answered
with an error. -/
theorem recv_from_http_cases (message : HttpMessage) (received : List Request) (e : Executor) :
    (∃ rid r, message = .abort rid ∧ e.running rid = some r ∧
        recv_from_http message (received, e) = (received, { e with scheduler := { e.scheduler with
          running_requests := e.scheduler.running_requests.insert rid { r with abort := true } } })) ∨
      (∃ raw_request req, message = .request raw_request ∧
        handle_raw_request e.max_sequence_length raw_request = .ok req ∧
        recv_from_http message (received, e) = (received ++ [req], e)) ∨
      (∃ err, (∀ rid, message = .abort rid → e.running rid = none) ∧
        recv_from_http message (received, e) =
          (received, notify_http_request_error e message.rid err)) := by
  cases message with
  | abort rid =>
    unfold recv_from_http
    rcases cancel_cases e.scheduler rid with ⟨r, hr, hrun⟩ | ⟨hnone, hrun⟩
    · left
      refine ⟨rid, r, rfl, hr, ?_⟩
      dsimp only
      rw [hrun]
    · right; right
      refine ⟨.ValueError s!"Attempted to cancel non-existent request {rid}.", ?_, ?_⟩
      · rintro _ ⟨⟩
        exact hnone
      · dsimp only
        rw [hrun]
        rfl
  | request raw_request =>
    unfold recv_from_http
    dsimp only
    cases hraw : handle_raw_request e.max_sequence_length raw_request with
    | ok req => exact Or.inr (Or.inl ⟨raw_request, req, rfl, hraw, rfl⟩)
    | error err => exact Or.inr (Or.inr ⟨err, by simp, rfl⟩)

theorem step_first_peer {l l' : Loop} {event : Event} (hpeer : FirstPeer l.peer)
    (hstep : Step l event l') : FirstPeer l'.peer := by
  obtain ⟨hfirst, hsched, heos, hrun⟩ := hpeer
  cases hstep with
  | @http e received message =>
    rcases recv_from_http_cases message received e with
      ⟨rid, r, _, hr, heq⟩ | ⟨_, req, _, _, heq⟩ | ⟨err, _, heq⟩
    · rw [heq]
      obtain ⟨rfl, hopen⟩ := hrun.running rid r hr
      have hmarked : ({ r with abort := true } : Request).is_finished = false := hopen
      have hins := holds_insert hrun hmarked
      exact ⟨hfirst, hsched, heos, hins⟩
    · rw [heq]
      exact ⟨hfirst, hsched, heos, hrun⟩
    · rw [heq]
      exact ⟨hfirst, hsched, heos, hrun⟩
  | packets hpackets => exact ⟨hfirst, hsched, heos, hrun⟩
  | handle hrun' => exact handle_first_keeps ⟨hfirst, hsched, heos, hrun⟩ hrun'
  | send_finished_batch =>
    unfold executor.send_finished_batch
    split <;> exact ⟨hfirst, hsched, heos, hrun⟩
  | @admit_requests e received now =>
    have hset := (Scheduler.admit_requests.spec now e.scheduler).settings
    exact ⟨hfirst, hset.is_first_peer.trans hsched, by
      show (e.scheduler.admit_requests now).eos_token_id ≠ none
      rw [hset.eos_token_id]
      exact heos, hrun.admit_requests open_unwritten⟩
  | @check_timeouts e e' received now hrun' =>
    rw [check_timeouts.spec] at hrun'
    cases hrun'
    refine ⟨hfirst, hsched, heos, holds_map hrun ?_ ?_⟩
    · intro r
      split <;> rfl
    · intro r hr
      split <;> exact hr
  | @form_batch e received now =>
    have hset := Scheduler.form_batch_settings now e.scheduler
    exact ⟨hfirst, hset.is_first_peer.trans hsched, by
      show (e.scheduler.form_batch now).2.eos_token_id ≠ none
      rw [hset.eos_token_id]
      exact heos, hrun.form_batch open_unwritten⟩
  | prepare hcall hruns => exact ⟨hfirst, hsched, heos, ⟨hrun.waiting, hrun.running⟩⟩

/-! ## Steps for other requests -/

/-- The cache is the same for a request. -/
def SameFor (id : String) (c c' : Option CacheManager) : Prop :=
  c'.any (fun m => m.has_request id) = c.any (fun m => m.has_request id) ∧
    c'.any (fun m => m.resident id) = c.any (fun m => m.resident id)

theorem sameFor_only_for {id' : String} {m m' : CacheManager} (hne : id' ≠ id)
    (h : CacheManager.OnlyFor id' m m') : SameFor id (some m) (some m') :=
  ⟨h.has_request (Ne.symm hne), h.resident (Ne.symm hne)⟩

theorem make_resident_same (s : Scheduler) (hne : req.request_id ≠ id) :
    SameFor id s.cache_manager (s.make_resident req).2.cache_manager := by
  unfold Scheduler.make_resident
  cases hc : s.cache_manager with
  | none => exact ⟨by rw [hc], by rw [hc]⟩
  | some m =>
    dsimp only
    split
    · rw [hc]
      exact ⟨rfl, rfl⟩
    · exact sameFor_only_for hne (m.allocate_request_only_for req.request_id _)

theorem admit_one_same (now : Nat) (s : Scheduler) (hne : req.request_id ≠ id) :
    SameFor id s.cache_manager (s.admit_one now req).cache_manager := by
  have hsame := make_resident_same s hne
  unfold Scheduler.admit_one
  split
  · exact ⟨rfl, rfl⟩
  · split
    · rename_i s' hres
      rw [hres] at hsame
      exact hsame
    · rename_i s' hres
      rw [hres] at hsame
      exact hsame

/-- An admission of others. -/
theorem admit_requests_same (s : Scheduler) (now : Nat)
    (hwait : ∀ r ∈ s.wait_queue, r.request_id ≠ id) :
    (s.admit_requests now).get_running_request id = s.get_running_request id ∧
      SameFor id s.cache_manager (s.admit_requests now).cache_manager := by
  constructor
  · have hadm := Scheduler.admit_requests.spec now s
    cases hold : s.get_running_request id with
    | some r => exact hadm.stays id r hold
    | none =>
      cases hnew : (s.admit_requests now).get_running_request id with
      | none => rfl
      | some r =>
        rcases hadm.origin id r hnew with h | ⟨q, hq, hid, _⟩
        · rw [hold] at h
          cases h
        · exact absurd hid (hwait q hq)
  · obtain ⟨t, waiting, ht, _, heq⟩ := Scheduler.admit_from_rule
      (Q := fun t => SameFor id s.cache_manager t.cache_manager) now s.wait_queue s
      ⟨rfl, rfl⟩ (by
        intro s' r hr h
        obtain ⟨h1, h2⟩ := admit_one_same now s' (hwait r hr)
        exact ⟨h1.trans h.1, h2.trans h.2⟩)
    unfold Scheduler.admit_requests
    rw [heq]
    exact ht

theorem admit_requests_undisturbed (now : Nat) (hwait : id ∉ e.waiting_ids) :
    Undisturbed id e (e.with_scheduler (e.scheduler.admit_requests now)) := by
  have hadm := Scheduler.admit_requests.spec now e.scheduler
  have hne : ∀ r ∈ e.scheduler.wait_queue, r.request_id ≠ id := by
    rintro r hr rfl
    exact hwait (List.mem_map_of_mem hr)
  obtain ⟨hrun, hhas, hres⟩ := admit_requests_same e.scheduler now hne
  refine ⟨rfl, hadm.settings, congrArg (Option.map core) hrun, ?_, hhas, hres, rfl, rfl⟩
  intro hid
  obtain ⟨r, hr, rfl⟩ := List.mem_map.mp hid
  exact hne r (hadm.waits.mem hr) rfl

theorem form_batch_undisturbed (now : Nat) (hwait : id ∉ e.waiting_ids) :
    Undisturbed id e (e.with_scheduler (e.scheduler.form_batch now).2) := by
  have hadm := admit_requests_undisturbed now hwait
  refine hadm.trans ⟨rfl, ⟨rfl⟩, ?_, hadm.waiting, rfl, rfl, rfl, rfl⟩
  show ((Dict.mapValues _ _).get? id).map core = _
  rw [Dict.get?_mapValues, Option.map_map]
  unfold Executor.running Scheduler.get_running_request Executor.with_scheduler
  congr 1
  funext r
  simp only [Function.comp_apply]
  split <;> rfl

theorem recv_from_http_undisturbed {message : HttpMessage} {received : List Request}
    (hwait : id ∉ e.waiting_ids) (hne : message.rid ≠ id) :
    Undisturbed id e (recv_from_http message (received, e)).2 := by
  rcases recv_from_http_cases message received e with
    ⟨rid, r, rfl, hr, heq⟩ | ⟨_, req, _, _, heq⟩ | ⟨err, _, heq⟩
  · rw [heq]
    exact put_undisturbed hwait (Dict.get?_insert_ne _ _ hne)
  · rw [heq]
    exact .refl hwait
  · rw [heq]
    exact send_to_ipc_undisturbed hne (.refl hwait)

theorem send_finished_undisturbed (hwait : id ∉ e.waiting_ids) :
    Undisturbed id e (send_finished_batch e) := by
  unfold send_finished_batch
  split
  · refine ⟨rfl, .refl _, rfl, hwait, rfl, rfl, rfl, ?_⟩
    unfold Executor.told_of
    simp
  · exact .refl hwait

theorem check_timeouts_undisturbed (hwait : id ∉ e.waiting_ids)
    (hok : ∀ r, e.running id = some r → exceeded e.scheduler now r = false)
    (h : check_timeouts now e = .ok ⟨⟩ e') : Undisturbed id e e' := by
  rw [check_timeouts.spec] at h
  cases h
  refine ⟨rfl, ⟨rfl⟩, ?_, hwait, rfl, rfl, rfl, rfl⟩
  show ((e.scheduler.get_timed_out_requests now).2.get_running_request id).map core = _
  rw [(get_timed_out_requests.spec e.scheduler now).1 id]
  unfold Executor.running at *
  cases hr : e.scheduler.get_running_request id with
  | none => rfl
  | some r => rw [Option.map_some, if_neg (by simp [hok r hr])]

theorem after_append_slot (m : CacheManager) (request_id : String) :
    m.after (.append_slot request_id) = m ∨
      ∃ ok m', m.append_slot request_id = .ok (ok, m') ∧ m.after (.append_slot request_id) = m' := by
  rw [CacheManager.after]
  cases hrun : m.append_slot request_id with
  | error err => exact Or.inl rfl
  | ok r => exact Or.inr ⟨r.1, r.2, rfl, rfl⟩

theorem after_only_for (m : CacheManager) (call : Call) :
    CacheManager.OnlyFor (request_of call) m (m.after call) := by
  cases call with
  | allocate_request request_id prompt_len => exact m.allocate_request_only_for _ _
  | append_slot request_id =>
    rcases after_append_slot m request_id with heq | ⟨ok, m', hrun, heq⟩
    · rw [heq]
      exact .refl _ m
    · rw [heq]
      exact CacheManager.append_slot_only_for hrun
  | free_request request_id => exact m.release_request_only_for request_id

/-- A call that prepares a batch keeps what is in the cache. -/
theorem after_keeps {m : CacheManager} {call : Call} (hcall : prepares call = true)
    (h : m.has_request (request_of call) = true) :
    (m.after call).has_request (request_of call) = true := by
  cases call with
  | allocate_request request_id prompt_len => exact CacheManager.allocate_request_keeps _ h
  | append_slot request_id =>
    rcases after_append_slot m request_id with heq | ⟨ok, m', hrun, heq⟩
    · rw [heq]
      exact h
    · rw [heq]
      exact CacheManager.append_slot_keeps hrun h
  | free_request request_id => cases hcall

theorem prepare_undisturbed {call : Call} (hwait : id ∉ e.waiting_ids)
    (hhas : e.runs id = true → e.has_request id = true) (hcall : prepares call = true)
    (hruns : e.runs (request_of call) = true) : Undisturbed id e (e.call_cache call) := by
  have hsame : SameFor id e.scheduler.cache_manager (e.call_cache call).scheduler.cache_manager := by
    unfold Executor.call_cache Executor.has_request at *
    cases hc : e.scheduler.cache_manager with
    | none => exact ⟨rfl, rfl⟩
    | some m =>
      by_cases hid : request_of call = id
      · subst hid
        rw [hc] at hhas
        have hbefore : m.has_request (request_of call) = true := hhas hruns
        have hafter := after_keeps hcall hbefore
        refine ⟨hafter.trans hbefore.symm, ?_⟩
        exact (CacheManager.resident_of_has_request hafter).trans
          (CacheManager.resident_of_has_request hbefore).symm
      · exact sameFor_only_for hid (after_only_for m call)
  exact ⟨rfl, ⟨rfl⟩, rfl, hwait, hsame.1, hsame.2, rfl, rfl⟩

/-- The step does something with the request. -/
def About (id : String) (l : Loop) : Event → Prop
  | .http message => message.rid = id
  | .handle _ => (l.received.head?.map Request.request_id) = some id
  | .check_timeouts now => ∃ r, l.peer.running id = some r ∧ exceeded l.peer.scheduler now r = true
  | _ => False

/-- A step that has nothing to do with a request leaves it alone. -/
theorem step_undisturbed {l l' : Loop} {event : Event} (hpeer : FirstPeer l.peer)
    (hwait : id ∉ l.peer.waiting_ids) (hhas : l.peer.runs id = true → l.peer.has_request id = true)
    (hstep : Step l event l') (hother : ¬ About id l event) : Undisturbed id l.peer l'.peer := by
  cases hstep with
  | http message => exact recv_from_http_undisturbed hwait hother
  | packets hpackets => exact .refl hwait
  | handle hrun =>
    exact handle_first_undisturbed hpeer hwait (fun hid => hother (congrArg some hid)) hrun
  | send_finished_batch => exact send_finished_undisturbed hwait
  | admit_requests now => exact admit_requests_undisturbed now hwait
  | check_timeouts hrun =>
    refine check_timeouts_undisturbed hwait ?_ hrun
    intro r hr
    cases hex : exceeded _ _ r with
    | false => rfl
    | true => exact absurd ⟨r, hr, hex⟩ hother
  | form_batch now => exact form_batch_undisturbed now hwait
  | prepare hcall hruns => exact prepare_undisturbed hwait hhas hcall hruns

end parallax.server.executor
