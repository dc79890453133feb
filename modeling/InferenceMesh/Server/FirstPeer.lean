-- Tokens at the first peer (mlx_executor.py, `handle_input_requests`): a token
-- is committed to its running request, which then goes on, or is evicted and
-- released. What the first peer does for one request leaves the others alone.
import InferenceMesh.Server.Timeouts

open ordered_dict python state_exn
open parallax.server.cache_manager parallax.server.request parallax.server.scheduler

namespace parallax.server.executor

/-! ## One token -/

/-- The request ends with its last token, or at an abort. -/
def stopped (s : Scheduler) (req : Request) : Bool := (s.finishing_status req).isSome || req.abort

/-- The request with the status of a finishing condition that it meets. -/
def with_status (s : Scheduler) (req : Request) : Request :=
  match s.finishing_status req with
  | some new_status => req.update_status new_status
  | none => req

theorem with_status_id (s : Scheduler) (req : Request) :
    (with_status s req).request_id = req.request_id := by
  unfold with_status Request.update_status
  split
  · split <;> rfl
  · rfl

/-- An unfinished request is evicted when it is stopped, and otherwise nothing changes. -/
theorem check_and_update_request_status.spec {s : Scheduler} {req : Request}
    (hfirst : s.is_first_peer = true) (heos : s.eos_token_id ≠ none)
    (hopen : req.is_finished = false) (hruns : s.running_requests.has req.request_id = true) :
    s.check_and_update_request_status req = .ok (stopped s req, with_status s req,
      if stopped s req then
        { s with running_requests := s.running_requests.erase req.request_id }
      else s) := by
  have hid := with_status_id s req
  unfold Scheduler.check_and_update_request_status
  rw [if_neg (by simp [hfirst]), if_neg heos, if_neg (by simp [hopen])]
  unfold with_status at hid ⊢
  unfold stopped
  dsimp only
  cases hmet : s.finishing_status req with
  | none =>
    cases habort : req.abort with
    | false => rfl
    | true =>
      unfold Scheduler.evict_request
      simp [hruns]
  | some new_status =>
    rw [hmet] at hid
    unfold Scheduler.evict_request
    simp [hid, hruns]

/-- A committed token makes a decode of an unfinished request. -/
theorem with_token_decodes {req : Request} (hopen : req.is_finished = false) (token : Int)
    (routing_table : List String) :
    (with_token req token routing_table).is_decoding = true ∧
      (with_token req token routing_table).is_finished = false := by
  unfold with_token Request.commit_new_token
  rw [hopen, if_neg Bool.false_ne_true]
  unfold Request.is_finished at hopen
  unfold Request.is_decoding Request.is_finished
  cases hs : req.status <;> simp_all

theorem with_token_id (req : Request) (token : Int) (routing_table : List String) :
    (with_token req token routing_table).request_id = req.request_id := by
  unfold with_token Request.commit_new_token
  split <;> rfl

namespace Executor

/-- A request is put in the place of the running one of its id. -/
def put_running (e : Executor) (req : Request) : Executor :=
  { e with scheduler := { e.scheduler with
    running_requests := e.scheduler.running_requests.insert req.request_id req } }

/-- The request goes on: it is ready, and at the end of the running ones. -/
def goes_on (e : Executor) (now : Nat) (req : Request) : Executor :=
  { e with scheduler := { e.scheduler with
    running_requests := (e.scheduler.running_requests.insert req.request_id
      { req with ready_for_next_step := true, last_updated_time := some now }).moveToEnd
        req.request_id } }

/-- The request is not running any more, and has given its memory back. -/
def ends_here (e : Executor) (id : String) : Executor :=
  { e with scheduler := { e.scheduler with
    running_requests := e.scheduler.running_requests.erase id } }.release_request id

end Executor

variable {now : Nat} {e e' : Executor} {id : String} {req original_req : Request} {token : Int}

/-- What a first peer keeps: it has an end-of-sequence token, and its running requests are
unfinished, each under its own id. -/
structure FirstPeer (e : Executor) : Prop where
  first : e.is_first_peer = true
  scheduler_first : e.scheduler.is_first_peer = true
  eos : e.scheduler.eos_token_id ≠ none
  running : Holds (fun req => req.is_finished = false) e.scheduler

theorem with_status_of_not_stopped {s : Scheduler} {r : Request} (h : stopped s r = false) :
    with_status s r = r := by
  unfold stopped at h
  unfold with_status
  cases hmet : s.finishing_status r with
  | none => rfl
  | some new_status =>
    rw [hmet] at h
    cases h

/-- A token for a running request: the request is stopped by it and leaves, or it goes on. -/
theorem commit_token.spec (hpeer : FirstPeer e) {r : Request}
    (hrun : e.scheduler.get_running_request req.request_id = some original_req)
    (hr : with_token original_req token req.routing_table = r) :
    commit_token now req original_req token e = .ok ⟨⟩
      (if stopped e.scheduler r then
        (((e.put_running r).ends_here req.request_id).pass_on req).send_to_ipc
          (token_message req (with_status e.scheduler r) token)
      else ((e.put_running r).goes_on now r).send_to_ipc (token_message req r token)) := by
  obtain ⟨hid, hopen⟩ := hpeer.running.running _ _ hrun
  have hrid : r.request_id = req.request_id := by
    rw [← hr, with_token_id, hid]
  obtain ⟨hdecode, hunfinished⟩ := with_token_decodes hopen token req.routing_table
  rw [hr] at hdecode hunfinished
  have hruns : (e.put_running r).scheduler.running_requests.has r.request_id = true := by
    unfold Executor.put_running Dict.has
    rw [Dict.get?_insert_self]
    rfl
  have hcheck := check_and_update_request_status.spec (s := (e.put_running r).scheduler)
    hpeer.scheduler_first hpeer.eos hunfinished hruns
  have hput : { e with scheduler := { e.scheduler with
      running_requests := e.scheduler.running_requests.insert req.request_id r } } =
        e.put_running r := by
    unfold Executor.put_running
    rw [hrid]
  unfold commit_token
  rw [hr, modify_bind, hput, get_bind, hcheck]
  cases hstop : stopped e.scheduler r with
  | true =>
    have hstop' : stopped (e.put_running r).scheduler r = true := hstop
    have hstatus : with_status (e.put_running r).scheduler r = with_status e.scheduler r := rfl
    rw [hstop', hstatus, hrid]
    dsimp only
    rw [set_bind, modify_bind, modify_bind, if_pos rfl, if_pos rfl, with_status_id, hrid]
    rfl
  | false =>
    have hstop' : stopped (e.put_running r).scheduler r = false := hstop
    have hstatus : with_status (e.put_running r).scheduler r = r := with_status_of_not_stopped hstop
    rw [hstop', hstatus]
    dsimp only
    rw [set_bind, if_neg Bool.false_ne_true, if_neg Bool.false_ne_true]
    exact bind_of_ok (enque_step (Scheduler.enque_decode now hunfinished hdecode hruns))

/-! ## One request among the others -/

/-- The request without what the scheduler writes to it in passing. -/
def core (req : Request) : Request :=
  { req with ready_for_next_step := false, last_updated_time := none }

namespace Executor

def running (e : Executor) (id : String) : Option Request := e.scheduler.get_running_request id

/-- The messages to the HTTP server about one request. -/
def sent_for (e : Executor) (id : String) : List IpcMessage :=
  e.sent_to_ipc.filter (fun message => message.rid = id)

/-- The aborts of one request, those that were sent and those that are going to be. -/
def told_of (e : Executor) (id : String) : List Request :=
  (e.sent_aborts.flatten ++ e.finished_batch).filter (fun req => req.request_id = id)

end Executor

/-- A step leaves a request alone that does not wait. -/
structure Undisturbed (id : String) (e e' : Executor) : Prop where
  last_peer : e'.is_last_peer = e.is_last_peer
  settings : Scheduler.SameSettings e.scheduler e'.scheduler
  running : (e'.running id).map core = (e.running id).map core
  waiting : id ∉ e'.waiting_ids
  cached : e'.has_request id = e.has_request id
  resident : e'.resident id = e.resident id
  sent : e'.sent_for id = e.sent_for id
  told : e'.told_of id = e.told_of id

namespace Undisturbed

theorem refl (h : id ∉ e.waiting_ids) : Undisturbed id e e :=
  ⟨rfl, .refl _, rfl, h, rfl, rfl, rfl, rfl⟩

theorem trans {e'' : Executor} (h : Undisturbed id e e') (h' : Undisturbed id e' e'') :
    Undisturbed id e e'' :=
  ⟨h'.last_peer.trans h.last_peer, h.settings.trans h'.settings, h'.running.trans h.running,
    h'.waiting, h'.cached.trans h.cached, h'.resident.trans h.resident, h'.sent.trans h.sent,
    h'.told.trans h.told⟩

end Undisturbed

theorem send_to_ipc_undisturbed {message : IpcMessage} (hne : message.rid ≠ id)
    (h : Undisturbed id e e') : Undisturbed id e (e'.send_to_ipc message) := by
  refine ⟨h.last_peer, h.settings, h.running, h.waiting, h.cached, h.resident, ?_, h.told⟩
  rw [← h.sent]
  unfold Executor.sent_for Executor.send_to_ipc
  simp [List.filter_append, hne]

theorem pass_on_undisturbed (hne : req.request_id ≠ id) (h : Undisturbed id e e') :
    Undisturbed id e (e'.pass_on req) := by
  unfold Executor.pass_on
  split
  · exact h
  · refine ⟨h.last_peer, h.settings, h.running, h.waiting, h.cached, h.resident, h.sent, ?_⟩
    rw [← h.told]
    unfold Executor.told_of Executor.append_finished
    simp [List.filter_append, hne]

/-- A change of the entry of another request. -/
theorem put_undisturbed (hwait : id ∉ e.waiting_ids) {d : Dict String Request}
    (hd : d.get? id = e.running id) :
    Undisturbed id e { e with scheduler := { e.scheduler with running_requests := d } } :=
  ⟨rfl, ⟨rfl⟩, congrArg (Option.map core) hd, hwait, rfl, rfl, rfl, rfl⟩

theorem enque_undisturbed {s : Scheduler} (hwait : id ∉ e.waiting_ids) (hne : req.request_id ≠ id)
    (h : e.scheduler.enque_request now req = .ok s) :
    Undisturbed id e { e with scheduler := s } := by
  unfold Scheduler.enque_request at h
  split at h
  · cases h
    exact .refl hwait
  · dsimp only at h
    split at h
    · split at h
      · cases h
      · cases h
        apply put_undisturbed hwait
        rw [Dict.get?_moveToEnd, Dict.get?_insert_ne _ _ hne]
        rfl
    · cases h
      refine ⟨rfl, ⟨rfl⟩, rfl, ?_, rfl, rfl, rfl, rfl⟩
      unfold Executor.waiting_ids at *
      simp only [List.map_append, List.mem_append, not_or]
      exact ⟨hwait, by simpa using Ne.symm hne⟩

theorem release_request_has (e : Executor) {id' : String} (hne : id' ≠ id) :
    (e.release_request id).has_request id' = e.has_request id' := by
  unfold Executor.release_request Executor.has_request
  rcases e.scheduler.cache_manager with _ | m
  · rfl
  · exact (m.release_request_only_for id).has_request hne

theorem ends_here_undisturbed {id' : String} (hwait : id ∉ e.waiting_ids) (hne : id' ≠ id) :
    Undisturbed id e (e.ends_here id') := by
  unfold Executor.ends_here
  refine ⟨rfl, ⟨rfl⟩, ?_, hwait, ?_, ?_, rfl, rfl⟩
  · show ((e.scheduler.running_requests.erase id').get? id).map core = _
    rw [Dict.get?_erase_ne _ hne]
    rfl
  · exact release_request_has _ (Ne.symm hne)
  · rw [Executor.release_request_resident]
    simp only [ne_eq, Ne.symm hne, not_false_eq_true, decide_true, Bool.and_true]
    rfl

/-- A token of another request. -/
theorem commit_token_undisturbed (hpeer : FirstPeer e) (hwait : id ∉ e.waiting_ids)
    (hne : req.request_id ≠ id) (hrun : e.running req.request_id = some original_req)
    (h : commit_token now req original_req token e = .ok ⟨⟩ e') : Undisturbed id e e' := by
  have hid := (hpeer.running.running _ _ hrun).1
  have hrid : (with_token original_req token req.routing_table).request_id ≠ id := by
    rw [with_token_id, hid]
    exact hne
  have hput : Undisturbed id e (e.put_running (with_token original_req token req.routing_table)) :=
    put_undisturbed hwait (Dict.get?_insert_ne _ _ hrid)
  rw [commit_token.spec hpeer hrun rfl] at h
  cases h
  split
  · refine send_to_ipc_undisturbed ?_ (pass_on_undisturbed hne ?_)
    · exact hne
    · exact hput.trans (ends_here_undisturbed hput.waiting hne)
  · refine send_to_ipc_undisturbed ?_ (hput.trans (put_undisturbed hput.waiting ?_))
    · exact hne
    rw [Dict.get?_moveToEnd, Dict.get?_insert_ne _ _ hrid]
    rfl

theorem handle_first_initial {max_new_tokens max_total_length : Nat}
    (hkind : req.kind = .initial max_new_tokens max_total_length) :
    handle_first now req e = on_scheduler (fun s => s.enque_request now req) e := by
  unfold handle_first
  rw [hkind]

theorem handle_first_packet {position : Nat} {hidden_states : Option Tensor}
    {next_token_id : Option Int} (hkind : req.kind = .intermediate position hidden_states next_token_id) :
    handle_first now req e = handle_token now req next_token_id e := by
  unfold handle_first
  rw [hkind]

theorem handle_token_eq (now : Nat) (req : Request) (next_token_id : Option Int) (e : Executor) :
    handle_token now req next_token_id e =
      match e.running req.request_id with
      | none => .ok ⟨⟩ e
      | some original_req =>
        if e.has_request req.request_id then
          match next_token_id with
          | none => .error (.RuntimeError
              s!"IntermediateRequest {req.request_id} arrived without next_token_id") e
          | some token => commit_token now req original_req token e
        else .ok ⟨⟩ e := by
  unfold handle_token Executor.running
  rw [get_bind]
  cases e.scheduler.get_running_request req.request_id with
  | none => rfl
  | some original_req =>
    dsimp only
    split
    · cases next_token_id <;> rfl
    · rfl

theorem enque_step_ok (h : on_scheduler (fun s => s.enque_request now req) e = .ok ⟨⟩ e') :
    ∃ s, e.scheduler.enque_request now req = .ok s ∧ e' = { e with scheduler := s } := by
  cases hs : e.scheduler.enque_request now req with
  | ok s =>
    rw [enque_step hs] at h
    cases h
    exact ⟨s, rfl, rfl⟩
  | error err =>
    have herr : on_scheduler (fun s => s.enque_request now req) e = .error err e :=
      on_scheduler_of_error hs
    rw [herr] at h
    cases h

/-- What comes in for another request. -/
theorem handle_first_undisturbed (hpeer : FirstPeer e) (hwait : id ∉ e.waiting_ids)
    (hne : req.request_id ≠ id) (h : handle_first now req e = .ok ⟨⟩ e') : Undisturbed id e e' := by
  cases hkind : req.kind with
  | initial max_new_tokens max_total_length =>
    rw [handle_first_initial hkind] at h
    obtain ⟨s, hs, rfl⟩ := enque_step_ok h
    exact enque_undisturbed hwait hne hs
  | intermediate position hidden_states next_token_id =>
    rw [handle_first_packet hkind, handle_token_eq] at h
    cases hrun : e.running req.request_id with
    | none =>
      rw [hrun] at h
      cases h
      exact .refl hwait
    | some original_req =>
      rw [hrun] at h
      dsimp only at h
      split at h
      · cases next_token_id with
        | none => cases h
        | some token => exact commit_token_undisturbed hpeer hwait hne hrun h
      · cases h
        exact .refl hwait

end parallax.server.executor
