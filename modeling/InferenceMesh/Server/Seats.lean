-- One request at one peer: whether it waits, runs or is not there, and what the
-- cache keeps for it. The steps of the run loop for other requests leave all
-- of it alone.
import InferenceMesh.Cache.Holdings
import InferenceMesh.Server.BatchLoop

open ordered_dict python state_exn
open parallax.server.cache_manager parallax.server.request parallax.server.scheduler

namespace parallax.server.executor

/-! ## What a peer has of a request -/

/-- The request without what an abort or a timeout writes to it. -/
def calm (req : Request) : Request := { req with abort := false, last_updated_time := none }

/-- The token of a message about the request. -/
def IpcMessage.token_for (id : String) : IpcMessage → Option Int
  | .token _ next_token_id rid _ _ => if rid = id then some next_token_id else none
  | .error _ _ _ _ => none

namespace Executor

def waiting_for (e : Executor) (id : String) : List Request :=
  e.scheduler.wait_queue.filter (fun req => req.request_id = id)

/-- The tokens of the request that the HTTP server was told of. -/
def committed (e : Executor) (id : String) : List Int :=
  e.sent_to_ipc.filterMap (IpcMessage.token_for id)

/-- The aborts of the request that are still to be sent. -/
def finished_for (e : Executor) (id : String) : List Request :=
  e.finished_batch.filter (fun req => req.request_id = id)

def cache (e : Executor) : Option CacheManager := e.scheduler.cache_manager

end Executor

variable {now : Nat} {e e' e'' : Executor} {id : String} {req : Request}

/-- A step leaves what the peer has of the request. -/
structure Spares (id : String) (e e' : Executor) : Prop where
  waiting : e'.waiting_for id = e.waiting_for id
  running : (e'.running id).map calm = (e.running id).map calm
  cache : ∀ m, e.cache = some m → ∃ m', e'.cache = some m' ∧ CacheManager.Leaves id m m'
  committed : e'.committed id = e.committed id
  finished : e'.finished_for id = e.finished_for id

namespace Spares

theorem refl (id : String) (e : Executor) : Spares id e e :=
  ⟨rfl, rfl, fun m h => ⟨m, h, .refl id m⟩, rfl, rfl⟩

theorem trans (h : Spares id e e') (h' : Spares id e' e'') : Spares id e e'' := by
  refine ⟨h'.waiting.trans h.waiting, h'.running.trans h.running, ?_,
    h'.committed.trans h.committed, h'.finished.trans h.finished⟩
  intro m hm
  obtain ⟨m', hm', hl⟩ := h.cache m hm
  obtain ⟨m'', hm'', hl'⟩ := h'.cache m' hm'
  exact ⟨m'', hm'', hl.trans hl'⟩

/-- Other running requests. -/
theorem of_running {d : Dict String Request} (h : (d.get? id).map calm = (e.running id).map calm) :
    Spares id e (e.with_scheduler { e.scheduler with running_requests := d }) :=
  ⟨rfl, h, fun m hm => ⟨m, hm, .refl id m⟩, rfl, rfl⟩

/-- Another cache. -/
theorem of_cache {m m' : CacheManager} (hm : e.cache = some m)
    (h : CacheManager.Leaves id m m') : Spares id e (e.with_cache m') := by
  refine ⟨rfl, rfl, ?_, rfl, rfl⟩
  intro m₁ hm₁
  rw [hm] at hm₁
  cases hm₁
  exact ⟨m', rfl, h⟩

end Spares

/-! ## The peers of a pipeline -/

/-- What holds of the peer at place `i` of a pipeline of `k` peers. -/
structure PeerAt (k i : Nat) (e : Executor) : Prop where
  first : e.is_first_peer = decide (i = 0)
  last : e.is_last_peer = decide (i + 1 = k)
  scheduler_first : e.scheduler.is_first_peer = decide (i = 0)
  eos : i = 0 → e.scheduler.eos_token_id ≠ none
  running : Holds (fun req => req.is_finished = false) e.scheduler
  cache : ∃ m, e.cache = some m ∧ CacheManager.Tidy m

namespace PeerAt

variable {k i : Nat}

/-- A step of the scheduler that keeps its settings. -/
theorem with_scheduler {s : Scheduler} (h : PeerAt k i e)
    (hset : Scheduler.SameSettings e.scheduler s)
    (hrunning : Holds (fun req => req.is_finished = false) s)
    (hcache : ∃ m, s.cache_manager = some m ∧ CacheManager.Tidy m) :
    PeerAt k i (e.with_scheduler s) := by
  refine ⟨h.first, h.last, hset.is_first_peer.trans h.scheduler_first, ?_, hrunning, hcache⟩
  intro hi
  show s.eos_token_id ≠ none
  rw [hset.eos_token_id]
  exact h.eos hi

theorem with_running {d : Dict String Request} (h : PeerAt k i e)
    (hrunning : Holds (fun req => req.is_finished = false)
      { e.scheduler with running_requests := d }) :
    PeerAt k i (e.with_scheduler { e.scheduler with running_requests := d }) :=
  h.with_scheduler ⟨rfl⟩ hrunning h.cache

theorem with_cache {m : CacheManager} (h : PeerAt k i e) (hm : CacheManager.Tidy m) :
    PeerAt k i (e.with_cache m) :=
  ⟨h.first, h.last, h.scheduler_first, h.eos, ⟨h.running.waiting, h.running.running⟩, m, rfl, hm⟩

theorem first_peer (h : PeerAt k 0 e) : FirstPeer e :=
  ⟨h.first, h.scheduler_first, h.eos rfl, h.running⟩

end PeerAt

/-! ## Releases -/

theorem release_request_eq {m : CacheManager} (hm : e.cache = some m) (id : String) :
    e.release_request id = e.with_cache (m.release_request id) := by
  unfold Executor.cache at hm
  unfold Executor.release_request Executor.with_cache
  rw [hm]
  rfl

theorem release_cache_spares {m : CacheManager} {rid : String} (hm : e.cache = some m)
    (hne : id ≠ rid) : Spares id e (e.release_request rid) := by
  rw [release_request_eq hm]
  exact .of_cache hm (m.release_request_leaves hne)

theorem release_request_spares {k i : Nat} {rid : String} (h : PeerAt k i e) (hne : id ≠ rid) :
    Spares id e (e.release_request rid) := by
  obtain ⟨m, hm, _⟩ := h.cache
  exact release_cache_spares hm hne

theorem release_request_keeps {k i : Nat} (h : PeerAt k i e) (rid : String) :
    PeerAt k i (e.release_request rid) := by
  obtain ⟨m, hm, htidy⟩ := h.cache
  rw [release_request_eq hm]
  exact h.with_cache (htidy.release_request rid)

/-! ## Entries and evictions -/

section steps

variable {k i : Nat} {s : Scheduler}

theorem enque_spares (hne : req.request_id ≠ id) (h : e.scheduler.enque_request now req = .ok s) :
    Spares id e (e.with_scheduler s) := by
  unfold Scheduler.enque_request at h
  split at h
  · cases h
    exact .refl id e
  · dsimp only at h
    split at h
    · split at h
      · cases h
      · cases h
        apply Spares.of_running
        rw [Dict.get?_moveToEnd, Dict.get?_insert_ne _ _ hne]
        rfl
    · cases h
      refine ⟨?_, rfl, fun m hm => ⟨m, hm, .refl id m⟩, rfl, rfl⟩
      unfold Executor.waiting_for Executor.with_scheduler
      rw [List.filter_append]
      simp [hne]

theorem enque_cache (h : e.scheduler.enque_request now req = .ok s) :
    s.cache_manager = e.scheduler.cache_manager := by
  unfold Scheduler.enque_request at h
  split at h
  · cases h
    rfl
  · dsimp only at h
    split at h
    · split at h
      · cases h
      · cases h
        rfl
    · cases h
      rfl

theorem enque_keeps (hpeer : PeerAt k i e) (h : e.scheduler.enque_request now req = .ok s) :
    PeerAt k i (e.with_scheduler s) := by
  refine hpeer.with_scheduler (Scheduler.enque_request_settings h)
    (hpeer.running.enque_request open_unwritten (fun hopen => hopen) h) ?_
  rw [enque_cache h]
  exact hpeer.cache

theorem evict_spares {rid : String} (hne : rid ≠ id) (h : e.scheduler.evict_request rid = .ok s) :
    Spares id e (e.with_scheduler s) := by
  unfold Scheduler.evict_request at h
  split at h
  · cases h
    apply Spares.of_running
    rw [Dict.get?_erase_ne _ hne]
    rfl
  · cases h

theorem evict_keeps {rid : String} (hpeer : PeerAt k i e)
    (h : e.scheduler.evict_request rid = .ok s) : PeerAt k i (e.with_scheduler s) := by
  refine hpeer.with_scheduler (Scheduler.evict_request_settings h) (hpeer.running.evict_request h) ?_
  unfold Scheduler.evict_request at h
  split at h
  · cases h
    exact hpeer.cache
  · cases h

theorem pass_on_spares (hne : req.request_id ≠ id) : Spares id e (e.pass_on req) := by
  unfold Executor.pass_on
  split
  · exact .refl id e
  · refine ⟨rfl, rfl, fun m hm => ⟨m, hm, .refl id m⟩, rfl, ?_⟩
    unfold Executor.finished_for Executor.append_finished
    simp [hne]

theorem pass_on_keeps (hpeer : PeerAt k i e) : PeerAt k i (e.pass_on req) := by
  unfold Executor.pass_on
  split
  · exact hpeer
  · exact ⟨hpeer.first, hpeer.last, hpeer.scheduler_first, hpeer.eos, hpeer.running, hpeer.cache⟩

theorem send_to_ipc_keeps {message : IpcMessage} (hpeer : PeerAt k i e) :
    PeerAt k i (e.send_to_ipc message) :=
  ⟨hpeer.first, hpeer.last, hpeer.scheduler_first, hpeer.eos, hpeer.running, hpeer.cache⟩

theorem send_to_ipc_spares {message : IpcMessage} (h : message.token_for id = none) :
    Spares id e (e.send_to_ipc message) := by
  refine ⟨rfl, rfl, fun m hm => ⟨m, hm, .refl id m⟩, ?_, rfl⟩
  unfold Executor.committed Executor.send_to_ipc
  simp [h]

/-! ## Messages -/

/-- What a finished packet does: its request is released, evicted and passed on. -/
theorem finish_packet_ok (h : finish_packet req e = .ok ⟨⟩ e') :
    ∃ s, (e.release_request req.request_id).scheduler.evict_request req.request_id = .ok s ∧
      e' = ((e.release_request req.request_id).with_scheduler s).pass_on req := by
  unfold finish_packet at h
  rw [get_bind] at h
  split at h
  · cases h
  · rw [modify_bind] at h
    obtain ⟨_, e₁, hevict, h⟩ := bind_ok h
    cases h
    cases hs : (e.release_request req.request_id).scheduler.evict_request req.request_id with
    | ok s =>
      rw [on_scheduler_of_ok hs] at hevict
      cases hevict
      exact ⟨s, rfl, rfl⟩
    | error err =>
      rw [on_scheduler_of_error hs] at hevict
      cases hevict

/-- What comes in for a peer behind the first one ends its request or enters the scheduler. -/
theorem handle_next_cases (h : handle_next now req e = .ok ⟨⟩ e') :
    req.is_initial = false ∧ (ends req = true ∧ finish_packet req e = .ok ⟨⟩ e' ∨
      ends req = false ∧ ∃ s, e.scheduler.enque_request now req = .ok s ∧
        e' = e.with_scheduler s) := by
  cases hpacket : req.is_initial with
  | true =>
    unfold Request.is_initial at hpacket
    unfold handle_next at h
    rcases hkind : req.kind with ⟨_, _⟩ | ⟨_, _, _⟩
    · rw [hkind] at h
      cases h
    · rw [hkind] at hpacket
      cases hpacket
  | false =>
    refine ⟨rfl, ?_⟩
    rw [handle_next_packet hpacket] at h
    cases hends : ends req with
    | true =>
      rw [hends, if_pos rfl] at h
      exact Or.inl ⟨rfl, h⟩
    | false =>
      rw [hends, if_neg Bool.false_ne_true] at h
      exact Or.inr ⟨rfl, enque_step_ok h⟩

theorem finish_packet_spares (hpeer : PeerAt k i e) (hne : req.request_id ≠ id)
    (h : finish_packet req e = .ok ⟨⟩ e') : Spares id e e' := by
  obtain ⟨s, hs, rfl⟩ := finish_packet_ok h
  exact ((release_request_spares hpeer (Ne.symm hne)).trans (evict_spares hne hs)).trans
    (pass_on_spares hne)

theorem finish_packet_keeps (hpeer : PeerAt k i e) (h : finish_packet req e = .ok ⟨⟩ e') :
    PeerAt k i e' := by
  obtain ⟨s, hs, rfl⟩ := finish_packet_ok h
  exact pass_on_keeps (evict_keeps (release_request_keeps hpeer req.request_id) hs)

theorem commit_token_keeps {original_req : Request} {token : Int} (hpeer : PeerAt k 0 e)
    (hrun : e.running req.request_id = some original_req)
    (h : commit_token now req original_req token e = .ok ⟨⟩ e') : PeerAt k 0 e' := by
  have hfirst := commit_token_first_peer hpeer.first_peer hrun h
  rw [commit_token.spec hpeer.first_peer hrun rfl] at h
  cases h
  refine ⟨hfirst.first, ?_, hfirst.scheduler_first, fun _ => hfirst.eos, hfirst.running, ?_⟩
  · split
    · unfold Executor.pass_on
      split <;> exact hpeer.last
    · exact hpeer.last
  · split
    · obtain ⟨m, hm, htidy⟩ := hpeer.cache
      refine ⟨m.release_request req.request_id, ?_, htidy.release_request _⟩
      unfold Executor.cache at hm
      unfold Executor.pass_on
      split
      · show Option.map _ e.scheduler.cache_manager = _
        rw [hm]
        rfl
      · show Option.map _ e.scheduler.cache_manager = _
        rw [hm]
        rfl
    · exact hpeer.cache

theorem handle_first_keeps_peer (hpeer : PeerAt k 0 e) (h : handle_first now req e = .ok ⟨⟩ e') :
    PeerAt k 0 e' := by
  cases hkind : req.kind with
  | initial max_new_tokens max_total_length =>
    rw [handle_first_initial hkind] at h
    obtain ⟨s, hs, rfl⟩ := enque_step_ok h
    exact enque_keeps hpeer hs
  | intermediate position hidden_states next_token_id =>
    rw [handle_first_packet hkind, handle_token_eq] at h
    split at h
    · cases h
      exact hpeer
    · rename_i original_req hrun
      split at h
      · split at h
        · cases h
        · exact commit_token_keeps hpeer hrun h
      · cases h
        exact hpeer

theorem handle_next_keeps (hpeer : PeerAt k i e) (h : handle_next now req e = .ok ⟨⟩ e') :
    PeerAt k i e' := by
  obtain ⟨_, ⟨_, hfinish⟩ | ⟨_, s, hs, rfl⟩⟩ := handle_next_cases h
  · exact finish_packet_keeps hpeer hfinish
  · exact enque_keeps hpeer hs

/-! ## Messages of other requests -/

theorem commit_token_spares {original_req : Request} {token : Int} (hpeer : PeerAt k 0 e)
    (hne : req.request_id ≠ id) (hrun : e.running req.request_id = some original_req)
    (h : commit_token now req original_req token e = .ok ⟨⟩ e') : Spares id e e' := by
  have hid := (hpeer.running.running _ _ hrun).1
  have hrid : (with_token original_req token req.routing_table).request_id ≠ id := by
    rw [with_token_id, hid]
    exact hne
  have hput : Spares id e (e.put_running (with_token original_req token req.routing_table)) := by
    apply Spares.of_running
    rw [Dict.get?_insert_ne _ _ hrid]
    rfl
  have hsilent : ∀ r, (token_message req r token).token_for id = none := fun r => if_neg hne
  rw [commit_token.spec hpeer.first_peer hrun rfl] at h
  cases h
  split
  · refine Spares.trans (hput.trans ?_) (send_to_ipc_spares (hsilent _))
    refine Spares.trans ?_ (pass_on_spares hne)
    obtain ⟨m, hm, _⟩ := hpeer.cache
    refine Spares.trans (Spares.of_running ?_) (release_cache_spares hm (Ne.symm hne))
    rw [Dict.get?_erase_ne _ hne]
    rfl
  · refine Spares.trans (hput.trans ?_) (send_to_ipc_spares (hsilent _))
    apply Spares.of_running
    rw [Dict.get?_moveToEnd, Dict.get?_insert_ne _ _ hrid]
    rfl

theorem handle_first_spares (hpeer : PeerAt k 0 e) (hne : req.request_id ≠ id)
    (h : handle_first now req e = .ok ⟨⟩ e') : Spares id e e' := by
  cases hkind : req.kind with
  | initial max_new_tokens max_total_length =>
    rw [handle_first_initial hkind] at h
    obtain ⟨s, hs, rfl⟩ := enque_step_ok h
    exact enque_spares hne hs
  | intermediate position hidden_states next_token_id =>
    rw [handle_first_packet hkind, handle_token_eq] at h
    split at h
    · cases h
      exact .refl id e
    · rename_i original_req hrun
      split at h
      · split at h
        · cases h
        · exact commit_token_spares hpeer hne hrun h
      · cases h
        exact .refl id e

theorem handle_next_spares (hpeer : PeerAt k i e) (hne : req.request_id ≠ id)
    (h : handle_next now req e = .ok ⟨⟩ e') : Spares id e e' := by
  obtain ⟨_, ⟨_, hfinish⟩ | ⟨_, s, hs, rfl⟩⟩ := handle_next_cases h
  · exact finish_packet_spares hpeer hne hfinish
  · exact enque_spares hne hs

/-- The loop over what was received. -/
theorem handle_input_requests_eq (hpeer : PeerAt k i e) (reqs : List Request) :
    handle_input_requests now reqs e =
      reqs.forM (if i = 0 then handle_first now else handle_next now) e := by
  unfold handle_input_requests
  rw [get_bind, hpeer.first]
  by_cases hi : i = 0
  · rw [if_pos hi, if_pos (decide_eq_true hi)]
  · rw [if_neg hi, if_neg (by simpa using hi)]

theorem handle_one_keeps (hpeer : PeerAt k i e)
    (h : (if i = 0 then handle_first now else handle_next now) req e = .ok ⟨⟩ e') :
    PeerAt k i e' := by
  split at h
  · rename_i hi
    subst hi
    exact handle_first_keeps_peer hpeer h
  · exact handle_next_keeps hpeer h

theorem handle_one_spares (hpeer : PeerAt k i e) (hne : req.request_id ≠ id)
    (h : (if i = 0 then handle_first now else handle_next now) req e = .ok ⟨⟩ e') :
    Spares id e e' := by
  split at h
  · rename_i hi
    subst hi
    exact handle_first_spares hpeer hne h
  · exact handle_next_spares hpeer hne h

theorem handle_list_keeps {reqs : List Request} (hpeer : PeerAt k i e)
    (h : reqs.forM (if i = 0 then handle_first now else handle_next now) e = .ok ⟨⟩ e') :
    PeerAt k i e' := by
  induction reqs generalizing e with
  | nil =>
    cases h
    exact hpeer
  | cons r rest ih =>
    obtain ⟨⟨⟩, e₁, hone, hrest⟩ := bind_ok h
    exact ih (handle_one_keeps hpeer hone) hrest

/-- What is received for others. -/
theorem handle_list_spares {reqs : List Request} (hpeer : PeerAt k i e)
    (hne : ∀ r ∈ reqs, r.request_id ≠ id)
    (h : reqs.forM (if i = 0 then handle_first now else handle_next now) e = .ok ⟨⟩ e') :
    Spares id e e' := by
  induction reqs generalizing e with
  | nil =>
    cases h
    exact .refl id _
  | cons r rest ih =>
    obtain ⟨⟨⟩, e₁, hone, hrest⟩ := bind_ok h
    exact (handle_one_spares hpeer (hne r List.mem_cons_self) hone).trans
      (ih (handle_one_keeps hpeer hone) (fun r' hr' => hne r' (List.mem_cons_of_mem r hr')) hrest)

/-! ## Aborts and timeouts -/

/-- An abort of the client marks a request and touches nothing else. -/
theorem recv_abort_spares (e : Executor) (rid : String) (received : List Request) :
    Spares id e (recv_from_http (.abort rid) (received, e)).2 := by
  rcases recv_from_http_cases (.abort rid) received e with
    ⟨rid', r, _, hr, heq⟩ | ⟨_, _, hmessage, _⟩ | ⟨err, _, heq⟩
  · rw [heq]
    apply Spares.of_running
    rw [Dict.get?_insert]
    split
    · rename_i hid
      rw [← hid, hr]
      rfl
    · rfl
  · cases hmessage
  · rw [heq]
    exact send_to_ipc_spares rfl

theorem recv_abort_keeps (hpeer : PeerAt k i e) (rid : String) (received : List Request) :
    PeerAt k i (recv_from_http (.abort rid) (received, e)).2 := by
  rcases recv_from_http_cases (.abort rid) received e with
    ⟨rid', r, _, hr, heq⟩ | ⟨_, _, hmessage, _⟩ | ⟨err, _, heq⟩
  · rw [heq]
    obtain ⟨rfl, hopen⟩ := hpeer.running.running rid' r hr
    have hmarked : ({ r with abort := true } : Request).is_finished = false := hopen
    exact hpeer.with_running (holds_insert hpeer.running hmarked)
  · cases hmessage
  · rw [heq]
    exact send_to_ipc_keeps hpeer

theorem check_timeouts_spares (h : check_timeouts now e = .ok ⟨⟩ e') : Spares id e e' := by
  rw [check_timeouts.spec] at h
  cases h
  apply Spares.of_running
  rw [Dict.get?_mapValues, Option.map_map]
  unfold Executor.running Scheduler.get_running_request
  cases e.scheduler.running_requests.get? id with
  | none => rfl
  | some r =>
    simp only [Option.map_some, Function.comp_apply]
    split <;> rfl

theorem check_timeouts_keeps (hpeer : PeerAt k i e) (h : check_timeouts now e = .ok ⟨⟩ e') :
    PeerAt k i e' := by
  rw [check_timeouts.spec] at h
  cases h
  refine hpeer.with_running (holds_map hpeer.running ?_ ?_)
  · intro r
    split <;> rfl
  · intro r hr
    split <;> exact hr

end steps

end parallax.server.executor
