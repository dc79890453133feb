-- Aborts at the first peer (base_executor.py, `recv_requests_from_http`, and
-- scheduler.py, `cancel_request`). An abort marks a running request, and the
-- next token of the request takes it out. A request that is still received or
-- still waits is not found, and is admitted later as if nothing had happened.
import InferenceMesh.Server.Generation

open ordered_dict python state_exn
open parallax.server.cache_manager parallax.server.request parallax.server.scheduler

namespace parallax.server.executor

/-! ## The cache holds the running requests -/

/-- The running requests are those with memory in the cache. -/
structure Stocked (e : Executor) : Prop where
  cache : ∃ m, e.scheduler.cache_manager = some m ∧ m.Tidy
  cached : ∀ id, e.runs id = true → e.has_request id = true
  no_leftover : ∀ id, e.resident id = true → e.runs id = true

variable {now : Nat} {e e' : Executor} {id : String} {req : Request}

theorem stocked_of_same (h : Stocked e)
    (hcache : e'.scheduler.cache_manager = e.scheduler.cache_manager)
    (hruns : ∀ id, e'.runs id = e.runs id) : Stocked e' := by
  refine ⟨?_, ?_, ?_⟩
  · rw [hcache]
    exact h.cache
  · intro id hid
    rw [hruns] at hid
    unfold Executor.has_request
    rw [hcache]
    exact h.cached id hid
  · intro id hid
    unfold Executor.resident at hid
    rw [hcache] at hid
    rw [hruns]
    exact h.no_leftover id hid

theorem runs_insert {d : Dict String Request} {k : String} (v : Request) (h : d.has k = true)
    (id : String) : (d.insert k v).has id = d.has id := by
  unfold Dict.has at *
  rw [Dict.get?_insert]
  split
  · rename_i hk
    rw [← hk, h]
    rfl
  · rfl

theorem runs_iff {q : Request} (h : e.running id = some q) : e.runs id = true := by
  unfold Executor.running Scheduler.get_running_request at h
  unfold Executor.runs Dict.has
  rw [h]
  rfl

theorem not_runs_iff : e.runs id = false ↔ e.running id = none := Dict.has_eq_false

/-! ### Admission -/

theorem admit_one_stocked (now : Nat) (req : Request) (h : Stocked e) :
    Stocked (e.with_scheduler (e.scheduler.admit_one now req)) := by
  obtain ⟨m, hm, htidy⟩ := h.cache
  have hrun := h.cached
  have hleft := h.no_leftover
  unfold Executor.has_request at hrun
  unfold Executor.resident at hleft
  rw [hm] at hrun hleft
  unfold Executor.with_scheduler Scheduler.admit_one
  split
  · exact h
  · rename_i hnew
    have hnot : e.runs req.request_id = false := by
      unfold Executor.runs
      simpa using hnew
    -- The request that starts to run, with the cache that it finds.
    have hstart : ∀ m' : CacheManager, m'.Tidy → m'.has_request req.request_id = true →
        CacheManager.OnlyFor req.request_id m m' → Stocked { e with scheduler :=
          { e.scheduler with cache_manager := some m' }.start_running now req } := by
      intro m' htidy' hhas honly
      have hruns : ∀ id, ({ e with scheduler := { e.scheduler with
          cache_manager := some m' }.start_running now req } : Executor).runs id =
            (decide (req.request_id = id) || e.runs id) := by
        intro id
        unfold Executor.runs Scheduler.start_running Dict.has
        dsimp only
        rw [Dict.get?_insert]
        by_cases hid : req.request_id = id <;> simp [hid]
      refine ⟨⟨m', rfl, htidy'⟩, ?_, ?_⟩
      · intro id hid
        show m'.has_request id = true
        by_cases heq : req.request_id = id
        · rw [← heq]
          exact hhas
        · rw [hruns] at hid
          rw [honly.has_request (Ne.symm heq)]
          exact hrun id (by simpa [heq] using hid)
      · intro id hid
        have hid' : m'.resident id = true := hid
        rw [hruns]
        by_cases heq : req.request_id = id
        · simp [heq]
        · rw [honly.resident (Ne.symm heq)] at hid'
          rw [hleft id hid', Bool.or_true]
    unfold Scheduler.make_resident
    rw [hm]
    dsimp only
    by_cases hhas : m.has_request req.request_id = true
    · rw [if_pos hhas]
      have hstarted := hstart m htidy hhas (.refl _ m)
      rw [← hm] at hstarted
      exact hstarted
    · rw [if_neg hhas]
      rcases halloc : m.allocate_request req.request_id req.total_length with ⟨_ | _, m'⟩
      · have honly := m.allocate_request_only_for req.request_id req.total_length
        have htidy' := htidy.allocate_request req.request_id req.total_length
        rw [halloc] at honly htidy'
        refine ⟨⟨m', rfl, htidy'⟩, ?_, ?_⟩
        · intro id hid
          have hne : id ≠ req.request_id := by
            rintro rfl
            have hid' : e.runs req.request_id = true := hid
            rw [hnot] at hid'
            cases hid'
          show m'.has_request id = true
          rw [honly.has_request hne]
          exact hrun id hid
        · intro id hid
          have hid' : m'.resident id = true := hid
          rw [CacheManager.allocate_request_refused halloc] at hid'
          exact hleft id hid'
      · have honly := m.allocate_request_only_for req.request_id req.total_length
        have htidy' := htidy.allocate_request req.request_id req.total_length
        rw [halloc] at honly htidy'
        exact hstart m' htidy' (CacheManager.allocate_request_has htidy halloc) honly

theorem admit_requests_stocked (now : Nat) (h : Stocked e) :
    Stocked (e.with_scheduler (e.scheduler.admit_requests now)) := by
  obtain ⟨t, waiting, ht, _, heq⟩ := Scheduler.admit_from_rule
    (Q := fun t => Stocked (e.with_scheduler t)) now e.scheduler.wait_queue e.scheduler h
    (fun s r _ hs => admit_one_stocked now r hs)
  unfold Scheduler.admit_requests
  rw [heq]
  exact stocked_of_same ht rfl (fun _ => rfl)

theorem after_tidy {m : CacheManager} (h : m.Tidy) (call : Call) : (m.after call).Tidy := by
  cases call with
  | allocate_request request_id prompt_len => exact h.allocate_request _ _
  | append_slot request_id =>
    rcases after_append_slot m request_id with heq | ⟨ok, m', hrun, heq⟩
    · rw [heq]
      exact h
    · rw [heq]
      exact h.append_slot hrun
  | free_request request_id => exact h.release_request request_id

/-! ### Tokens -/

theorem put_running_runs {q : Request} (h : e.runs q.request_id = true) (id : String) :
    (e.put_running q).runs id = e.runs id := runs_insert q h id

theorem goes_on_runs {q : Request} (h : e.runs q.request_id = true) (id : String) :
    (e.goes_on now q).runs id = e.runs id := by
  unfold Executor.goes_on Executor.runs
  rw [← runs_insert { q with ready_for_next_step := true, last_updated_time := some now } h id]
  unfold Dict.has
  rw [Dict.get?_moveToEnd]

/-- A request that ends leaves the running requests and the cache. -/
theorem ends_here_stocked (h : Stocked e) (id : String) : Stocked (e.ends_here id) := by
  have hruns : ∀ id', (e.ends_here id).runs id' = (e.runs id' && decide (id' ≠ id)) := by
    intro id'
    unfold Executor.ends_here
    rw [Executor.release_request_runs]
    unfold Executor.runs Dict.has
    rw [Dict.get?_erase]
    by_cases hid : id = id'
    · simp [hid]
    · simp [hid, Ne.symm hid]
  obtain ⟨m, hm, htidy⟩ := h.cache
  refine ⟨⟨m.release_request id, ?_, htidy.release_request id⟩, ?_, ?_⟩
  · unfold Executor.ends_here Executor.release_request
    rw [hm]
    rfl
  · intro id' hid
    rw [hruns, Bool.and_eq_true, decide_eq_true_eq] at hid
    exact (release_request_has _ hid.2).trans (h.cached id' hid.1)
  · intro id' hid
    unfold Executor.ends_here at hid
    rw [Executor.release_request_resident, Bool.and_eq_true, decide_eq_true_eq] at hid
    rw [hruns, h.no_leftover id' hid.1, decide_eq_true hid.2]
    rfl

theorem pass_on_stocked (h : Stocked e) (req : Request) : Stocked (e.pass_on req) :=
  pass_on_cases Stocked h (stocked_of_same h rfl (fun _ => rfl))

theorem commit_token_stocked {original_req : Request} {token : Int} (hpeer : FirstPeer e)
    (h : Stocked e) (hq : e.running req.request_id = some original_req)
    (hrun : commit_token now req original_req token e = .ok ⟨⟩ e') : Stocked e' := by
  have hid := (hpeer.running.running _ _ hq).1
  have hruns : e.runs (with_token original_req token req.routing_table).request_id = true := by
    rw [with_token_id, hid]
    exact runs_iff hq
  rw [commit_token.spec hpeer hq rfl] at hrun
  cases hrun
  generalize with_token original_req token req.routing_table = next at *
  have hput : Stocked (e.put_running next) := stocked_of_same h rfl (put_running_runs hruns)
  split
  · exact stocked_of_same (pass_on_stocked (ends_here_stocked hput _) req) rfl (fun _ => rfl)
  · refine stocked_of_same hput rfl (fun id => ?_)
    exact goes_on_runs ((put_running_runs hruns _).trans hruns) id

theorem enque_request_stocked {s : Scheduler} (h : Stocked e)
    (hrun : e.scheduler.enque_request now req = .ok s) : Stocked { e with scheduler := s } := by
  unfold Scheduler.enque_request at hrun
  split at hrun
  · cases hrun
    exact h
  · dsimp only at hrun
    split at hrun
    · split at hrun
      · cases hrun
      · rename_i hruns
        cases hrun
        refine stocked_of_same h rfl (fun id => ?_)
        exact goes_on_runs (by simpa [Executor.runs] using hruns) id
    · cases hrun
      exact stocked_of_same h rfl (fun _ => rfl)

theorem handle_first_stocked (hpeer : FirstPeer e) (h : Stocked e)
    (hrun : handle_first now req e = .ok ⟨⟩ e') : Stocked e' := by
  cases hkind : req.kind with
  | initial max_new_tokens max_total_length =>
    rw [handle_first_initial hkind] at hrun
    obtain ⟨s, hs, rfl⟩ := enque_step_ok hrun
    exact enque_request_stocked h hs
  | intermediate position hidden_states next_token_id =>
    rw [handle_first_packet hkind, handle_token_eq] at hrun
    cases hq : e.running req.request_id with
    | none =>
      rw [hq] at hrun
      cases hrun
      exact h
    | some original_req =>
      rw [hq] at hrun
      dsimp only at hrun
      split at hrun
      · cases next_token_id with
        | none => cases hrun
        | some token => exact commit_token_stocked hpeer h hq hrun
      · cases hrun
        exact h

/-! ### All steps -/

theorem map_running_stocked (h : Stocked e) (f : Request → Request) : Stocked { e with scheduler :=
    { e.scheduler with running_requests := e.scheduler.running_requests.mapValues f } } := by
  refine stocked_of_same h rfl (fun id => ?_)
  unfold Executor.runs Dict.has
  rw [Dict.get?_mapValues, Option.isSome_map]

theorem call_cache_stocked (h : Stocked e) {call : Call} (hcall : prepares call = true)
    (hruns : e.runs (request_of call) = true) : Stocked (e.call_cache call) := by
  obtain ⟨m, hm, htidy⟩ := h.cache
  have honly := after_only_for m call
  have hcache : (e.call_cache call).scheduler.cache_manager = some (m.after call) := by
    unfold Executor.call_cache
    rw [hm]
    rfl
  have hcached := h.cached
  have hleft := h.no_leftover
  unfold Executor.has_request at hcached
  unfold Executor.resident at hleft
  rw [hm] at hcached hleft
  refine ⟨⟨m.after call, hcache, after_tidy htidy call⟩, ?_, ?_⟩
  · intro id hid
    have hid' := hcached id hid
    unfold Executor.has_request
    rw [hcache]
    by_cases hsame : id = request_of call
    · subst hsame
      exact after_keeps hcall hid'
    · exact (honly.has_request hsame).trans hid'
  · intro id hid
    unfold Executor.resident at hid
    rw [hcache] at hid
    by_cases hsame : id = request_of call
    · subst hsame
      exact hruns
    · exact hleft id ((honly.resident hsame).symm.trans hid)

theorem step_stocked {l l' : Loop} {event : Event} (hpeer : FirstPeer l.peer) (h : Stocked l.peer)
    (hstep : Step l event l') : Stocked l'.peer := by
  cases hstep with
  | @http e received message =>
    rcases recv_from_http_cases message received e with
      ⟨rid, r, _, hr, heq⟩ | ⟨_, req, _, _, heq⟩ | ⟨err, _, heq⟩
    · rw [heq]
      exact stocked_of_same h rfl (runs_insert { r with abort := true } (runs_iff hr))
    · rw [heq]
      exact h
    · rw [heq]
      exact stocked_of_same h rfl (fun _ => rfl)
  | packets hpackets => exact h
  | handle hrun => exact handle_first_stocked hpeer h hrun
  | send_finished_batch =>
    unfold executor.send_finished_batch
    split
    · exact stocked_of_same h rfl (fun _ => rfl)
    · exact h
  | admit_requests now => exact admit_requests_stocked now h
  | check_timeouts hrun =>
    rw [check_timeouts.spec] at hrun
    cases hrun
    exact map_running_stocked h _
  | form_batch now => exact map_running_stocked (admit_requests_stocked now h) _
  | prepare hcall hruns => exact call_cache_stocked h hcall hruns

/-! ## Runs -/

/-- The ids whose aborts were received. -/
def aborted_after (aborted : List String) : Event → List String
  | .http (.abort rid) => rid :: aborted
  | _ => aborted

/-- Runs of a first peer, with its messages in any order and the ids that were aborted. Each step
satisfies `ok`. -/
inductive Run (ok : Loop → List String → Event → Prop) (l₀ : Loop) : Loop → List String → Prop where
  | start : Run ok l₀ l₀ []
  | step {l l' : Loop} {aborted : List String} {event : Event} (hrun : Run ok l₀ l aborted)
      (hok : ok l aborted event) (hstep : Step l event l') :
      Run ok l₀ l' (aborted_after aborted event)

/-- The id of a request body. -/
def request_id (raw_request : RawRequest) : String :=
  if raw_request.rid = "" then raw_request.new_id else raw_request.rid

/-- An abort comes when its request is neither received nor waiting, and no request comes with an
id that was aborted. -/
def InTime (l : Loop) (aborted : List String) : Event → Prop
  | .http (.abort rid) =>
    (∀ req ∈ l.received, req.is_initial = true → req.request_id ≠ rid) ∧ rid ∉ l.peer.waiting_ids
  | .http (.request raw_request) => request_id raw_request ∉ aborted
  | _ => True

/-- What an abort owes: a request that does not run stays out and has no memory, and a running one
is gone with its next token, of which the other peers are told. -/
structure TakesEffect (id : String) (l : Loop) : Prop where
  stays_out : l.peer.running id = none → l.peer.resident id = false ∧
    ∀ event l', Step l event l' → l'.peer.running id = none
  goes : ∀ now l' q packet rest, l.peer.running id = some q → l.received = packet :: rest →
    packet.request_id = id → packet.is_initial = false → Step l (.handle now) l' →
    Gone id l'.peer ∧ (l'.peer.told_of id).length =
      (l.peer.told_of id).length + if l.peer.is_last_peer then 0 else 1

/-- The receipt of an abort leaves the other requests as they are, and sends no message about
them. -/
def SparesOthers (l : Loop) : Prop :=
  ∀ rid l', Step l (.http (.abort rid)) l' → ∀ id, id ≠ rid →
    l'.peer.running id = l.peer.running id ∧ l'.peer.waiting_ids = l.peer.waiting_ids ∧
      l'.peer.resident id = l.peer.resident id ∧ l'.peer.sent_for id = l.peer.sent_for id

/-! ### The invariant -/

/-- An aborted request is neither received nor waiting, and is marked while it runs. -/
structure Cancelled (id : String) (l : Loop) : Prop where
  received : ∀ req ∈ l.received, req.is_initial = true → req.request_id ≠ id
  waiting : id ∉ l.peer.waiting_ids
  marked : ∀ q, l.peer.running id = some q → q.abort = true

variable {l l' : Loop} {aborted : List String} {event : Event}

theorem initial_request_id {rid : String} {input_ids : List Int} {params : SamplingParams}
    {max_new_tokens : Int} {max_total_length : Nat} {lora_path : Option String}
    {routing_table : List String} (h : initial_request rid input_ids params max_new_tokens
      max_total_length lora_path routing_table = .ok req) : req.request_id = rid := by
  unfold initial_request at h
  split at h
  · cases h
  · split at h
    · cases h
    · cases h
      rfl

theorem handle_raw_request_id {max_sequence_length : Option Nat} {raw_request : RawRequest}
    (h : handle_raw_request max_sequence_length raw_request = .ok req) :
    req.request_id = request_id raw_request := by
  unfold handle_raw_request at h
  obtain ⟨prompt, _, hrun⟩ := except_list.bind_eq_ok.mp h
  exact initial_request_id hrun

/-- What is received after a step: a request of a client only from a message. -/
theorem step_received (hstep : Step l event l') : ∀ req ∈ l'.received,
    req ∈ l.received ∨ req.is_initial = false ∨
      ∃ raw_request, event = .http (.request raw_request) ∧
        req.request_id = request_id raw_request := by
  cases hstep with
  | @http e received message =>
    rcases recv_from_http_cases message received e with
      ⟨rid, r, _, _, heq⟩ | ⟨raw_request, req, rfl, hraw, heq⟩ | ⟨err, _, heq⟩
    · rw [heq]
      exact fun req hreq => Or.inl hreq
    · rw [heq]
      intro req' hreq
      rcases List.mem_append.mp hreq with hold | hnew
      · exact Or.inl hold
      · rw [List.mem_singleton.mp hnew]
        exact Or.inr (Or.inr ⟨raw_request, rfl, handle_raw_request_id hraw⟩)
    · rw [heq]
      exact fun req hreq => Or.inl hreq
  | packets hpackets =>
    intro req hreq
    rcases List.mem_append.mp hreq with hold | hnew
    · exact Or.inl hold
    · exact Or.inr (Or.inl (hpackets req hnew))
  | handle hrun => exact fun req hreq => Or.inl (List.mem_cons_of_mem _ hreq)
  | send_finished_batch => exact fun req hreq => Or.inl hreq
  | admit_requests now => exact fun req hreq => Or.inl hreq
  | check_timeouts hrun => exact fun req hreq => Or.inl hreq
  | form_batch now => exact fun req hreq => Or.inl hreq
  | prepare hcall hruns => exact fun req hreq => Or.inl hreq

/-- A token ends a request that was aborted. -/
theorem token_ends_marked {packet q : Request} {next_token_id : Option Int}
    (hpeer : FirstPeer e) (hstocked : Stocked e)
    (hwait : id ∉ e.waiting_ids) (hid : packet.request_id = id) (hq : e.running id = some q)
    (habort : q.abort = true)
    (hrun : handle_token now packet next_token_id e = .ok ⟨⟩ e') : Gone id e' ∧
      (e'.told_of id).length = (e.told_of id).length + if e.is_last_peer then 0 else 1 := by
  have hq' : e.running packet.request_id = some q := by
    rw [hid]
    exact hq
  rw [handle_token_eq, hq'] at hrun
  dsimp only at hrun
  rw [if_pos (hstocked.cached _ (runs_iff hq'))] at hrun
  cases next_token_id with
  | none => cases hrun
  | some token =>
    have hmarked : (with_token q token packet.routing_table).abort = true := by
      unfold with_token Request.commit_new_token
      split <;> exact habort
    have hstop : stopped e.scheduler (with_token q token packet.routing_table) = true := by
      unfold stopped
      rw [hmarked, Bool.or_true]
    dsimp only at hrun
    rw [commit_token.spec hpeer hq' rfl, hstop, if_pos rfl, hid] at hrun
    cases hrun
    generalize with_token q token packet.routing_table = next
    have hgone : Gone id ((e.put_running next).ends_here id) := ends_here_gone hwait
    refine ⟨?_, told_of_pass_on hid⟩
    have hpassed : Gone id (((e.put_running next).ends_here id).pass_on packet) :=
      pass_on_cases (Gone id) hgone ⟨hgone.running, hgone.resident, hgone.waiting⟩
    exact ⟨hpassed.running, hpassed.resident, hpassed.waiting⟩

theorem undisturbed_cancelled (h : Undisturbed id l.peer l'.peer) (hcancelled : Cancelled id l)
    (hreceived : ∀ req ∈ l'.received, req.is_initial = true → req.request_id ≠ id) :
    Cancelled id l' := by
  refine ⟨hreceived, h.waiting, ?_⟩
  intro q hq
  have hrun := h.running
  rw [hq, Option.map_some] at hrun
  obtain ⟨q₀, hq₀, hcore⟩ := Option.map_eq_some_iff.mp hrun.symm
  have habort : (core q₀).abort = (core q).abort := congrArg Request.abort hcore
  have habort : q₀.abort = q.abort := habort
  rw [← habort]
  exact hcancelled.marked q₀ hq₀

theorem gone_cancelled (h : Gone id l.peer)
    (hreceived : ∀ req ∈ l.received, req.is_initial = true → req.request_id ≠ id) :
    Cancelled id l := by
  refine ⟨hreceived, h.waiting, ?_⟩
  intro q hq
  rw [h.running] at hq
  cases hq

/-- A message about a request that was aborted: a second abort, or a body that is not accepted. -/
theorem http_marked {message : HttpMessage} {received : List Request} (hid : message.rid = id)
    (hmarked : ∀ q, e.running id = some q → q.abort = true) :
    ∀ q, (recv_from_http message (received, e)).2.running id = some q → q.abort = true := by
  rcases recv_from_http_cases message received e with
    ⟨rid, r, rfl, hr, heq⟩ | ⟨_, req, _, _, heq⟩ | ⟨err, _, heq⟩
  · rw [heq]
    intro q hq
    have hrid : rid = id := hid
    unfold Executor.running Scheduler.get_running_request at hq
    rw [hrid, Dict.get?_insert_self] at hq
    cases hq
    rfl
  · rw [heq]
    exact hmarked
  · rw [heq]
    exact hmarked

theorem check_timeouts_marked (hmarked : ∀ q, e.running id = some q → q.abort = true)
    (hrun : check_timeouts now e = .ok ⟨⟩ e') : ∀ q, e'.running id = some q → q.abort = true := by
  rw [check_timeouts.spec] at hrun
  cases hrun
  intro q hq
  have hq' := ((get_timed_out_requests.spec e.scheduler now).1 id).symm.trans hq
  obtain ⟨r, hr, rfl⟩ := Option.map_eq_some_iff.mp hq'
  split
  · rfl
  · exact hmarked r hr

theorem step_cancelled (hpeer : FirstPeer l.peer) (hstocked : Stocked l.peer)
    (hcancelled : Cancelled id l) (hid : id ∈ aborted) (hok : InTime l aborted event)
    (hstep : Step l event l') : Cancelled id l' := by
  have hreceived : ∀ req ∈ l'.received, req.is_initial = true → req.request_id ≠ id := by
    intro req hreq hinitial
    rcases step_received hstep req hreq with hold | hpacket | ⟨raw_request, rfl, hraw⟩
    · exact hcancelled.received req hold hinitial
    · rw [hpacket] at hinitial
      cases hinitial
    · rintro rfl
      rw [hraw] at hid
      exact hok hid
  by_cases habout : About id l event
  · cases hstep with
    | @http e received message =>
      refine ⟨hreceived, ?_, http_marked habout hcancelled.marked⟩
      rcases recv_from_http_cases message received e with
        ⟨rid, r, _, _, heq⟩ | ⟨_, req, _, _, heq⟩ | ⟨err, _, heq⟩
      · rw [heq]
        exact hcancelled.waiting
      · rw [heq]
        exact hcancelled.waiting
      · rw [heq]
        exact hcancelled.waiting
    | @handle e e' now req rest hrun =>
      have hreq : req.request_id = id := Option.some.inj habout
      cases hkind : req.kind with
      | initial max_new_tokens max_total_length =>
        have hinitial : req.is_initial = true := by
          unfold Request.is_initial
          rw [hkind]
        exact absurd hreq (hcancelled.received req List.mem_cons_self hinitial)
      | intermediate position hidden_states next_token_id =>
        rw [handle_first_packet hkind] at hrun
        cases hq : e.running id with
        | none =>
          rw [handle_token_eq, hreq, hq] at hrun
          cases hrun
          exact ⟨hreceived, hcancelled.waiting, hcancelled.marked⟩
        | some q =>
          exact gone_cancelled (token_ends_marked hpeer hstocked hcancelled.waiting hreq hq
            (hcancelled.marked q hq) hrun).1 hreceived
    | check_timeouts hrun =>
      refine ⟨hreceived, ?_, check_timeouts_marked hcancelled.marked hrun⟩
      rw [check_timeouts.spec] at hrun
      cases hrun
      exact hcancelled.waiting
    | packets hpackets => exact habout.elim
    | send_finished_batch => exact habout.elim
    | admit_requests now => exact habout.elim
    | form_batch now => exact habout.elim
    | prepare hcall hruns => exact habout.elim
  · exact undisturbed_cancelled (step_undisturbed hpeer hcancelled.waiting (hstocked.cached id) hstep
      habout) hcancelled hreceived

/-- The abort itself: the request is marked if it runs. -/
theorem abort_cancels {rid : String} (hok : InTime l aborted (.http (.abort rid)))
    (hstep : Step l (.http (.abort rid)) l') : Cancelled rid l' := by
  obtain ⟨hreceived, hwait⟩ := hok
  cases hstep with
  | @http e received =>
    rcases recv_from_http_cases (.abort rid) received e with
      ⟨_, r, ⟨⟩, _, heq⟩ | ⟨_, _, hno, _⟩ | ⟨err, hnone, heq⟩
    · rw [heq]
      refine ⟨hreceived, hwait, ?_⟩
      intro q hq
      unfold Executor.running Scheduler.get_running_request at hq
      rw [Dict.get?_insert_self] at hq
      cases hq
      rfl
    · cases hno
    · rw [heq]
      refine ⟨hreceived, hwait, ?_⟩
      intro q hq
      have hq' : e.running rid = some q := hq
      rw [hnone rid rfl] at hq'
      cases hq'

theorem run_first_peer {ok : Loop → List String → Event → Prop} {l₀ : Loop}
    (hrun : Run ok l₀ l aborted) (hpeer : FirstPeer l₀.peer) (hstocked : Stocked l₀.peer) :
    FirstPeer l.peer ∧ Stocked l.peer := by
  induction hrun with
  | start => exact ⟨hpeer, hstocked⟩
  | step _ _ hstep ih => exact ⟨step_first_peer ih.1 hstep, step_stocked ih.1 ih.2 hstep⟩

theorem run_cancelled {l₀ : Loop} (hrun : Run InTime l₀ l aborted) (hpeer : FirstPeer l₀.peer)
    (hstocked : Stocked l₀.peer) : ∀ id ∈ aborted, Cancelled id l := by
  induction hrun with
  | start => exact fun id hid => absurd hid List.not_mem_nil
  | @step l l' aborted event hrun hok hstep ih =>
    obtain ⟨hpeer', hstocked'⟩ := run_first_peer hrun hpeer hstocked
    have hkeep : ∀ id ∈ aborted, Cancelled id l' :=
      fun id hid => step_cancelled hpeer' hstocked' (ih id hid) hid hok hstep
    intro id hid
    unfold aborted_after at hid
    split at hid
    · rcases List.mem_cons.mp hid with rfl | hold
      · exact abort_cancels hok hstep
      · exact hkeep id hold
    · exact hkeep id hid

/-! ## Aborts in time -/

/-- No step lets a request run that is not running, not received and not waiting. -/
theorem step_stays_out (hpeer : FirstPeer l.peer) (hstocked : Stocked l.peer)
    (hcancelled : Cancelled id l) (hnone : l.peer.running id = none) (hstep : Step l event l') :
    l'.peer.running id = none := by
  by_cases habout : About id l event
  · cases hstep with
    | @http e received message =>
      rcases recv_from_http_cases message received e with
        ⟨rid, r, rfl, hr, _⟩ | ⟨_, req, _, _, heq⟩ | ⟨err, _, heq⟩
      · have hrid : rid = id := habout
        rw [hrid, hnone] at hr
        cases hr
      · rw [heq]
        exact hnone
      · rw [heq]
        exact hnone
    | @handle e e' now req rest hrun =>
      have hreq : req.request_id = id := Option.some.inj habout
      cases hkind : req.kind with
      | initial max_new_tokens max_total_length =>
        have hinitial : req.is_initial = true := by
          unfold Request.is_initial
          rw [hkind]
        exact absurd hreq (hcancelled.received req List.mem_cons_self hinitial)
      | intermediate position hidden_states next_token_id =>
        rw [handle_first_packet hkind, handle_token_eq, hreq, hnone] at hrun
        cases hrun
        exact hnone
    | check_timeouts hrun =>
      obtain ⟨r, hr, _⟩ := habout
      rw [hnone] at hr
      cases hr
    | packets hpackets => exact habout.elim
    | send_finished_batch => exact habout.elim
    | admit_requests now => exact habout.elim
    | form_batch now => exact habout.elim
    | prepare hcall hruns => exact habout.elim
  · have hrun := (step_undisturbed hpeer hcancelled.waiting (hstocked.cached id) hstep
      habout).running
    rw [hnone] at hrun
    exact Option.map_eq_none_iff.mp hrun

theorem cancelled_takes_effect (hpeer : FirstPeer l.peer) (hstocked : Stocked l.peer)
    (hcancelled : Cancelled id l) : TakesEffect id l := by
  constructor
  · intro hnone
    refine ⟨?_, fun event l' hstep => step_stays_out hpeer hstocked hcancelled hnone hstep⟩
    cases hres : l.peer.resident id with
    | false => rfl
    | true =>
      have hruns := hstocked.no_leftover id hres
      rw [not_runs_iff.mpr hnone] at hruns
      cases hruns
  · intro now l' q packet rest hq hreceived hid hpacket hstep
    obtain ⟨hrun, _⟩ := handle_step hreceived hstep
    cases hkind : packet.kind with
    | initial max_new_tokens max_total_length =>
      unfold Request.is_initial at hpacket
      rw [hkind] at hpacket
      cases hpacket
    | intermediate position hidden_states next_token_id =>
      rw [handle_first_packet hkind] at hrun
      exact token_ends_marked hpeer hstocked hcancelled.waiting hid hq (hcancelled.marked q hq) hrun

theorem aborts_spare_others (l : Loop) : SparesOthers l := by
  intro rid l' hstep id hne
  cases hstep with
  | @http e received =>
    rcases recv_from_http_cases (.abort rid) received e with
      ⟨_, r, ⟨⟩, _, heq⟩ | ⟨_, _, hno, _⟩ | ⟨err, hnone, heq⟩
    · rw [heq]
      exact ⟨Dict.get?_insert_ne _ _ (Ne.symm hne), rfl, rfl, rfl⟩
    · cases hno
    · rw [heq]
      refine ⟨rfl, rfl, rfl, ?_⟩
      unfold notify_http_request_error Executor.sent_for Executor.send_to_ipc
      have hrid : (HttpMessage.abort rid).rid ≠ id := Ne.symm hne
      simp [List.filter_append, IpcMessage.rid, hrid]

/-- In a run in which each abort comes when its request is neither received nor waiting, and no
request comes with an id that was aborted, every abort takes effect and spares the other
requests. -/
theorem aborts_take_effect (l₀ l : Loop) (aborted : List String) (hpeer : FirstPeer l₀.peer)
    (hstocked : Stocked l₀.peer) (hrun : Run InTime l₀ l aborted) :
    (∀ id ∈ aborted, TakesEffect id l) ∧ SparesOthers l := by
  obtain ⟨hpeer', hstocked'⟩ := run_first_peer hrun hpeer hstocked
  refine ⟨?_, aborts_spare_others l⟩
  intro id hid
  exact cancelled_takes_effect hpeer' hstocked' (run_cancelled hrun hpeer hstocked id hid)

/-- A first peer without requests. -/
def idle_peer : Executor :=
  { first_peer with scheduler := { two_waiting 2 with wait_queue := [] } }

theorem idle_peer_first : FirstPeer idle_peer := by
  refine ⟨rfl, rfl, ?_, ?_, ?_⟩
  · simp [idle_peer, two_waiting, Scheduler.init]
  · intro req hreq
    exact absurd hreq List.not_mem_nil
  · intro id req hreq
    cases hreq

theorem two_waiting_stocked : Stocked { first_peer with scheduler := two_waiting 2 } := by
  refine ⟨⟨small_cache 2, rfl, CacheManager.init_tidy (List.cons_ne_nil _ _)⟩, ?_, ?_⟩
  · intro id hid
    cases hid
  · intro id hid
    cases hid

theorem idle_peer_stocked : Stocked idle_peer := stocked_of_same two_waiting_stocked rfl (fun _ => rfl)

theorem running_peer_stocked : Stocked (peer_with_eos (.one 2)) :=
  stocked_of_same (admit_requests_stocked 0 two_waiting_stocked) rfl (fun _ => rfl)

/-- The abort of a running request. -/
theorem running_abort_takes_effect :
    (∀ id ∈ ["a"], TakesEffect id ⟨(recv_from_http (.abort "a") ([], peer_with_eos (.one 2))).2,
      (recv_from_http (.abort "a") ([], peer_with_eos (.one 2))).1⟩) ∧
    SparesOthers ⟨(recv_from_http (.abort "a") ([], peer_with_eos (.one 2))).2,
      (recv_from_http (.abort "a") ([], peer_with_eos (.one 2))).1⟩ :=
  aborts_take_effect ⟨peer_with_eos (.one 2), []⟩ _ ["a"] (peer_with_eos_first (.one 2))
    running_peer_stocked
    (.step .start ⟨by simp, by show "a" ∉ first_peer.waiting_ids; decide +kernel⟩
      (.http (.abort "a")))

/-- The body of a request "a" with one token. -/
def short_body : RawRequest := { rid := "a", new_id := "", prompt := .ok [7] }

/-- The request of it. -/
def short_request : Request where
  request_id := "a"
  prompt_len := 1
  input_ids := [7]
  kind := .initial 2047 2048

/-- The abort of a request that is received and not handled yet does nothing: the request waits
and is admitted. -/
theorem received_request_is_admitted :
    ¬ ∀ (l₀ l : Loop) (aborted : List String), FirstPeer l₀.peer → Stocked l₀.peer →
      Run (fun _ _ _ => True) l₀ l aborted →
      (∀ id ∈ aborted, TakesEffect id l) ∧ SparesOthers l := by
  intro hall
  have hreceived : Run (fun _ _ _ => True) ⟨idle_peer, []⟩ ⟨idle_peer, [short_request]⟩ [] :=
    .step .start trivial (.http (.request short_body))
  have haborted : Run (fun _ _ _ => True) ⟨idle_peer, []⟩ ⟨_, [short_request]⟩ ["a"] :=
    .step hreceived trivial (.http (.abort "a"))
  have hwaits : Run (fun _ _ _ => True) ⟨idle_peer, []⟩ _ ["a"] :=
    .step haborted trivial (Step.handle (handle_first_initial rfl : handle_first 0 _ _ = _))
  have heffect := (hall _ _ _ idle_peer_first idle_peer_stocked hwaits).1 "a" List.mem_cons_self
  have hadmitted := (heffect.stays_out rfl).2 _ _ (.admit_requests 0)
  revert hadmitted
  decide +kernel

end parallax.server.executor
