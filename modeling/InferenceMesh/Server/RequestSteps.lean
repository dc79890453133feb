-- The steps of one request at one peer of a pipeline: it is absent, waits for its
-- prefill, is ready for a step, or rests until its next packet comes. Each
-- event of the peer takes it from one of these to another.
import InferenceMesh.Server.Seats

open ordered_dict python state_exn
open parallax.server.cache_manager parallax.server.request parallax.server.scheduler

namespace parallax.server.executor

variable {now k i d : Nat} {P tokens : List Int} {input : Tensor} {e e' : Executor} {id : String}
  {r r' req : Request}

/-! ## What a step needs -/

/-- The request of the first peer, with the prompt `P` and these tokens so far. -/
structure Opened (P tokens : List Int) (r : Request) : Prop where
  initial : r.is_initial = true
  prompt : r.prompt_len = P.length
  ids : r.input_ids = P
  some_ids : 0 < P.length
  output : r.output_ids = tokens

/-- The request has what peer `i` needs for step `d`, where step 0 is the prefill. Behind the first
peer these are the hidden states `input`. -/
structure Due (i : Nat) (P tokens : List Int) (d : Nat) (input : Tensor) (r : Request) : Prop where
  status : r.status = if d = 0 then .PREFILLING else .DECODING
  length : r.total_length = P.length + d
  own : i = 0 → Opened P tokens r
  packet : i ≠ 0 → r.is_initial = false ∧ 0 < P.length ∧ r.hidden_states = some input ∧ input ≠ []

theorem Opened.calm (h : Opened P tokens r) (hcalm : calm r' = calm r) : Opened P tokens r' := by
  have h' : Opened P tokens (executor.calm r') := by
    rw [hcalm]
    exact ⟨h.initial, h.prompt, h.ids, h.some_ids, h.output⟩
  exact ⟨h'.initial, h'.prompt, h'.ids, h'.some_ids, h'.output⟩

theorem Due.calm (h : Due i P tokens d input r) (hcalm : calm r' = calm r) :
    Due i P tokens d input r' := by
  have h' : Due i P tokens d input (executor.calm r') := by
    rw [hcalm]
    exact ⟨h.status, h.length, fun hi => (h.own hi).calm rfl, h.packet⟩
  exact ⟨h'.status, h'.length, fun hi => (h'.own hi).calm rfl, h'.packet⟩

theorem calm_ready (hcalm : calm r' = calm r) :
    r'.ready_for_next_step = r.ready_for_next_step := by
  have h : (calm r').ready_for_next_step = (calm r).ready_for_next_step := by rw [hcalm]
  exact h

theorem Opened.total_length (h : Opened P tokens r) : r.total_length = P.length + tokens.length := by
  have hinitial := h.initial
  unfold Request.is_initial at hinitial
  unfold Request.total_length Request.output_length
  rw [← h.prompt, ← h.output]
  split at hinitial
  · rfl
  · cases hinitial

theorem Due.is_prefill (h : Due i P tokens d input r) : r.is_prefill = decide (d = 0) := by
  unfold Request.is_prefill
  rw [h.status]
  split <;> simp_all

theorem Due.is_decoding (h : Due i P tokens d input r) : r.is_decoding = decide (d ≠ 0) := by
  unfold Request.is_decoding
  rw [h.status]
  split <;> simp_all

theorem Due.is_finished (h : Due i P tokens d input r) : r.is_finished = false := by
  unfold Request.is_finished
  rw [h.status]
  split <;> decide

/-! ## Where the request stands -/

structure Absent (id : String) (e : Executor) : Prop where
  waiting : e.waiting_for id = []
  running : e.running id = none
  cache : ∃ m, e.cache = some m ∧ CacheManager.Vacant id m

/-- It waits for its prefill. -/
structure Waits (i : Nat) (id : String) (P tokens : List Int) (input : Tensor) (e : Executor) :
    Prop where
  waiting : ∃ r, e.waiting_for id = [r] ∧ r.ready_for_next_step = true ∧ Due i P tokens 0 input r
  running : e.running id = none
  cache : ∃ m, e.cache = some m ∧ CacheManager.Vacant id m

/-- The memory of a request before step `d`. -/
def Provided (id : String) (P : List Int) (d : Nat) (m : CacheManager) : Prop :=
  if d = 0 then CacheManager.Booked id P.length m else CacheManager.Kept id (P.length + d - 1) m

/-- It is ready for step `d`. -/
structure Ready (i : Nat) (id : String) (P tokens : List Int) (d : Nat) (input : Tensor)
    (e : Executor) : Prop where
  waiting : e.waiting_for id = []
  running : ∃ r, e.running id = some r ∧ r.ready_for_next_step = true ∧ Due i P tokens d input r
  cache : ∃ m, e.cache = some m ∧ Provided id P d m

/-- It has made `d` steps and waits for the packet of the next one. -/
structure Rests (i : Nat) (id : String) (P tokens : List Int) (d : Nat) (e : Executor) :
    Prop where
  waiting : e.waiting_for id = []
  running : ∃ r, e.running id = some r ∧ r.ready_for_next_step = false ∧
    (i = 0 → Opened P tokens r)
  cache : ∃ m, e.cache = some m ∧ CacheManager.Kept id (P.length + d - 1) m

/-- What a step leaves alone. -/
theorem Spares.running_some (h : Spares id e e') (hr : e.running id = some r) :
    ∃ r', e'.running id = some r' ∧ calm r' = calm r := by
  have hrun := h.running
  rw [hr, Option.map_some] at hrun
  obtain ⟨r', hr', hcalm⟩ := Option.map_eq_some_iff.mp hrun
  exact ⟨r', hr', hcalm⟩

theorem Spares.running_none (h : Spares id e e') (hr : e.running id = none) :
    e'.running id = none := by
  have hrun := h.running
  rw [hr, Option.map_none] at hrun
  exact Option.map_eq_none_iff.mp hrun

theorem Absent.spared (h : Absent id e) (hs : Spares id e e') : Absent id e' := by
  obtain ⟨m, hm, hvacant⟩ := h.cache
  obtain ⟨m', hm', hl⟩ := hs.cache m hm
  exact ⟨hs.waiting.trans h.waiting, hs.running_none h.running, m', hm', hvacant.leaves hl⟩

theorem Waits.spared (h : Waits i id P tokens input e) (hs : Spares id e e') :
    Waits i id P tokens input e' := by
  obtain ⟨r, hr, hready⟩ := h.waiting
  obtain ⟨m, hm, hvacant⟩ := h.cache
  obtain ⟨m', hm', hl⟩ := hs.cache m hm
  exact ⟨⟨r, hs.waiting.trans hr, hready⟩, hs.running_none h.running, m', hm', hvacant.leaves hl⟩

theorem Provided.leaves {m m' : CacheManager} (h : Provided id P d m)
    (hl : CacheManager.Leaves id m m') : Provided id P d m' := by
  unfold Provided at *
  split
  · rename_i hd
    rw [if_pos hd] at h
    exact h.leaves hl
  · rename_i hd
    rw [if_neg hd] at h
    exact h.leaves hl

theorem Ready.spared (h : Ready i id P tokens d input e) (hs : Spares id e e') :
    Ready i id P tokens d input e' := by
  obtain ⟨r, hr, hready, hdue⟩ := h.running
  obtain ⟨r', hr', hcalm⟩ := hs.running_some hr
  obtain ⟨m, hm, hprovided⟩ := h.cache
  obtain ⟨m', hm', hl⟩ := hs.cache m hm
  exact ⟨hs.waiting.trans h.waiting, ⟨r', hr', (calm_ready hcalm).trans hready, hdue.calm hcalm⟩,
    m', hm', hprovided.leaves hl⟩

theorem Rests.spared (h : Rests i id P tokens d e) (hs : Spares id e e') :
    Rests i id P tokens d e' := by
  obtain ⟨r, hr, hready, hopen⟩ := h.running
  obtain ⟨r', hr', hcalm⟩ := hs.running_some hr
  obtain ⟨m, hm, hkept⟩ := h.cache
  obtain ⟨m', hm', hl⟩ := hs.cache m hm
  exact ⟨hs.waiting.trans h.waiting,
    ⟨r', hr', (calm_ready hcalm).trans hready, fun hi => (hopen hi).calm hcalm⟩,
    m', hm', hkept.leaves hl⟩

/-! ## Packets -/

/-- A prefill enters the wait queue. -/
theorem Absent.enque (h : Absent id e) (hid : req.request_id = id) (hdue : Due i P tokens 0 input req)
    {s : Scheduler} (hrun : e.scheduler.enque_request now req = .ok s) :
    Waits i id P tokens input (e.with_scheduler s) := by
  rw [Scheduler.enque_prefill now hdue.is_finished (by rw [hdue.is_decoding]; rfl)] at hrun
  cases hrun
  refine ⟨⟨{ req with ready_for_next_step := true, last_updated_time := some now }, ?_, rfl,
    ⟨hdue.status, hdue.length, fun hi => ?_, hdue.packet⟩⟩, h.running, h.cache⟩
  · have hold : e.scheduler.wait_queue.filter (fun r => decide (r.request_id = id)) = [] := h.waiting
    unfold Executor.waiting_for Executor.with_scheduler
    rw [List.filter_append, hold]
    simp [hid]
  · obtain ⟨h1, h2, h3, h4, h5⟩ := hdue.own hi
    exact ⟨h1, h2, h3, h4, h5⟩

/-- A decode makes its request ready. -/
theorem Rests.enque {old : List Int} (h : Rests i id P old d e) (hd : d ≠ 0)
    (hid : req.request_id = id) (hdue : Due i P tokens d input req) {s : Scheduler}
    (hrun : e.scheduler.enque_request now req = .ok s) :
    Ready i id P tokens d input (e.with_scheduler s) := by
  obtain ⟨r, hr, _⟩ := h.running
  have hhas : e.scheduler.running_requests.has req.request_id = true := by
    rw [hid]
    exact Dict.has_iff.mpr ⟨r, hr⟩
  rw [Scheduler.enque_decode now hdue.is_finished (by rw [hdue.is_decoding]; simpa using hd) hhas]
    at hrun
  cases hrun
  obtain ⟨m, hm, hkept⟩ := h.cache
  refine ⟨h.waiting, ⟨{ req with ready_for_next_step := true, last_updated_time := some now }, ?_,
    rfl, ⟨hdue.status, hdue.length, fun hi => ?_, hdue.packet⟩⟩, m, hm, ?_⟩
  · unfold Executor.running Scheduler.get_running_request Executor.with_scheduler
    dsimp only
    rw [Dict.get?_moveToEnd, hid, Dict.get?_insert_self]
  · obtain ⟨h1, h2, h3, h4, h5⟩ := hdue.own hi
    exact ⟨h1, h2, h3, h4, h5⟩
  · unfold Provided
    rw [if_neg hd]
    exact hkept

/-- The end of a request takes all that the peer has of it. -/
theorem Rests.finish {k : Nat} (hpeer : PeerAt k i e) (h : Rests i id P tokens d e)
    (hid : req.request_id = id) (hrun : finish_packet req e = .ok ⟨⟩ e') : Absent id e' := by
  obtain ⟨s, hs, rfl⟩ := finish_packet_ok hrun
  obtain ⟨m, hm, htidy⟩ := hpeer.cache
  rw [release_request_eq hm] at hs ⊢
  unfold Scheduler.evict_request at hs
  split at hs
  · cases hs
    have hgone : Absent id ((e.with_cache (m.release_request req.request_id)).with_scheduler
        { (e.with_cache (m.release_request req.request_id)).scheduler with
          running_requests := (e.with_cache (m.release_request req.request_id)).scheduler
            |>.running_requests.erase req.request_id }) := by
      refine ⟨h.waiting, ?_, m.release_request req.request_id, rfl, ?_⟩
      · unfold Executor.running Scheduler.get_running_request Executor.with_scheduler
        dsimp only
        rw [hid, Dict.get?_erase, if_pos rfl]
      · rw [hid]
        exact CacheManager.release_request_vacant htidy id
    unfold Executor.pass_on
    split
    · exact hgone
    · exact ⟨hgone.waiting, hgone.running, hgone.cache⟩
  · cases hs

/-- Nothing is there to be finished. -/
theorem Absent.finish_raises (h : Absent id e) (hid : req.request_id = id) :
    finish_packet req e ≠ .ok ⟨⟩ e' := by
  intro hrun
  obtain ⟨s, hs, _⟩ := finish_packet_ok hrun
  unfold Scheduler.evict_request at hs
  have hno : (e.release_request req.request_id).scheduler.running_requests.has req.request_id =
      false := by
    rw [hid]
    exact Dict.has_eq_false.mpr h.running
  rw [hno] at hs
  cases hs

/-! ## Tokens -/

theorem with_token_opened (h : Opened P tokens r) (hopen : r.is_finished = false) (token : Int)
    (routing_table : List String) :
    Opened P (tokens ++ [token]) (with_token r token routing_table) := by
  unfold with_token Request.commit_new_token
  rw [hopen, if_neg Bool.false_ne_true]
  exact ⟨h.initial, h.prompt, h.ids, h.some_ids, congrArg (· ++ [token]) h.output⟩

/-- What the first peer has of a request once a token came back for it. -/
structure Committed (id : String) (P tokens : List Int) (token : Int) (req : Request)
    (e e' : Executor) : Prop where
  committed : e'.committed id = e.committed id ++ [token]
  goes_on_or_ends : Ready 0 id P (tokens ++ [token]) (tokens.length + 1) [] e' ∧
      e'.finished_for id = e.finished_for id ∨
    Absent id e' ∧ e'.finished_for id =
      e.finished_for id ++ if e.is_last_peer then [] else [req]

theorem committed_send {message : IpcMessage} {token : Int}
    (h : message.token_for id = some token) :
    (e.send_to_ipc message).committed id = e.committed id ++ [token] := by
  unfold Executor.committed Executor.send_to_ipc
  rw [List.filterMap_append]
  simp [h]

theorem finished_pass_on (hid : req.request_id = id) (e : Executor) :
    (e.pass_on req).finished_for id = e.finished_for id ++ if e.is_last_peer then [] else [req] := by
  unfold Executor.pass_on
  split
  · exact (List.append_nil _).symm
  · unfold Executor.finished_for Executor.append_finished
    rw [List.filter_append]
    simp [hid]

/-- The request is at rest when its token comes back: it goes on, or it ends. -/
theorem Rests.commit {k : Nat} (hpeer : PeerAt k 0 e)
    (h : Rests 0 id P tokens (tokens.length + 1) e) (hid : req.request_id = id) {position : Nat}
    {hidden_states : Option Tensor} {token : Int}
    (hkind : req.kind = .intermediate position hidden_states (some token))
    (hrun : handle_first now req e = .ok ⟨⟩ e') : Committed id P tokens token req e e' := by
  obtain ⟨r, hr, _, hopened⟩ := h.running
  obtain ⟨m, hm, hkept⟩ := h.cache
  obtain ⟨m₀, hm₀, htidy⟩ := hpeer.cache
  rw [hm] at hm₀
  cases hm₀
  obtain ⟨hrid, hopen⟩ := hpeer.running.running _ _ hr
  have hhas : e.has_request req.request_id = true := by
    unfold Executor.cache at hm
    unfold Executor.has_request
    rw [hm, hid]
    exact hkept.has_request
  have hr' : e.running req.request_id = some r := by rw [hid]; exact hr
  rw [handle_first_packet hkind, handle_token_eq, hr'] at hrun
  dsimp only at hrun
  rw [if_pos hhas, commit_token.spec hpeer.first_peer hr' rfl] at hrun
  cases hrun
  have hopened' := with_token_opened (hopened rfl) hopen token req.routing_table
  obtain ⟨hdecodes, _⟩ := with_token_decodes hopen token req.routing_table
  have htold : ∀ r, (token_message req r token).token_for id = some token := fun r => if_pos hid
  have hwtid : (with_token r token req.routing_table).request_id = id := by
    rw [with_token_id, hrid]
  refine ⟨?_, ?_⟩
  · split
    · rw [committed_send (htold _)]
      unfold Executor.pass_on
      split <;> rfl
    · rw [committed_send (htold _)]
      rfl
  · split
    · right
      have hgone : Absent id ((e.put_running (with_token r token req.routing_table)).ends_here
          req.request_id) := by
        refine ⟨h.waiting, ?_, m.release_request req.request_id, ?_, ?_⟩
        · show ((e.scheduler.running_requests.insert _ _).erase req.request_id).get? id = none
          rw [hid, Dict.get?_erase, if_pos rfl]
        · unfold Executor.cache at hm
          show Option.map _ e.scheduler.cache_manager = _
          rw [hm]
          rfl
        · rw [hid]
          exact CacheManager.release_request_vacant htidy id
      refine ⟨?_, finished_pass_on hid _⟩
      unfold Executor.pass_on
      split
      · exact ⟨hgone.waiting, hgone.running, hgone.cache⟩
      · exact ⟨hgone.waiting, hgone.running, hgone.cache⟩
    · left
      refine ⟨⟨h.waiting, ⟨{ with_token r token req.routing_table with
        ready_for_next_step := true, last_updated_time := some now }, ?_, rfl, ?_⟩, m, hm, ?_⟩, rfl⟩
      · show (((e.scheduler.running_requests.insert _ _).insert _ _).moveToEnd _).get? id = _
        rw [Dict.get?_moveToEnd, Dict.get?_insert, if_pos hwtid]
      · refine ⟨?_, ?_, fun _ => ?_, fun hne => absurd rfl hne⟩
        · rw [if_neg (Nat.succ_ne_zero tokens.length)]
          unfold Request.is_decoding at hdecodes
          exact of_decide_eq_true hdecodes
        · have hlength := hopened'.total_length
          rw [List.length_append, List.length_singleton] at hlength
          exact hlength
        · obtain ⟨h1, h2, h3, h4, h5⟩ := hopened'
          exact ⟨h1, h2, h3, h4, h5⟩
      · unfold Provided
        rw [if_neg (Nat.succ_ne_zero tokens.length)]
        exact hkept

end parallax.server.executor
