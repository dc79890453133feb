-- A batch of prefills that raises at the first of several peers (base_executor.py,
-- the handler in `run_loop`): no packet has left yet, its requests are released and
-- evicted, and all others are left alone.
import InferenceMesh.Server.BatchEffect

open ordered_dict python state_exn
open parallax.server.cache_manager parallax.server.request parallax.server.scheduler
open parallax.p2p.message_util

namespace parallax.server.mlx_executor

open CacheManager

variable {I : CacheManager → Prop} {peer : Peer} {req : Request} {reqs batch : List Request}
  {m : CacheManager} {id : String}

/-! ## The preparation, on either exit -/

theorem prefill_row_either
    (h : ∀ m, I m → I (m.allocate_request req.request_id req.total_length).2) :
    Keeps I (prefill_row peer req) := by
  unfold prefill_row
  refine Keeps.cond (fun _ => Keeps.bind (Keeps.throws _) (fun _ => ?_)) (fun _ => ?_) <;>
  · refine Keeps.bind (Keeps.modifyGets h) (fun success => Keeps.cond (fun _ => ?_) (fun _ => ?_))
    · exact Keeps.bind (Keeps.throws _) (fun _ => Keeps.bind Keeps.gets (fun _ => Keeps.pure _))
    · exact Keeps.bind Keeps.gets (fun _ => Keeps.pure _)

theorem gather_either {make_row : Request → CacheM Row} (h : ∀ req ∈ reqs, Keeps I (make_row req)) :
    Keeps I (gather make_row reqs) := by
  induction reqs with
  | nil => exact Keeps.pure _
  | cons req rest ih =>
    obtain ⟨hreq, hrest⟩ := List.forall_mem_cons.mp h
    exact Keeps.bind hreq (fun _ => Keeps.bind (ih hrest) (fun _ => Keeps.pure _))

theorem batch_rows_either (rows : List Row) : Keeps I (batch_rows rows) := by
  induction rows with
  | nil => exact Keeps.pure _
  | cons row rest ih =>
    unfold batch_rows
    rcases row.rows with _ | r
    · exact Keeps.throws _
    · exact Keeps.bind ih (fun _ => Keeps.pure _)

theorem prepare_prefill_either (h : ∀ req ∈ reqs, Keeps I (prefill_row peer req)) :
    Keeps I (prepare_prefill_batch peer reqs) := by
  unfold prepare_prefill_batch
  refine Keeps.cond (fun _ => Keeps.pure _) (fun _ => ?_)
  refine Keeps.bind (gather_either h) (fun rows => ?_)
  refine Keeps.bind (batch_rows_either rows) (fun _ => Keeps.bind Keeps.gets (fun m => ?_))
  split
  · exact Keeps.throws _
  · exact Keeps.pure _

theorem decode_row_either (h : ∀ m m', I m → m.append_slot req.request_id = .ok (true, m') → I m') :
    Keeps I (decode_row peer req) := by
  unfold decode_row
  refine Keeps.cond (fun _ => Keeps.bind (Keeps.throws _) (fun _ => ?_)) (fun _ => ?_) <;>
    refine Keeps.cond (fun _ => Keeps.bind (Keeps.throws _) (fun _ => ?_)) (fun _ => ?_)
  -- What follows the two checks is the same in all four cases.
  all_goals
    refine Triple.bind (R := fun m s => m = s ∧ I s) (Triple.gets (fun s hs => ⟨rfl, hs⟩)) ?_
    intro m
    rcases happ : m.append_slot req.request_id with e | ⟨_ | _, m'⟩
    · exact Triple.throws (fun s hs => hs.2)
    · exact Triple.throws (fun s hs => hs.2)
    · refine Triple.bind (R := fun _ s => I s) (Triple.sets ?_) (fun _ => Triple.pure (fun _ hs => hs))
      rintro s ⟨rfl, hs⟩
      exact h _ _ hs happ

theorem prepare_decode_either (h : ∀ req ∈ reqs, Keeps I (decode_row peer req)) :
    Keeps I (prepare_decode_batch peer reqs) := by
  unfold prepare_decode_batch
  refine Keeps.cond (fun _ => Keeps.pure _) (fun _ => ?_)
  refine Keeps.bind (gather_either h) (fun rows => ?_)
  exact Keeps.bind (batch_rows_either rows) (fun _ => Keeps.bind Keeps.gets (fun _ => Keeps.pure _))

end parallax.server.mlx_executor

namespace parallax.server.executor

open mlx_executor

variable {I : CacheManager → Prop} {peer : Peer} {batch : List Request} {c : Setup}
  {now k i P d : Nat} {tokens : List Int} {e e' : Executor} {id : String} {req : Request}
  {b b' : Batch} {passes : Passes} {err : Exn}

/-- A batch without decodes. -/
theorem no_decodes (hprefills : ∀ req ∈ batch, req.is_prefill = true) :
    batch.filter Request.is_decoding = [] := by
  rw [List.filter_eq_nil_iff]
  intro req hreq hdecodes
  have hprefill := hprefills req hreq
  unfold Request.is_prefill at hprefill
  unfold Request.is_decoding at hdecodes
  rw [of_decide_eq_true hprefill] at hdecodes
  cases hdecodes

theorem prefills_eq (hprefills : ∀ req ∈ batch, req.is_prefill = true) :
    batch.filter Request.is_prefill = batch := List.filter_eq_self.mpr hprefills

theorem prepare_batch_either (hprefills : ∀ req ∈ batch, req.is_prefill = true)
    (h : ∀ req ∈ batch, Keeps I (prefill_row peer req)) :
    Keeps I (prepare_batch_inputs peer batch) := by
  unfold prepare_batch_inputs
  rw [decodes_eq, no_decodes hprefills, prefills_eq hprefills]
  exact Keeps.bind (prepare_prefill_either h)
    (fun _ => Keeps.bind (Keeps.pure none) (fun _ => Keeps.pure _))

/-! ## What a failed batch leaves -/

/-- The cache is in order, and what it keeps for other requests is as it was. -/
structure Failed (now : Nat) (e : Executor) (b : Batch) : Prop where
  sent : b.sent = []
  cache : ∃ m m', (formed now e).cache = some m ∧ b.peer = (formed now e).with_cache m' ∧
    CacheManager.Tidy m' ∧ ∀ id, id ∉ (batch_of now e).map Request.request_id →
      CacheManager.Leaves id m m'

theorem process_part_raises {forward : Except Exn ForwardPass} {inputs : Option BatchInputs}
    (hlast : b.peer.is_last_peer = false)
    (h : process_part c now forward inputs b = .error err b') :
    b'.peer = b.peer ∧ b'.sent = b.sent := by
  unfold process_part at h
  split at h
  · cases h
  · split at h
    · cases h
      exact ⟨rfl, rfl⟩
    · rename_i batch_inputs _ pass
      rw [modify_bind, get_bind] at h
      cases hnext : prepare_next_batch_requests b.peer batch_inputs.requests pass with
      | error err =>
        rw [hnext] at h
        cases h
        exact ⟨rfl, rfl⟩
      | ok next_batch =>
        rw [hnext] at h
        dsimp only at h
        unfold dispatch at h
        rw [get_bind] at h
        dsimp only at h
        rw [hlast, Bool.false_and, if_neg Bool.false_ne_true] at h
        cases hmessage : request_to_proto c.wire c.device next_batch with
        | error err =>
          rw [hmessage] at h
          cases h
          exact ⟨rfl, rfl⟩
        | ok message =>
          rw [hmessage] at h
          cases h

theorem on_cache_error {α : Type} {calls : CacheM α} {m : CacheManager} (hm : b.peer.cache = some m)
    (h : on_cache calls b = .error err b') :
    ∃ m', calls m = .error err m' ∧ b' = { b with peer := b.peer.with_cache m' } := by
  unfold Executor.cache at hm
  unfold on_cache at h
  rw [get_bind, hm] at h
  dsimp only at h
  cases hrun : calls m with
  | ok a m' =>
    rw [hrun] at h
    cases h
  | error err' m' =>
    rw [hrun] at h
    cases h
    exact ⟨m', rfl, rfl⟩

theorem process_batch_failed (hpeer : PeerAt k 0 e) (hk : 2 ≤ k)
    (hprefills : ∀ req ∈ batch_of now e, req.is_prefill = true)
    (h : process_batch c now passes e = .error err b) : Failed now e b := by
  have hformed := formed_keeps hpeer now
  obtain ⟨m, hm, htidy⟩ := hformed.cache
  have hkeeps : ∀ m', stateOf (prepare_batch_inputs (c.peer (formed now e)) (batch_of now e) m) = m' →
      CacheManager.Tidy m' ∧ ∀ id, id ∉ (batch_of now e).map Request.request_id →
        CacheManager.Leaves id m m' := by
    rintro m' rfl
    refine ⟨(prepare_batch_either hprefills fun req _ => ?_).state htidy, fun id hid =>
      (prepare_batch_either hprefills fun req hreq => ?_).state (.refl id m)⟩
    · exact prefill_row_either (fun _ hm => hm.allocate_request _ _)
    · exact prefill_row_either (fun m' hl => hl.trans (m'.allocate_request_leaves _
        (fun heq => hid (heq ▸ List.mem_map_of_mem hreq))))
  unfold process_batch process_requests at h
  rw [get_bind] at h
  rcases bind_error h with hcache | ⟨inputs, b₀, hcache, h⟩
  · obtain ⟨m', hrun, rfl⟩ := on_cache_error hm hcache
    exact ⟨rfl, m, m', hm, rfl, hkeeps m' (by rw [hrun]; rfl)⟩
  · obtain ⟨m₀, m', hm₀, hrun, rfl⟩ := on_cache_ok hcache
    have hsame : m₀ = m := Option.some.inj (hm₀.symm.trans hm)
    subst hsame
    obtain ⟨m₁, _, hdecode⟩ := prepare_batch_inputs_parts hrun
    have hnone : inputs.2 = none := by
      rw [no_decodes hprefills] at hdecode
      exact (EStateM.Result.ok.inj hdecode).1.symm
    have hlast : ((formed now e).with_cache m').is_last_peer = false := by
      show e.is_last_peer = false
      rw [hpeer.last]
      exact decide_eq_false (by omega)
    rcases bind_error h with hprefill | ⟨_, b₁, _, hdecode⟩
    · obtain ⟨hsame, hsent⟩ := process_part_raises (by exact hlast) hprefill
      exact ⟨hsent, m₀, m', hm, hsame, hkeeps m' (by rw [hrun]; rfl)⟩
    · rw [hnone] at hdecode
      cases hdecode

/-! ## Its requests are given up -/

theorem release_and_evict_keeps (hpeer : PeerAt k i e) (rid : String) :
    PeerAt k i (release_and_evict_request rid e) := by
  have hreleased := release_request_keeps hpeer rid
  unfold release_and_evict_request
  dsimp only
  cases hs : (e.release_request rid).scheduler.evict_request rid with
  | error err => exact hreleased
  | ok s => exact evict_keeps hreleased hs

theorem release_and_evict_spares (hpeer : PeerAt k i e) {rid : String} (hne : rid ≠ id) :
    Spares id e (release_and_evict_request rid e) := by
  have hreleased := release_request_spares hpeer (Ne.symm hne)
  unfold release_and_evict_request
  dsimp only
  cases hs : (e.release_request rid).scheduler.evict_request rid with
  | error err => exact hreleased
  | ok s => exact hreleased.trans (evict_spares hne hs)

/-- What only waits for nothing is gone. -/
theorem release_and_evict_absent (hpeer : PeerAt k i e) (hwaiting : e.waiting_for id = []) :
    Absent id (release_and_evict_request id e) := by
  obtain ⟨m, hm, htidy⟩ := hpeer.cache
  have hvacant := CacheManager.release_request_vacant htidy id
  unfold release_and_evict_request
  dsimp only
  rw [release_request_eq hm]
  unfold Scheduler.evict_request
  by_cases hhas : (e.with_cache (m.release_request id)).scheduler.running_requests.has id = true
  · rw [if_pos hhas]
    refine ⟨hwaiting, ?_, m.release_request id, rfl, hvacant⟩
    show ((e.scheduler.running_requests.erase id).get? id) = none
    rw [Dict.get?_erase, if_pos rfl]
  · rw [if_neg hhas]
    refine ⟨hwaiting, ?_, m.release_request id, rfl, hvacant⟩
    exact Dict.has_eq_false.mp (by simpa using hhas)

theorem release_and_evict_silent (id rid : String) (e : Executor) :
    (release_and_evict_request rid e).finished_for id = e.finished_for id ∧
      (release_and_evict_request rid e).committed id = e.committed id := by
  unfold release_and_evict_request
  dsimp only
  cases (e.release_request rid).scheduler.evict_request rid with
  | error err => exact ⟨rfl, rfl⟩
  | ok s => exact ⟨rfl, rfl⟩

theorem give_up_keeps (hpeer : PeerAt k i e) (batch : List Request) :
    PeerAt k i (give_up batch e) := by
  induction batch generalizing e with
  | nil => exact hpeer
  | cons req rest ih => exact ih (release_and_evict_keeps hpeer req.request_id)

theorem give_up_spares (hpeer : PeerAt k i e) (hid : id ∉ batch.map Request.request_id) :
    Spares id e (give_up batch e) := by
  induction batch generalizing e with
  | nil => exact .refl id e
  | cons req rest ih =>
    rw [List.map_cons, List.mem_cons, not_or] at hid
    exact (release_and_evict_spares hpeer (Ne.symm hid.1)).trans
      (ih (release_and_evict_keeps hpeer req.request_id) hid.2)

theorem give_up_silent (id : String) (batch : List Request) (e : Executor) :
    (give_up batch e).finished_for id = e.finished_for id ∧
      (give_up batch e).committed id = e.committed id := by
  induction batch generalizing e with
  | nil => exact ⟨rfl, rfl⟩
  | cons req rest ih =>
    obtain ⟨hfinished, hcommitted⟩ := release_and_evict_silent id req.request_id e
    obtain ⟨hfinished', hcommitted'⟩ := ih (release_and_evict_request req.request_id e)
    exact ⟨hfinished'.trans hfinished, hcommitted'.trans hcommitted⟩

/-- A request of the batch is gone, whatever comes behind it. -/
theorem give_up_absent (hpeer : PeerAt k i e) (hid : id ∈ batch.map Request.request_id)
    (hwaiting : e.waiting_for id = []) : Absent id (give_up batch e) := by
  induction batch generalizing e with
  | nil => cases hid
  | cons req rest ih =>
    have hkeeps := release_and_evict_keeps hpeer req.request_id
    by_cases hrest : id ∈ rest.map Request.request_id
    · refine ih hkeeps hrest ?_
      show (release_and_evict_request req.request_id e).waiting_for id = []
      by_cases hsame : req.request_id = id
      · rw [hsame]
        exact (release_and_evict_absent hpeer hwaiting).waiting
      · exact (release_and_evict_spares hpeer hsame).waiting.trans hwaiting
    · have hsame : req.request_id = id := by
        rw [List.map_cons, List.mem_cons, or_iff_left hrest] at hid
        exact hid.symm
      have habsent : Absent id (release_and_evict_request req.request_id e) := by
        rw [hsame]
        exact release_and_evict_absent hpeer hwaiting
      exact habsent.spared (give_up_spares hkeeps hrest)

end parallax.server.executor
