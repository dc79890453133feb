-- The timeout block of the run loop (base_executor.py, `run_loop`): it asks the
-- scheduler for the requests that exceeded their timeout and goes through them.
-- The first turn raises at the text of its warning, and the handler of the
-- block ends the loop there.
import InferenceMesh.Server.Downstream

open ordered_dict python state_exn
open parallax.server.cache_manager parallax.server.request parallax.server.scheduler

namespace parallax.server.executor

/-! ## The query -/

/-- The request has been running longer than its timeout. -/
def exceeded (s : Scheduler) (now : Nat) (req : Request) : Bool :=
  req.last_updated_time.any (fun t => decide (now - t > s.request_timeout_s))

/-- The query marks the requests that it returns. -/
theorem get_timed_out_requests.spec (s : Scheduler) (now : Nat) :
    (∀ id, (s.get_timed_out_requests now).2.get_running_request id =
      (s.get_running_request id).map
        (fun req => if exceeded s now req then { req with abort := true } else req)) ∧
    ∀ req, req ∈ (s.get_timed_out_requests now).1 ↔
      ∃ id r, s.get_running_request id = some r ∧ exceeded s now r = true ∧
        req = { r with abort := true } := by
  constructor
  · intro id
    exact Dict.get?_mapValues _ _ _
  · intro req
    unfold Scheduler.get_timed_out_requests
    dsimp only
    rw [List.mem_filter, Dict.mem_values]
    constructor
    · rintro ⟨⟨id, hid⟩, hlate⟩
      rw [Dict.get?_mapValues] at hid
      obtain ⟨r, hr, rfl⟩ := Option.map_eq_some_iff.mp hid
      cases hex : exceeded s now r with
      | true =>
        refine ⟨id, r, hr, hex, ?_⟩
        unfold exceeded at hex
        rw [if_pos hex]
      | false =>
        exfalso
        unfold exceeded at hex
        rw [if_neg (by simp [hex]), hex] at hlate
        cases hlate
    · rintro ⟨id, r, hr, hex, rfl⟩
      unfold exceeded at hex
      refine ⟨⟨id, ?_⟩, hex⟩
      rw [Dict.get?_mapValues]
      unfold Scheduler.get_running_request at hr
      rw [hr, Option.map_some, if_pos hex]

/-! ## The block -/

theorem abort_timed_out_raises (req : Request) (e : Executor) :
    ∃ err, abort_timed_out req e = .error err e := by
  unfold abort_timed_out timeout_s
  split <;> exact ⟨_, rfl⟩

/-- The block marks the requests that exceeded their timeout, and does nothing else. -/
theorem check_timeouts.spec (now : Nat) (e : Executor) : check_timeouts now e =
    .ok ⟨⟩ { e with scheduler := (e.scheduler.get_timed_out_requests now).2 } := by
  let e₁ : Executor := { e with scheduler := (e.scheduler.get_timed_out_requests now).2 }
  have hloop : ∀ reqs : List Request, reqs.forM abort_timed_out e₁ = .ok ⟨⟩ e₁ ∨
      ∃ err, reqs.forM abort_timed_out e₁ = .error err e₁ := by
    rintro (_ | ⟨req, rest⟩)
    · exact Or.inl rfl
    · obtain ⟨err, herr⟩ := abort_timed_out_raises req e₁
      exact Or.inr ⟨err, forM_cons_of_error herr⟩
  unfold check_timeouts
  rcases hloop (e.scheduler.get_timed_out_requests now).1 with hrun | ⟨err, hrun⟩
  · exact tryCatch_of_ok hrun
  · exact (tryCatch_of_error hrun).trans rfl

/-! ## What a timeout owes -/

/-- What the block owes: the requests that exceeded their timeout are gone, the others are as they
were, and the first peer has an abort to send for each of the former. -/
structure TimeoutsReleased (now : Nat) (e e' : Executor) : Prop where
  released : ∀ id req, e.scheduler.get_running_request id = some req →
    exceeded e.scheduler now req = true → e'.runs id = false ∧ e'.resident id = false
  untouched : ∀ id req, e.scheduler.get_running_request id = some req →
    exceeded e.scheduler now req = false →
    e'.scheduler.get_running_request id = some req ∧ e'.resident id = e.resident id
  aborts : e.is_first_peer = true → e.is_last_peer = false →
    ∀ id req, e.scheduler.get_running_request id = some req →
      exceeded e.scheduler now req = true →
      req.request_id ∈ e'.finished_batch.map Request.request_id

/-- The block returns. It does what a timeout owes just when no request exceeded its timeout. -/
theorem timeouts_released_iff (now : Nat) (e : Executor) :
    ∃ e', check_timeouts now e = .ok ⟨⟩ e' ∧ (TimeoutsReleased now e e' ↔
      ∀ id req, e.scheduler.get_running_request id = some req →
        exceeded e.scheduler now req = false) := by
  refine ⟨_, check_timeouts.spec now e, ?_⟩
  obtain ⟨hmarked, _⟩ := get_timed_out_requests.spec e.scheduler now
  constructor
  · intro h id req hreq
    cases hex : exceeded e.scheduler now req with
    | false => rfl
    | true =>
      exfalso
      have hgone := (h.released id req hreq hex).1
      unfold Executor.runs at hgone
      have hnone := Dict.has_eq_false.mp hgone
      have hsome := hmarked id
      rw [hreq] at hsome
      unfold Scheduler.get_running_request at hsome
      rw [hnone] at hsome
      cases hsome
  · intro hnone
    refine ⟨?_, ?_, ?_⟩
    · intro id req hreq hex
      rw [hnone id req hreq] at hex
      cases hex
    · intro id req hreq hex
      refine ⟨?_, rfl⟩
      rw [hmarked id, hreq, Option.map_some, if_neg (by simp [hex])]
    · intro _ _ id req hreq hex
      rw [hnone id req hreq] at hex
      cases hex

/-- A first peer with one running request, last touched at time 0. -/
def first_peer : Executor :=
  { middle_peer ((two_waiting 2).admit_requests 0) with is_first_peer := true }

/-- After the timeout of 600 seconds the request is still running. -/
theorem timed_out_request_stays :
    ¬ ∀ (now : Nat) (e e' : Executor), check_timeouts now e = .ok ⟨⟩ e' →
      TimeoutsReleased now e e' := by
  intro hall
  have h := hall 601 first_peer _ (check_timeouts.spec 601 first_peer)
  have hgone := (h.released "a" { short_prompt "a" with last_updated_time := some 0 }
    (by decide +kernel) (by decide)).1
  revert hgone
  decide +kernel

end parallax.server.executor
