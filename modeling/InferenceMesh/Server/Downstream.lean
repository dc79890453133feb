-- Packets at a peer behind the first one (mlx_executor.py,
-- `handle_input_requests`): a finished or aborted request is released and
-- evicted, a prefill waits, and a decode goes on. The eviction and the entry of
-- a decode raise for a request that does not run.
import InferenceMesh.Cache.Residents
import InferenceMesh.Lib.ExceptList
import InferenceMesh.P2P.MessageUtil
import InferenceMesh.Server.Batching
import InferenceMesh.Server.Executor

open ordered_dict python state_exn
open parallax.server.cache_manager parallax.server.request parallax.server.scheduler

namespace parallax.server.executor

/-! ## Parts of an executor -/

namespace Executor

variable (e : Executor) (id : String)

/-- The request is in the running set. -/
def runs : Bool := e.scheduler.running_requests.has id

/-- The ids in the wait queue. -/
def waiting_ids : List String := e.scheduler.wait_queue.map Request.request_id

/-- The request has memory in the cache. -/
def resident : Bool := e.scheduler.cache_manager.any (fun m => m.resident id)

theorem release_request_resident (id' : String) : (e.release_request id).resident id' =
    (e.resident id' && decide (id' ≠ id)) := by
  unfold release_request resident
  rcases e.scheduler.cache_manager with _ | m
  · rfl
  · simp only [Option.map_some, Option.any_some]
    by_cases h : id' = id
    · subst h
      simp [m.release_request_resident]
    · simp [h, (m.release_request_only_for id).resident h]

theorem release_request_runs (id' : String) : (e.release_request id).runs id' = e.runs id' := rfl

theorem release_request_waiting : (e.release_request id).waiting_ids = e.waiting_ids := rfl

end Executor

theorem on_scheduler_of_ok {call : Scheduler → Except Exn Scheduler} {e : Executor} {s : Scheduler}
    (h : call e.scheduler = .ok s) :
    on_scheduler call e = .ok ⟨⟩ { e with scheduler := s } := by
  unfold on_scheduler
  rw [get_bind, h]
  rfl

theorem on_scheduler_of_error {call : Scheduler → Except Exn Scheduler} {e : Executor} {err : Exn}
    (h : call e.scheduler = .error err) : on_scheduler call e = .error err e := by
  unfold on_scheduler
  rw [get_bind, h]
  rfl

/-! ## Packets -/

/-- A finished or aborted request. -/
def ends (req : Request) : Bool := req.is_finished || req.hidden_states.isNone

/-- A request that goes to the wait queue. -/
def starts (req : Request) : Bool := !ends req && !req.is_decoding

section wire

open parallax.p2p.message_util

theorem intermediate_request_packet {new_id id : String} {position : Nat} {status : RequestStatus}
    {input_ids : List Int} {hidden_states : Option Tensor} {next : Option Int}
    {routing_table : List String} {params : SamplingParams} {lora_path : Option String}
    {req : Request} (h : intermediate_request new_id id position status input_ids hidden_states next
      routing_table params lora_path = .ok req) : req.is_initial = false := by
  unfold intermediate_request at h
  generalize (if id = "" then new_id else id) = rid at h
  dsimp only at h
  split at h
  · cases h
  · cases h
    rfl

/-- The requests of a message are packets. -/
theorem proto_to_request_packets {w : Wire} {new_id : String} {proto_request : ForwardRequest}
    {reqs : List Request} (h : proto_to_request w new_id proto_request = .ok reqs) :
    ∀ req ∈ reqs, req.is_initial = false := by
  refine except_list.forall_of_mapM_ok h ?_
  intro proto_req req hrun
  unfold req_to_request at hrun
  obtain ⟨status, _, hrun'⟩ := except_list.bind_eq_ok.mp hrun
  exact intermediate_request_packet hrun'

theorem proto_to_abort_request_packets {new_id : String} {proto_request : AbortRequest}
    {reqs : List Request} (h : proto_to_abort_request new_id proto_request = .ok reqs) :
    ∀ req ∈ reqs, req.is_initial = false :=
  except_list.forall_of_mapM_ok h (fun _ _ hrun => intermediate_request_packet hrun)

end wire

/-! ## One packet -/

/-- The packet is expected: the loop does not raise at it. -/
def Takes (e : Executor) (req : Request) : Prop :=
  (ends req = true → e.enable_prefix_cache = false) ∧
    (starts req = false → e.runs req.request_id = true)

/-- What a packet does to the executor. -/
structure Handled (req : Request) (e e' : Executor) : Prop where
  prefix_cache : e'.enable_prefix_cache = e.enable_prefix_cache
  runs : ∀ id, e'.runs id = (e.runs id && !(ends req && decide (id = req.request_id)))
  resident : ∀ id, e'.resident id = (e.resident id && !(ends req && decide (id = req.request_id)))
  waiting : e'.waiting_ids = e.waiting_ids ++ if starts req then [req.request_id] else []

theorem evict_step {e : Executor} {id : String} (h : e.runs id = true) :
    on_scheduler (fun s => s.evict_request id) e = .ok ⟨⟩ { e with scheduler := { e.scheduler with
      running_requests := e.scheduler.running_requests.erase id } } := by
  apply on_scheduler_of_ok
  unfold Executor.runs at h
  unfold Scheduler.evict_request
  rw [if_pos h]

theorem evict_step_raises {e : Executor} {id : String} (h : e.runs id = false) :
    on_scheduler (fun s => s.evict_request id) e =
      .error (.ValueError s!"Attempted to evict non-existent request {id}.") e := by
  apply on_scheduler_of_error
  unfold Executor.runs at h
  unfold Scheduler.evict_request
  rw [if_neg (by simp [h])]

variable {now : Nat} {e e' : Executor} {req : Request}

theorem enque_step {s : Scheduler} (h : e.scheduler.enque_request now req = .ok s) :
    on_scheduler (fun s => s.enque_request now req) e = .ok ⟨⟩ { e with scheduler := s } :=
  on_scheduler_of_ok h

theorem handle_next_packet (hpacket : req.is_initial = false) : handle_next now req e =
    if ends req = true then finish_packet req e
    else on_scheduler (fun s => s.enque_request now req) e := by
  unfold Request.is_initial at hpacket
  unfold handle_next ends Request.hidden_states
  rcases hkind : req.kind with ⟨_, _⟩ | ⟨_, _, _⟩
  · rw [hkind] at hpacket
    cases hpacket
  · dsimp only
    split <;> rfl

theorem pass_on_handled {e e' : Executor} (h : Handled req e e') (r : Request) :
    Handled req e (e'.pass_on r) := by
  unfold Executor.pass_on
  split
  · exact h
  · exact ⟨h.prefix_cache, h.runs, h.resident, h.waiting⟩

/-- A finished request that runs is released, evicted and passed on. -/
theorem finish_packet.spec (hends : ends req = true) :
    (Takes e req ∧ ∃ e', finish_packet req e = .ok ⟨⟩ e' ∧ Handled req e e') ∨
      (¬ Takes e req ∧ ∃ err e', finish_packet req e = .error err e') := by
  have hstarts : starts req = false := by simp [starts, hends]
  unfold finish_packet Takes
  rw [get_bind]
  cases hbegins : e.enable_prefix_cache with
  | true =>
    exact Or.inr ⟨fun h => by simpa using h.1 hends, _, e, rfl⟩
  | false =>
    rw [if_neg (by decide), modify_bind]
    cases hruns : e.runs req.request_id with
    | false =>
      have hevict := evict_step_raises (e := e.release_request req.request_id) hruns
      exact Or.inr ⟨fun h => by simpa using h.2 hstarts, _, _, bind_of_error hevict⟩
    | true =>
      have hevict := evict_step (e := e.release_request req.request_id) hruns
      refine Or.inl ⟨⟨fun _ => rfl, fun _ => rfl⟩, _, (bind_of_ok hevict).trans rfl, ?_⟩
      apply pass_on_handled
      refine ⟨rfl, ?_, ?_, ?_⟩
      · intro id
        show (e.scheduler.running_requests.erase req.request_id).has id = _
        unfold Executor.runs Dict.has
        rw [Dict.get?_erase, hends]
        by_cases h : req.request_id = id
        · simp [h]
        · simp [h, Ne.symm h]
      · intro id
        rw [hends, Bool.true_and, ← decide_not]
        exact e.release_request_resident req.request_id id
      · rw [hstarts]
        exact (List.append_nil _).symm

/-- An unfinished packet waits, or goes on with its request. -/
theorem enque_packet.spec (hends : ends req = false) :
    (Takes e req ∧ ∃ e', on_scheduler (fun s => s.enque_request now req) e = .ok ⟨⟩ e' ∧
        Handled req e e') ∨
      (¬ Takes e req ∧ ∃ err e', on_scheduler (fun s => s.enque_request now req) e = .error err e') := by
  have hopen : req.is_finished = false := by
    unfold ends at hends
    exact (Bool.or_eq_false_iff.mp hends).1
  unfold Takes
  cases hdecoding : req.is_decoding with
  | false =>
    have hstarts : starts req = true := by simp [starts, hends, hdecoding]
    have hrun := enque_step (e := e)
      (Scheduler.enque_prefill now (s := e.scheduler) hopen hdecoding)
    refine Or.inl ⟨⟨by simp [hends], by simp [hstarts]⟩, _, hrun, rfl, ?_, ?_, ?_⟩
    · intro id
      simp [hends, Executor.runs]
    · intro id
      simp [hends, Executor.resident]
    · simp [hstarts, Executor.waiting_ids]
  | true =>
    have hstarts : starts req = false := by simp [starts, hdecoding]
    cases hruns : e.runs req.request_id with
    | false =>
      obtain ⟨err, herr⟩ := Scheduler.enque_raises now (s := e.scheduler) hopen hdecoding
        hruns
      exact Or.inr ⟨fun h => by simpa using h.2 hstarts, err, e, on_scheduler_of_error herr⟩
    | true =>
      have hrun := enque_step (e := e)
        (Scheduler.enque_decode now (s := e.scheduler) hopen hdecoding hruns)
      refine Or.inl ⟨⟨by simp [hends], fun _ => rfl⟩, _, hrun, rfl, ?_, ?_, ?_⟩
      · intro id
        unfold Executor.runs Dict.has at *
        dsimp only
        rw [Dict.get?_moveToEnd, Dict.get?_insert]
        split
        · rename_i hid
          rw [← hid, hruns]
          simp [hends]
        · simp [hends]
      · intro id
        simp [hends, Executor.resident]
      · simp [hstarts, Executor.waiting_ids]

/-- A packet is handled when it is expected, and otherwise the loop raises at it. -/
theorem handle_next.spec (hpacket : req.is_initial = false) :
    (Takes e req ∧ ∃ e', handle_next now req e = .ok ⟨⟩ e' ∧ Handled req e e') ∨
      (¬ Takes e req ∧ ∃ err e', handle_next now req e = .error err e') := by
  rw [handle_next_packet hpacket]
  cases hends : ends req with
  | true =>
    rw [if_pos rfl]
    exact finish_packet.spec hends
  | false =>
    rw [if_neg Bool.false_ne_true]
    exact enque_packet.spec hends

/-! ## A list of packets -/

/-- The packets are expected, one after the other: what ends has to run until then, and after it
only a new start is expected. -/
structure Expected (e : Executor) (reqs : List Request) : Prop where
  prefix_cache : ∀ r ∈ reqs, ends r = true → e.enable_prefix_cache = false
  runs : ∀ r ∈ reqs, starts r = false → e.runs r.request_id = true
  order : reqs.Pairwise (fun r r' =>
    ends r = true → r'.request_id = r.request_id → starts r' = true)

theorem starts_of_ends (h : ends req = true) : starts req = false := by simp [starts, h]

theorem expected_cons {rest : List Request} (h : Handled req e e') :
    Expected e (req :: rest) ↔ Takes e req ∧ Expected e' rest := by
  constructor
  · rintro ⟨hbegins, hruns, horder⟩
    obtain ⟨hfirst, hrest⟩ := List.pairwise_cons.mp horder
    refine ⟨⟨hbegins req List.mem_cons_self, hruns req List.mem_cons_self⟩, ?_, ?_, hrest⟩
    · intro r hr hends
      rw [h.prefix_cache]
      exact hbegins r (List.mem_cons_of_mem _ hr) hends
    · intro r hr hstarts
      rw [h.runs, hruns r (List.mem_cons_of_mem _ hr) hstarts]
      by_cases hends : ends req = true
      · have hne : r.request_id ≠ req.request_id := by
          intro hid
          rw [hfirst r hr hends hid] at hstarts
          cases hstarts
        simp [hne]
      · simp [hends]
  · rintro ⟨⟨hbegins, hruns⟩, hbegins', hruns', horder'⟩
    refine ⟨?_, ?_, List.pairwise_cons.mpr ⟨?_, horder'⟩⟩
    · intro r hr hends
      rcases List.mem_cons.mp hr with rfl | hr
      · exact hbegins hends
      · rw [← h.prefix_cache]
        exact hbegins' r hr hends
    · intro r hr hstarts
      rcases List.mem_cons.mp hr with rfl | hr
      · exact hruns hstarts
      · have hlater := hruns' r hr hstarts
        rw [h.runs] at hlater
        exact (Bool.and_eq_true_iff.mp hlater).1
    · intro r hr hends hid
      cases hstarts : starts r with
      | true => rfl
      | false =>
        have hlater := hruns' r hr hstarts
        rw [h.runs] at hlater
        simp [hends, hid] at hlater

/-- The state that a list of packets leaves. -/
structure AllHandled (reqs : List Request) (e e' : Executor) : Prop where
  runs : ∀ id, e'.runs id =
    (e.runs id && !reqs.any (fun r => ends r && decide (id = r.request_id)))
  resident : ∀ id, e'.resident id =
    (e.resident id && !reqs.any (fun r => ends r && decide (id = r.request_id)))
  waiting : e'.waiting_ids = e.waiting_ids ++ (reqs.filter starts).map Request.request_id

/-- The loop returns just when all packets are expected. -/
theorem handle_packets.spec (now : Nat) (reqs : List Request) (e : Executor)
    (hpackets : ∀ r ∈ reqs, r.is_initial = false) :
    (Expected e reqs ∧ ∃ e', reqs.forM (handle_next now) e = .ok ⟨⟩ e' ∧ AllHandled reqs e e') ∨
      (¬ Expected e reqs ∧ ∃ err e', reqs.forM (handle_next now) e = .error err e') := by
  induction reqs generalizing e with
  | nil =>
    refine Or.inl ⟨⟨by simp, by simp, .nil⟩, e, rfl, ?_, ?_, ?_⟩ <;> simp
  | cons req rest ih =>
    have hrest := fun r hr => hpackets r (List.mem_cons_of_mem _ hr)
    rcases handle_next.spec (e := e) (hpackets req List.mem_cons_self) with
      ⟨htakes, e₁, hrun, hhandled⟩ | ⟨hno, err, e₁, hrun⟩
    · rw [expected_cons hhandled, forM_cons_of_ok hrun]
      rcases ih e₁ hrest with ⟨hexp, e₂, hrun', hall⟩ | ⟨hno, err, e₂, hrun'⟩
      · refine Or.inl ⟨⟨htakes, hexp⟩, e₂, hrun', ?_, ?_, ?_⟩
        · intro id
          rw [hall.runs, hhandled.runs, List.any_cons, Bool.not_or, Bool.and_assoc]
        · intro id
          rw [hall.resident, hhandled.resident, List.any_cons, Bool.not_or, Bool.and_assoc]
        · rw [hall.waiting, hhandled.waiting, List.append_assoc]
          cases hstarts : starts req <;> simp [hstarts]
      · exact Or.inr ⟨fun h => hno h.2, err, e₂, hrun'⟩
    · refine Or.inr ⟨?_, err, e₁, forM_cons_of_error hrun⟩
      rintro ⟨hbegins, hruns, _⟩
      exact hno ⟨hbegins req List.mem_cons_self, hruns req List.mem_cons_self⟩

theorem handle_input_next (hfirst : e.is_first_peer = false) (reqs : List Request) :
    handle_input_requests now reqs e = reqs.forM (handle_next now) e := by
  unfold handle_input_requests
  rw [get_bind, hfirst, if_neg Bool.false_ne_true]

/-! ## All packets -/

/-- What the handling of a list owes: it goes through the whole list, and what the list announces
as finished or aborted is gone. -/
def CleansUp (now : Nat) (reqs : List Request) (e : Executor) : Prop :=
  ∃ e', handle_input_requests now reqs e = .ok ⟨⟩ e' ∧
    ∀ r ∈ reqs, ends r = true → r.request_id ∉ e'.waiting_ids ∧
      e'.runs r.request_id = false ∧ e'.resident r.request_id = false

/-- Only running requests end or go on, and nothing else comes in for a request that ends: it does
not wait, no prefill of the list is for it, and nothing is behind its end. -/
structure OnlyRunningEnd (e : Executor) (reqs : List Request) : Prop where
  prefix_cache : ∀ r ∈ reqs, ends r = true → e.enable_prefix_cache = false
  runs : ∀ r ∈ reqs, starts r = false → e.runs r.request_id = true
  final : reqs.Pairwise (fun r r' => ends r = true → r'.request_id ≠ r.request_id)
  not_waiting : ∀ r ∈ reqs, ends r = true → r.request_id ∉ e.waiting_ids
  not_started : ∀ r ∈ reqs, ends r = true → ∀ r' ∈ reqs, r'.request_id = r.request_id →
    starts r' = false

/-- A peer behind the first one goes through a list of packets, and is rid of what the list
announces as finished or aborted, just when only running requests end or go on. -/
theorem packets_clean_up_iff (now : Nat) (reqs : List Request) (e : Executor)
    (hpeer : e.is_first_peer = false) (hpackets : ∀ r ∈ reqs, r.is_initial = false) :
    CleansUp now reqs e ↔ OnlyRunningEnd e reqs := by
  unfold CleansUp
  rw [handle_input_next hpeer]
  rcases handle_packets.spec now reqs e hpackets with ⟨hexp, e', hrun, hall⟩ | ⟨hno, err, e', hrun⟩
  · rw [hrun]
    constructor
    · rintro ⟨_, heq, hgone⟩
      cases heq
      have hwait : ∀ r ∈ reqs, ends r = true → r.request_id ∉ e.waiting_ids ∧
          ∀ r' ∈ reqs, r'.request_id = r.request_id → starts r' = false := by
        intro r hr hends
        have hnot := (hgone r hr hends).1
        rw [hall.waiting, List.mem_append, not_or] at hnot
        refine ⟨hnot.1, ?_⟩
        intro r' hr' hid
        cases hstarts : starts r' with
        | false => rfl
        | true =>
          exfalso
          apply hnot.2
          rw [← hid]
          exact List.mem_map_of_mem (List.mem_filter.mpr ⟨hr', hstarts⟩)
      refine ⟨hexp.prefix_cache, hexp.runs, ?_, fun r hr hends => (hwait r hr hends).1,
        fun r hr hends => (hwait r hr hends).2⟩
      refine hexp.order.imp_of_mem ?_
      intro r r' hr hr' hstart hends hid
      rw [(hwait r hr hends).2 r' hr' hid] at hstart
      exact absurd (hstart hends hid) Bool.false_ne_true
    · intro h
      refine ⟨e', rfl, ?_⟩
      intro r hr hends
      have hany : reqs.any (fun r' => ends r' && decide (r.request_id = r'.request_id)) = true :=
        List.any_eq_true.mpr ⟨r, hr, by simp [hends]⟩
      refine ⟨?_, ?_, ?_⟩
      · rw [hall.waiting, List.mem_append, not_or]
        refine ⟨h.not_waiting r hr hends, ?_⟩
        intro hmem
        obtain ⟨r', hr', hid⟩ := List.mem_map.mp hmem
        obtain ⟨hr', hstarts⟩ := List.mem_filter.mp hr'
        rw [h.not_started r hr hends r' hr' hid] at hstarts
        cases hstarts
      · rw [hall.runs, hany, Bool.not_true, Bool.and_false]
      · rw [hall.resident, hany, Bool.not_true, Bool.and_false]
  · constructor
    · rintro ⟨_, heq, _⟩
      rw [hrun] at heq
      cases heq
    · intro h
      exfalso
      refine hno ⟨h.prefix_cache, h.runs, ?_⟩
      exact h.final.imp (fun hne hends hid => absurd hid (hne hends))

/-- An abort as it comes from the first peer. -/
def abort_packet (id : String) : Request where
  request_id := id
  status := .FINISHED_EOS
  kind := .intermediate 0 none none

/-- A middle peer with the given requests. -/
def middle_peer (scheduler : Scheduler) : Executor where
  is_first_peer := false
  is_last_peer := false
  enable_prefix_cache := false
  max_sequence_length := none
  scheduler := scheduler
  finished_batch := []
  sent_to_ipc := []
  sent_aborts := []

/-- An abort for one of two running requests, and a new prompt behind it. -/
theorem running_packet_ends :
    CleansUp 0 [abort_packet "a", waiting_packet "c" 3]
      (middle_peer (two_packets.admit_requests 0)) :=
  (packets_clean_up_iff 0 _ _ rfl (by decide)).mpr
    ⟨by decide +kernel, by decide +kernel, by decide +kernel, by decide +kernel,
      by decide +kernel⟩

/-- An abort for a request that still waits raises, and the request stays in the queue. -/
theorem waiting_packet_is_not_aborted :
    ¬ ∀ (now : Nat) (reqs : List Request) (e : Executor), e.is_first_peer = false →
      (∀ r ∈ reqs, r.is_initial = false) → CleansUp now reqs e := by
  intro hall
  obtain ⟨e', hrun, _⟩ := hall 0 [abort_packet "a"] (middle_peer two_packets) rfl (by decide)
  have hreturned : returned (handle_input_requests 0 [abort_packet "a"]
      (middle_peer two_packets)) = true := by
    rw [hrun]
    rfl
  revert hreturned
  decide +kernel

end parallax.server.executor
