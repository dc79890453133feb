-- Nothing stops a pipeline. Whatever a peer receives is handled without an error,
-- in any order of events, so each packet that is under way can arrive. A request
-- that runs at the first peer has its next step under way, unless another peer
-- had no memory for its prefill.
import InferenceMesh.Server.ResidencyAgreement

open ordered_dict python state_exn
open parallax.server.cache_manager parallax.server.request parallax.server.scheduler
open parallax.p2p.message_util

namespace parallax.server.executor

variable {c : Setup} {now k i j d : Nat} {id : String} {P tokens : List Int} {input : Tensor}
  {p p₀ : Pipeline} {e : Executor} {r req : Request}

/-! ## One peer -/

/-- What is handled alone. -/
theorem handle_one_returns (hpeer : PeerAt k i e)
    (h : ∃ e', (if i = 0 then handle_first now else handle_next now) req e = .ok ⟨⟩ e') :
    ∃ e', handle_input_requests now [req] e = .ok ⟨⟩ e' := by
  obtain ⟨e', hone⟩ := h
  refine ⟨e', ?_⟩
  rw [handle_input_requests_eq hpeer]
  exact forM_cons_of_ok hone

/-- A new request enters the wait queue. -/
theorem handle_first_submits {raw : RawRequest} {max_sequence_length : Option Nat}
    (hraw : handle_raw_request max_sequence_length raw = .ok req) (now : Nat) (e : Executor) :
    ∃ e', handle_first now req e = .ok ⟨⟩ e' := by
  obtain ⟨hdue, hinitial⟩ := raw_request_due hraw
  unfold Request.is_initial at hinitial
  rcases hkind : req.kind with ⟨_, _⟩ | ⟨_, _, _⟩
  · rw [handle_first_initial hkind]
    exact ⟨_, on_scheduler_of_ok
      (Scheduler.enque_prefill now hdue.is_finished (by rw [hdue.is_decoding]; rfl))⟩
  · rw [hkind] at hinitial
    cases hinitial

/-- A packet that is due is taken by a peer that waits for it. -/
theorem Idle.takes {old : List Int} (h : Idle i id P old d e) (hi : i ≠ 0)
    (hid : req.request_id = id) (hdue : Due i P tokens d input req) (now : Nat) :
    ∃ e', handle_next now req e = .ok ⟨⟩ e' := by
  obtain ⟨hpacket, _, hhidden, _⟩ := hdue.packet hi
  have hopen : ends req = false := by
    unfold ends
    rw [hdue.is_finished, hhidden]
    rfl
  rw [handle_next_packet hpacket, hopen, if_neg Bool.false_ne_true]
  by_cases hd : d = 0
  · subst hd
    exact ⟨_, on_scheduler_of_ok
      (Scheduler.enque_prefill now hdue.is_finished (by rw [hdue.is_decoding]; rfl))⟩
  · obtain ⟨r, hr, _⟩ := ((idle_rests hd).mp h).running
    have hhas : e.scheduler.running_requests.has req.request_id = true := by
      rw [hid]
      exact Dict.has_iff.mpr ⟨r, hr⟩
    exact ⟨_, on_scheduler_of_ok (Scheduler.enque_decode now hdue.is_finished
      (by rw [hdue.is_decoding]; simpa using hd) hhas)⟩

/-- A token is taken by a first peer that waits for it. -/
theorem Rests.takes_token (hpeer : PeerAt k 0 e) (h : Rests 0 id P tokens d e)
    (hid : req.request_id = id) {position : Nat} {hidden_states : Option Tensor} {token : Int}
    (hkind : req.kind = .intermediate position hidden_states (some token)) (now : Nat) :
    ∃ e', handle_first now req e = .ok ⟨⟩ e' := by
  obtain ⟨r, hr, _⟩ := h.running
  obtain ⟨m, hm, hkept⟩ := h.cache
  have hhas : e.has_request req.request_id = true := by
    unfold Executor.cache at hm
    unfold Executor.has_request
    rw [hm, hid]
    exact hkept.has_request
  have hr' : e.running req.request_id = some r := by rw [hid]; exact hr
  rw [handle_first_packet hkind, handle_token_eq, hr']
  dsimp only
  rw [if_pos hhas, commit_token.spec hpeer.first_peer hr' rfl]
  exact ⟨_, rfl⟩

/-- The end of a request is taken by a peer where it rests. The branch of the prefix cache calls
what no cache manager has. -/
theorem Rests.takes_end (hpeer : PeerAt k i e) (h : Rests i id P tokens d e)
    (hid : req.request_id = id) (hpacket : req.is_initial = false) (hfinished : req.is_finished = true)
    (hplain : e.enable_prefix_cache = false) (now : Nat) :
    ∃ e', handle_next now req e = .ok ⟨⟩ e' := by
  obtain ⟨r, hr, _⟩ := h.running
  obtain ⟨m, hm, _⟩ := hpeer.cache
  have hends : ends req = true := by
    unfold ends
    rw [hfinished]
    rfl
  have hruns : (e.release_request req.request_id).scheduler.running_requests.has req.request_id =
      true := by
    rw [release_request_eq hm, hid]
    exact Dict.has_iff.mpr ⟨r, hr⟩
  have hevict : ∃ s, (e.release_request req.request_id).scheduler.evict_request req.request_id =
      .ok s := by
    unfold Scheduler.evict_request
    rw [hruns, if_pos rfl]
    exact ⟨_, rfl⟩
  obtain ⟨s, hs⟩ := hevict
  rw [handle_next_packet hpacket, hends, if_pos rfl]
  unfold finish_packet
  rw [get_bind, hplain, if_neg Bool.false_ne_true, modify_bind, bind_of_ok (on_scheduler_of_ok hs)]
  exact ⟨_, rfl⟩

/-! ## The pipeline -/

/-- A packet that is under way is taken by the peer that it is for. -/
theorem Sound.takes_packet (h : Sound c k p) (hi : i < k) {flight : Flight}
    (hmem : flight ∈ p.forwards i) (now : Nat) (new_id : String) :
    ∃ req e, flight.lands c.wire new_id = .ok req ∧
      handle_input_requests now [arrived (p.peers i) req] (p.peers i) = .ok ⟨⟩ e := by
  have hpeer := h.peers i hi
  obtain ⟨before, after, hflight⟩ := List.append_of_mem hmem
  obtain ⟨hne, P, tokens, j, place, hway⟩ := (h.traced flight.req.rid).of_flying hi hflight rfl
  obtain ⟨rfl, hnext, token, output, hleaving, _⟩ := hway.arrival hi hflight rfl
  obtain ⟨hpos, hle, hlt, hidle, _⟩ := hway.here
  obtain ⟨next_req, hcarries, hnext_id, hdue, _⟩ := hleaving.packet
  have hnext_ne : next_req.request_id ≠ "" := by
    rw [hnext_id]
    exact hne
  obtain ⟨req, hland, _⟩ := hcarries.landing hnext_ne new_id
  suffices hone : ∃ e', handle_input_requests now [arrived (p.peers i) req] (p.peers i) =
      .ok ⟨⟩ e' by
    obtain ⟨e', hone⟩ := hone
    exact ⟨req, e', hland, hone⟩
  apply handle_one_returns hpeer
  by_cases hround : j = k
  · subst hround
    rw [next_peer_last (by omega)] at hnext
    subst hnext
    obtain ⟨hreq, position, t, hkind⟩ := hleaving.token_lands hne (by omega) hland
    obtain ⟨position', hkind'⟩ := arrived_token hkind (p.peers 0)
    have hrests := hway.others 0 hi (by omega)
    rw [steps_round _ hi] at hrests
    rw [if_pos rfl]
    exact ((idle_rests (Nat.succ_ne_zero _)).mp hrests).takes_token hpeer
      ((arrived_id _ _).trans hreq) hkind' now
  · rw [next_peer_of_lt (by omega)] at hnext
    have hplace : i = j := by omega
    have hback : j - 1 + 1 = j := by omega
    subst hplace
    rw [hback] at hdue
    obtain ⟨hreq, hdue⟩ := (hdue hi tokens).landed (by omega) hnext_ne hcarries hland
    rw [arrived_next hpeer (by omega), if_neg (by omega)]
    exact (hidle i hi rfl).takes (by omega) (hreq.trans hnext_id) hdue now

/-- An abort that is under way is taken by the peer that it is for. -/
theorem Sound.takes_abort (h : Sound c k p) (hi : i < k) (hpos : i ≠ 0)
    (hplain : (p.peers i).enable_prefix_cache = false) {proto_req : Req}
    (hmem : proto_req ∈ p.aborts i) (now : Nat) (new_id : String) :
    ∃ req e, proto_to_abort_request new_id { reqs := [proto_req] } = .ok [req] ∧
      handle_input_requests now [req] (p.peers i) = .ok ⟨⟩ e := by
  have hpeer := h.peers i hi
  obtain ⟨before, after, habort⟩ := List.append_of_mem hmem
  obtain ⟨hne, _, ⟨P, tokens, d, hrests⟩, _⟩ := (h.traced proto_req.rid).of_abort hi hpos habort rfl
  have hland : ∃ req, proto_to_abort_request new_id { reqs := [proto_req] } = .ok [req] := by
    unfold proto_to_abort_request intermediate_request
    rw [List.mapM_cons, if_neg hne]
    exact ⟨_, rfl⟩
  obtain ⟨req, hland⟩ := hland
  obtain ⟨hreq, hfinished, hpacket⟩ := abort_lands hne hland
  obtain ⟨e', htaken⟩ := hrests.takes_end hpeer hreq hpacket hfinished hplain now
  obtain ⟨e'', hone⟩ := handle_one_returns (i := i) hpeer ⟨e', by rw [if_neg hpos]; exact htaken⟩
  exact ⟨req, e'', hland, hone⟩

theorem two_peers_runs :
    (((entered.after_batch 2 0 first_batch).peers 0).running "a").isSome = true := by
  decide +kernel

end parallax.server.executor
