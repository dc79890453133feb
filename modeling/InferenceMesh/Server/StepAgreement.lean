-- The peers of a pipeline agree on the steps of each request, though no packet
-- has a step number: in any order of events a request has one step under way, all
-- peers use the same contexts, and the first peer commits what the last one made.
import InferenceMesh.P2P.WireRoundTrip
import InferenceMesh.Server.JourneyBatches

open ordered_dict python state_exn
open parallax.server.cache_manager parallax.server.request parallax.server.scheduler
open parallax.p2p.message_util

namespace parallax.server.executor

variable {c : Setup} {k i j d : Nat} {id : String} {P tokens : List Int} {input : Tensor}
  {p p₀ : Pipeline} {e : Executor} {r : Request}

/-! ## Steps under way -/

/-- The steps of a request that a peer could make now. -/
def Executor.due (e : Executor) (id : String) : Nat :=
  (e.waiting_for id).length +
    match e.running id with
    | some req => if req.ready_for_next_step then 1 else 0
    | none => 0

/-- The steps of a request under way: its packets, and what its peers could do now. -/
def Pipeline.in_flight (p : Pipeline) (k : Nat) (id : String) : Nat :=
  ∑ j ∈ Finset.range k, ((p.flying_to j id).length + (p.peers j).due id)

/-- The tokens on their way back to the first peer. -/
def Pipeline.tokens_back (p : Pipeline) (id : String) : List Int :=
  (p.flying_to 0 id).map (fun flight => flight.req.next_token_id)

theorem Absent.due (h : Absent id e) : e.due id = 0 := by
  unfold Executor.due
  rw [h.waiting, h.running]
  rfl

theorem Rests.due (h : Rests i id P tokens d e) : e.due id = 0 := by
  obtain ⟨r, hr, hready, _⟩ := h.running
  unfold Executor.due
  rw [h.waiting, hr]
  dsimp only
  rw [hready]
  rfl

theorem Idle.due (h : Idle i id P tokens d e) : e.due id = 0 := by
  by_cases hd : d = 0
  · subst hd
    exact (idle_zero.mp h).due
  · exact ((idle_rests hd).mp h).due

theorem Waits.due (h : Waits i id P tokens input e) : e.due id = 1 := by
  obtain ⟨r, hr, _⟩ := h.waiting
  unfold Executor.due
  rw [hr, h.running]
  rfl

theorem Ready.due (h : Ready i id P tokens d input e) : e.due id = 1 := by
  obtain ⟨r, hr, hready, _⟩ := h.running
  unfold Executor.due
  rw [h.waiting, hr]
  dsimp only
  rw [hready]
  rfl

/-- Nothing of the request is under way. -/
theorem in_flight_none (hflying : ∀ j < k, p.flying_to j id = [])
    (hdue : ∀ j < k, (p.peers j).due id = 0) : p.in_flight k id = 0 := by
  unfold Pipeline.in_flight
  refine Finset.sum_eq_zero fun j hj => ?_
  have hlt := Finset.mem_range.mp hj
  rw [hflying j hlt, hdue j hlt]
  rfl

/-- All that is under way is at one place. -/
theorem in_flight_at (hi : i < k)
    (hothers : ∀ j < k, j ≠ i → p.flying_to j id = [] ∧ (p.peers j).due id = 0) :
    p.in_flight k id = (p.flying_to i id).length + (p.peers i).due id := by
  unfold Pipeline.in_flight
  refine Finset.sum_eq_single_of_mem i (Finset.mem_range.mpr hi) fun j hj hne => ?_
  obtain ⟨hflying, hdue⟩ := hothers j (Finset.mem_range.mp hj) hne
  rw [hflying, hdue]
  rfl

/-- A request on its way has one step under way, unless it was dropped with its prefill. -/
theorem OnItsWay.under_way {place : Place} (h : OnItsWay c k p id P tokens i place) :
    p.in_flight k id = 1 ∨
      p.in_flight k id = 0 ∧ tokens = [] ∧ i < k ∧ Absent id (p.peers i) := by
  have hothers : ∀ j < k, j ≠ i → (p.peers j).due id = 0 :=
    fun j hj hne => (h.others j hj hne).due
  have hhere := h.here
  cases place with
  | flying =>
    left
    obtain ⟨hpos, hle, hk, hidle, token, output, flight, _, _, hflying, _⟩ := hhere
    have hdue : ∀ j < k, (p.peers j).due id = 0 := by
      intro j hj
      by_cases hji : j = i
      · exact (hidle j hj hji).due
      · exact hothers j hj hji
    have hnext : next_peer k (i - 1) < k := by
      unfold next_peer
      split <;> omega
    rw [in_flight_at hnext fun j hj hne => ⟨by rw [hflying j hj, if_neg hne], hdue j hj⟩,
      hflying _ hnext, if_pos rfl, hdue _ hnext]
    rfl
  | waiting =>
    left
    obtain ⟨hi, _, ⟨_, _, hwaits⟩, hflying, _⟩ := hhere
    rw [in_flight_at hi fun j hj hne => ⟨hflying j hj, hothers j hj hne⟩, hflying i hi, hwaits.due]
    rfl
  | ready =>
    left
    obtain ⟨hi, ⟨_, _, hready⟩, hflying, _⟩ := hhere
    rw [in_flight_at hi fun j hj hne => ⟨hflying j hj, hothers j hj hne⟩, hflying i hi, hready.due]
    rfl
  | lost =>
    right
    obtain ⟨hi, hnil, habsent, hflying, _⟩ := hhere
    refine ⟨?_, hnil, hi, habsent⟩
    rw [in_flight_at hi fun j hj hne => ⟨hflying j hj, hothers j hj hne⟩, hflying i hi, habsent.due]
    rfl

theorem Traced.in_flight (h : Traced c k p id) : p.in_flight k id ≤ 1 := by
  cases h with
  | unseen h =>
    rw [in_flight_none h.forwards fun j hj => (h.absent j hj).due]
    exact Nat.zero_le 1
  | on_its_way _ h =>
    rcases h.under_way with hone | ⟨hnone, _⟩
    · exact le_of_eq hone
    · rw [hnone]
      exact Nat.zero_le 1
  | ended _ h =>
    rw [in_flight_none h.forwards fun j hj => ?_]
    · exact Nat.zero_le 1
    · rcases h.at_peer hj with habsent | ⟨P, tokens, d, hrests⟩
      · exact habsent.due
      · exact hrests.due

/-! ## Contexts and tokens -/

/-- A peer that is not ahead of the first one has used its lengths. -/
theorem Logged.contexts_prefix {d : Nat → Nat} {produced : List Int}
    (h : Logged k p id P d produced) (hj : j < k) (hd : d j ≤ d 0) :
    p.contexts j id <+: p.total_lengths id := by
  rw [h.contexts j hj, h.lengths]
  obtain ⟨more, hmore⟩ := Nat.exists_eq_add_of_le hd
  rw [hmore]
  exact ⟨List.range' (P.length + d j) more, by rw [List.range'_append_1]⟩

/-- No peer is ahead of the first one, and none is two steps behind it. -/
theorem steps_near_first (n i j : Nat) : steps n i j ≤ steps n i 0 ∧ steps n i 0 ≤ steps n i j + 1 := by
  unfold steps
  split <;> split <;> omega

/-- What has been logged of a request on its way, and what is on its way back. -/
theorem OnItsWay.logged {place : Place} (hk : 0 < k) (h : OnItsWay c k p id P tokens i place) :
    Logged k p id P (steps tokens.length i) (tokens ++ p.tokens_back id) := by
  have hhere := h.here
  have hnone : (∀ j < k, p.flying_to j id = []) → p.tokens_back id = [] := by
    intro hflying
    unfold Pipeline.tokens_back
    rw [hflying 0 hk]
    rfl
  cases place with
  | flying =>
    obtain ⟨hpos, hle, hlt, hidle, token, output, flight, hleaving, _, hflying, hlogged⟩ := hhere
    have hback := hflying 0 hk
    unfold Pipeline.tokens_back
    by_cases hlast : i = k
    · obtain ⟨next_req, hcarries, _, _, htoken⟩ := hleaving.packet
      obtain ⟨_, position, t, hkind⟩ := htoken (by omega)
      rw [next_peer_last (by omega), if_pos rfl] at hback
      rw [if_pos hlast] at hlogged
      rw [hback, List.map_singleton, hcarries.token]
      unfold Request.next_token_id
      rw [hkind]
      exact hlogged
    · rw [next_peer_of_lt (by omega), if_neg (by omega)] at hback
      rw [if_neg hlast] at hlogged
      rw [hback, List.map_nil, List.append_nil]
      exact hlogged
  | waiting =>
    rw [hnone hhere.2.2.2.1, List.append_nil]
    exact hhere.2.2.2.2
  | ready =>
    rw [hnone hhere.2.2.1, List.append_nil]
    exact hhere.2.2.2
  | lost =>
    rw [hnone hhere.2.2.2.1, List.append_nil]
    exact hhere.2.2.2.2

/-- What has been logged of a request, with its prompt. -/
theorem Traced.logged (hk : 0 < k) (h : Traced c k p id) :
    ∃ P d, (p.prompts id = none ∨ p.prompts id = some P) ∧
      (∀ j < k, d j ≤ d 0 ∧ d 0 ≤ d j + 1) ∧
      Logged k p id P d ((p.peers 0).committed id ++ p.tokens_back id) := by
  cases h with
  | unseen h =>
    refine ⟨[], fun _ => 0, Or.inl h.prompts, fun _ _ => ⟨le_refl 0, Nat.zero_le 1⟩, ?_⟩
    unfold Pipeline.tokens_back
    rw [h.committed, h.forwards 0 hk]
    exact Logged.start h.passed hk
  | @on_its_way P tokens i place _ h =>
    refine ⟨P, steps tokens.length i, Or.inr h.prompts, fun j _ => steps_near_first _ _ j, ?_⟩
    rw [h.committed]
    exact h.logged hk
  | @ended P _ h =>
    obtain ⟨n, hlogged⟩ := h.logged
    refine ⟨P, fun _ => n, Or.inr h.prompts, fun _ _ => ⟨le_refl n, Nat.le_succ n⟩, ?_⟩
    unfold Pipeline.tokens_back
    rw [h.forwards 0 hk, List.map_nil, List.append_nil]
    exact hlogged

/-- The output of a request at the first peer is what the client was told of. -/
theorem Traced.output (hk : 0 < k) (h : Traced c k p id) (hr : (p.peers 0).running id = some r) :
    r.output_ids = (p.peers 0).committed id := by
  have hnot : ∀ {e : Executor}, Absent id e → e.running id = some r → False := by
    intro e habsent hrun
    rw [habsent.running] at hrun
    cases hrun
  cases h with
  | unseen h => exact (hnot (h.absent 0 hk) hr).elim
  | ended _ h => exact (hnot h.first hr).elim
  | @on_its_way P tokens i place _ h =>
    rw [h.committed]
    by_cases hi : i = 0
    · subst hi
      have hhere := h.here
      cases place with
      | flying => exact absurd hhere.1 (lt_irrefl 0)
      | waiting =>
        obtain ⟨_, _, ⟨_, _, hwaits⟩, _⟩ := hhere
        rw [hwaits.running] at hr
        cases hr
      | ready =>
        obtain ⟨_, ⟨_, _, hready⟩, _⟩ := hhere
        obtain ⟨r', hr', _, hdue⟩ := hready.running
        rw [hr] at hr'
        cases hr'
        exact (hdue.own rfl).output
      | lost => exact (hnot hhere.2.2.1 hr).elim
    · have hidle := h.others 0 hk (Ne.symm hi)
      unfold steps at hidle
      rw [if_pos (by omega), idle_rests (Nat.succ_ne_zero _)] at hidle
      obtain ⟨r', hr', _, hopened⟩ := hidle.running
      rw [hr] at hr'
      cases hr'
      exact (hopened rfl).output

/-- In every run a request has at most one step under way. Each peer has used, step by step, the
total lengths of the first peer. What the first peer has committed and what is on its way back are
the tokens of the last peer in their order, and the output of the request is what was committed. -/
theorem steps_agree (hk : 0 < k) (hw : c.wire.Lawful) (hstart : Starts k p₀)
    (hrun : PipelineRun c k p₀ p) (id : String) :
    p.in_flight k id ≤ 1 ∧ (∀ j < k, p.contexts j id <+: p.total_lengths id) ∧
      (p.peers 0).committed id ++ p.tokens_back id = p.produced k id ∧
      ∀ r, (p.peers 0).running id = some r → r.output_ids = (p.peers 0).committed id := by
  have htraced := (hrun.sound hw hk hstart).traced id
  obtain ⟨P, d, _, hd, hlogged⟩ := htraced.logged hk
  exact ⟨htraced.in_flight, fun j hj => hlogged.contexts_prefix hj (hd j hj).1,
    hlogged.produced.symm, fun r hr => htraced.output hk hr⟩

/-- Two peers that have just been started. -/
def two_peers : Pipeline where
  peers i := { short_sequences with
    is_first_peer := decide (i = 0)
    is_last_peer := decide (i + 1 = 2)
    scheduler := .init 8 64 2 (decide (i = 0)) (some (small_cache 8)) 600 (some (.one 2)) none }
  forwards _ := []
  aborts _ := []
  prompts _ := none
  passed _ := []
  evicted := []

theorem two_peers_start : Starts 2 two_peers where
  peers i _ := ⟨rfl, rfl, rfl, fun _ => by simp [two_peers, Scheduler.init], rfl, rfl,
    ⟨_, List.cons_ne_nil _ _, rfl⟩, rfl, rfl⟩
  forwards _ := rfl
  aborts _ := rfl
  prompts _ := rfl
  passed _ := rfl
  evicted := rfl

/-- The long prompt, cut to its first five tokens. -/
def cut_request : Request where
  request_id := "a"
  prompt_len := 5
  input_ids := List.replicate 5 7
  kind := .initial 7 12

/-- The first peer with the request in its queue. -/
def entered_peer : Executor := stateOf (handle_input_requests 0 [cut_request] (two_peers.peers 0))

/-- Two peers with a request at the first one. -/
def entered : Pipeline :=
  { two_peers.with_peer 0 entered_peer with
    prompts := Function.update two_peers.prompts "a" (some cut_request.input_ids) }

noncomputable def exact_setup : Setup := ⟨exact_wire, "mlx", 0⟩

theorem two_peers_entered : PipelineRun exact_setup 2 two_peers entered := by
  have hraw : handle_raw_request (two_peers.peers 0).max_sequence_length long_raw_request =
      .ok cut_request := rfl
  exact .step .start (.submit 0 long_raw_request hraw (by decide) rfl
    (ok_of_returned (by decide +kernel)))

def one_pass : ForwardPass := ⟨fun _ => [[1]], fun _ => 5, fun _ => List.cons_ne_nil _ _⟩

/-- What the first batch of the first peer has done. -/
noncomputable def first_batch : Batch :=
  stateOf (process_batch exact_setup 0 ⟨.ok one_pass, .ok one_pass⟩ entered_peer)

/-- The first peer has sent its packet to the second one. -/
theorem two_peers_batch_run :
    PipelineRun exact_setup 2 two_peers (entered.after_batch 2 0 first_batch) :=
  .step two_peers_entered (.batch 0 ⟨.ok one_pass, .ok one_pass⟩ (by decide)
    (ok_of_returned (by decide +kernel)))

/-- The request has made its first step at the first peer. -/
theorem two_peers_agree :
    (entered.after_batch 2 0 first_batch).in_flight 2 "a" ≤ 1 ∧
      (∀ j < 2, (entered.after_batch 2 0 first_batch).contexts j "a" <+:
        (entered.after_batch 2 0 first_batch).total_lengths "a") ∧
      ((entered.after_batch 2 0 first_batch).peers 0).committed "a" ++
          (entered.after_batch 2 0 first_batch).tokens_back "a" =
        (entered.after_batch 2 0 first_batch).produced 2 "a" ∧
      ∀ r, ((entered.after_batch 2 0 first_batch).peers 0).running "a" = some r →
        r.output_ids = ((entered.after_batch 2 0 first_batch).peers 0).committed "a" :=
  steps_agree (by decide) exact_wire_lawful two_peers_start two_peers_batch_run "a"

end parallax.server.executor
