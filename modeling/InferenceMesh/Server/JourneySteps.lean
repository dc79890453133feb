-- What the events outside of a batch do to the journey of a request: its packet
-- leaves the way and makes it ready, its token comes back, or its end is told to
-- the other peers. Each event leaves the other requests alone.
import InferenceMesh.Server.Journey

open ordered_dict python state_exn
open parallax.server.cache_manager parallax.server.request parallax.server.scheduler
open parallax.p2p.message_util

namespace parallax.server.executor

variable {c : Setup} {now k i j d : Nat} {id : String} {P tokens : List Int} {input : Tensor}
  {p p' : Pipeline} {e e' : Executor} {r req : Request}

/-! ## The parts of a journey -/

/-- A request that is new to the peer does not leave it. -/
theorem new_not_vanished (h : e.running id = none) : id ∉ vanished e e' := by
  rw [mem_vanished, runs_eq_false.mpr h]
  rintro ⟨hruns, _⟩
  cases hruns

/-- A request that goes on running does not leave. -/
theorem running_not_vanished (h : e'.running id = some r) : id ∉ vanished e e' := by
  rw [mem_vanished, runs_iff_running.mpr ⟨r, h⟩]
  rintro ⟨_, hgone⟩
  cases hgone

theorem steps_zero (n : Nat) : steps n 0 = fun _ => n := rfl

theorem steps_self (n i : Nat) : steps n i i = n := if_neg (lt_irrefl i)

/-- Peer `i` makes its step. -/
theorem steps_succ (n i : Nat) : Function.update (steps n i) i (steps n i i + 1) = steps n (i + 1) := by
  funext j
  unfold steps
  by_cases hj : j = i
  · subst hj
    rw [Function.update_self, if_neg (lt_irrefl j), if_pos (Nat.lt_succ_self j)]
  · rw [Function.update_of_ne hj]
    by_cases hlt : j < i
    · rw [if_pos hlt, if_pos (Nat.lt_succ_of_lt hlt)]
    · rw [if_neg hlt, if_neg (by omega)]

/-- The step behind the last peer is the next one of the first peer. -/
theorem steps_round (n : Nat) (h : j < k) : steps n k j = steps (n + 1) 0 j := if_pos h

theorem next_peer_of_lt (h : i + 1 < k) : next_peer k i = i + 1 := if_neg (by omega)

theorem next_peer_last (h : i + 1 = k) : next_peer k i = 0 := if_pos h

theorem idle_zero : Idle j id P tokens 0 e ↔ Absent id e := by
  unfold Idle
  rw [if_pos rfl]

theorem idle_rests (hd : d ≠ 0) : Idle j id P tokens d e ↔ Rests j id P tokens d e := by
  unfold Idle
  rw [if_neg hd]

/-- The tokens are those of the first peer. -/
theorem Idle.with_tokens (h : Idle j id P tokens d e) (hj : j ≠ 0) (tokens' : List Int) :
    Idle j id P tokens' d e := by
  by_cases hd : d = 0
  · subst hd
    exact idle_zero.mpr (idle_zero.mp h)
  · rw [idle_rests hd] at h ⊢
    obtain ⟨hwaiting, ⟨r, hr, hready, _⟩, hcache⟩ := h
    exact ⟨hwaiting, ⟨r, hr, hready, fun h0 => absurd h0 hj⟩, hcache⟩

theorem Idle.waiting (h : Idle j id P tokens d e) : e.waiting_for id = [] := by
  by_cases hd : d = 0
  · subst hd
    exact (idle_zero.mp h).waiting
  · exact ((idle_rests hd).mp h).waiting

/-- What is idle is in no batch. -/
theorem Idle.not_ready (h : Idle j id P tokens d e) (hr : e.running id = some r) :
    r.ready_for_next_step = false := by
  by_cases hd : d = 0
  · subst hd
    rw [(idle_zero.mp h).running] at hr
    cases hr
  · obtain ⟨r', hr', hready, _⟩ := ((idle_rests hd).mp h).running
    rw [hr'] at hr
    cases hr
    exact hready

theorem Logged.start (h : ∀ j < k, p.passed_at j id = []) (hk : 0 < k) :
    Logged k p id P (fun _ => 0) [] := by
  refine ⟨fun j hj => ?_, ?_, ?_, fun t x hx => ?_, fun j hj t x hx => ?_⟩
  · unfold Pipeline.contexts
    rw [h j hj]
    rfl
  · unfold Pipeline.total_lengths
    rw [h 0 hk]
    rfl
  · unfold Pipeline.produced
    rw [h (k - 1) (by omega)]
    rfl
  · rw [h 0 hk] at hx
    cases hx
  · rw [h (j + 1) hj] at hx
    cases hx

theorem Logged.of_steps {d d' : Nat → Nat} {produced : List Int} (hk : 0 < k)
    (h : Logged k p id P d produced) (hd : ∀ j < k, d' j = d j) : Logged k p id P d' produced := by
  refine ⟨fun j hj => ?_, ?_, h.produced, h.prompts, h.chained⟩
  · rw [hd j hj]
    exact h.contexts j hj
  · rw [hd 0 hk]
    exact h.lengths

theorem passed_at_of_passed (hpassed : p'.passed = p.passed) (j : Nat) (id : String) :
    p'.passed_at j id = p.passed_at j id := by
  unfold Pipeline.passed_at
  rw [hpassed]

theorem Logged.of_passed {d : Nat → Nat} {produced : List Int} (h : Logged k p id P d produced)
    (hpassed : p'.passed = p.passed) : Logged k p' id P d produced := by
  have hat := passed_at_of_passed hpassed
  refine ⟨fun j hj => ?_, ?_, ?_, ?_, fun j hj => ?_⟩
  · unfold Pipeline.contexts
    rw [hat]
    exact h.contexts j hj
  · unfold Pipeline.total_lengths
    rw [hat]
    exact h.lengths
  · unfold Pipeline.produced
    rw [hat]
    exact h.produced
  · rw [hat]
    exact h.prompts
  · rw [hat, hat]
    exact h.chained j hj

theorem Fed.of_passed {n : Nat} (h : Fed p id i n input) (hpassed : p'.passed = p.passed) :
    Fed p' id i n input := by
  intro hi
  rw [passed_at_of_passed hpassed]
  exact h hi

/-- A pipeline that differs in what the journey does not speak of. -/
theorem Aside.of_same (h : Aside k p id P tokens i) (hpeers : p'.peers = p.peers)
    (hprompts : p'.prompts = p.prompts) (hevicted : p'.evicted = p.evicted)
    (haborts : p'.aborts = p.aborts) : Aside k p' id P tokens i := by
  obtain ⟨h1, h2, h3, h4, h5, h6⟩ := h
  unfold Pipeline.aborts_to at h4
  rw [← hpeers] at h3 h5 h6
  rw [← hprompts] at h1
  rw [← hevicted] at h2
  rw [← haborts] at h4
  exact ⟨h1, h2, h3, h4, h5, h6⟩

/-- A step of the peer that has the step of the request. -/
theorem Aside.with_peer (h : Aside k p id P tokens i) (hstays : id ∉ vanished (p.peers i) e)
    (hfinished : e.finished_for id = (p.peers i).finished_for id)
    (hcommitted : e.committed id = (p.peers i).committed id) :
    Aside k (p.with_peer i e) id P tokens i where
  prompts := h.prompts
  evicted := by
    show id ∉ p.evicted ++ vanished (p.peers i) e
    rw [List.mem_append, or_iff_left hstays]
    exact h.evicted
  others := by
    intro j hj hne
    show Idle _ _ _ _ _ (Function.update p.peers i e j)
    rw [Function.update_of_ne hne]
    exact h.others j hj hne
  aborts := h.aborts
  finished := by
    show (Function.update p.peers i e 0).finished_for id = []
    by_cases hi : 0 = i
    · subst hi
      rw [Function.update_self, hfinished, h.finished]
    · rw [Function.update_of_ne hi, h.finished]
  committed := by
    show (Function.update p.peers i e 0).committed id = tokens
    by_cases hi : 0 = i
    · subst hi
      rw [Function.update_self, hcommitted, h.committed]
    · rw [Function.update_of_ne hi, h.committed]

/-- The peers stay in place. -/
theorem peers_with (hpeers : ∀ j < k, PeerAt k j (p.peers j)) (he : PeerAt k i e) :
    ∀ j < k, PeerAt k j ((p.with_peer i e).peers j) := by
  intro j hj
  show PeerAt k j (Function.update p.peers i e j)
  by_cases hji : j = i
  · subst hji
    rw [Function.update_self]
    exact he
  · rw [Function.update_of_ne hji]
    exact hpeers j hj

theorem with_peer_self (p : Pipeline) (i : Nat) (e : Executor) : (p.with_peer i e).peers i = e := by
  show Function.update p.peers i e i = e
  rw [Function.update_self]

/-- What is received alone. -/
theorem handle_one_eq (hpeer : PeerAt k i e) (h : handle_input_requests now [req] e = .ok ⟨⟩ e') :
    (if i = 0 then handle_first now else handle_next now) req e = .ok ⟨⟩ e' := by
  rw [handle_input_requests_eq hpeer] at h
  obtain ⟨⟨⟩, e₁, hone, hrest⟩ := bind_ok h
  cases hrest
  exact hone

/-! ## A request comes in -/

/-- A raw request that is accepted is due for its prefill. -/
theorem raw_request_due {max_sequence_length : Option Nat} {raw : RawRequest}
    (h : handle_raw_request max_sequence_length raw = .ok req) :
    Due 0 req.input_ids [] 0 [] req ∧ req.is_initial = true := by
  cases hprompt : raw.prompt with
  | error err =>
    unfold handle_raw_request at h
    rw [hprompt] at h
    cases h
  | ok ids =>
    rw [handle_raw_request_eq hprompt, initial_request.spec] at h
    obtain ⟨hne, _, rfl⟩ := h
    refine ⟨⟨rfl, rfl, fun _ => ⟨rfl, rfl, rfl, ?_, rfl⟩, fun h0 => absurd rfl h0⟩, rfl⟩
    exact List.length_pos_iff.mpr hne

theorem handle_first_enters (hinitial : req.is_initial = true)
    (h : handle_first now req e = .ok ⟨⟩ e') :
    ∃ s, e.scheduler.enque_request now req = .ok s ∧ e' = e.with_scheduler s := by
  unfold Request.is_initial at hinitial
  rcases hkind : req.kind with ⟨_, _⟩ | ⟨_, _, _⟩
  · rw [handle_first_initial hkind] at h
    exact enque_step_ok h
  · rw [hkind] at hinitial
    cases hinitial

theorem Unseen.submit {raw : RawRequest} (hk : 0 < k) (hpeer : PeerAt k 0 (p.peers 0))
    (h : Unseen k p req.request_id)
    (hraw : handle_raw_request (p.peers 0).max_sequence_length raw = .ok req)
    (hrun : handle_input_requests now [req] (p.peers 0) = .ok ⟨⟩ e) :
    OnItsWay c k { p.with_peer 0 e with
      prompts := Function.update p.prompts req.request_id (some req.input_ids) }
      req.request_id req.input_ids [] 0 .waiting := by
  obtain ⟨hdue, hinitial⟩ := raw_request_due hraw
  have hone := handle_one_eq hpeer hrun
  rw [if_pos rfl] at hone
  obtain ⟨s, hs, rfl⟩ := handle_first_enters hinitial hone
  have hwaits := (h.absent 0 hk).enque rfl hdue hs
  refine ⟨⟨Function.update_self .., ?_, ?_, h.aborts, ?_, ?_⟩, hk, rfl,
    ⟨[], fun h0 => absurd rfl h0, ?_⟩, h.forwards, ?_⟩
  · show req.request_id ∉ p.evicted ++ vanished (p.peers 0) _
    rw [List.mem_append, or_iff_left (new_not_vanished (h.absent 0 hk).running)]
    exact h.evicted
  · intro j hj hne
    show Idle j _ _ _ _ (Function.update p.peers 0 _ j)
    rw [Function.update_of_ne hne]
    exact idle_zero.mpr (h.absent j hj)
  · show (Function.update p.peers 0 _ 0).finished_for _ = []
    rw [Function.update_self]
    exact h.finished
  · show (Function.update p.peers 0 _ 0).committed _ = []
    rw [Function.update_self]
    exact h.committed
  · show Waits 0 _ _ _ _ (Function.update p.peers 0 _ 0)
    rw [Function.update_self]
    exact hwaits
  · exact (Logged.start h.passed hk).of_passed rfl

/-! ## A packet arrives -/

/-- The only one of its kind is taken out. -/
theorem filter_of_single {α : Type} {q : α → Bool} {x y : α} {before after : List α}
    (hx : q x = true) (h : (before ++ x :: after).filter q = [y]) :
    y = x ∧ (before ++ after).filter q = [] := by
  rw [List.filter_append, List.filter_cons_of_pos hx] at h
  rw [List.filter_append]
  cases hbefore : before.filter q with
  | nil =>
    rw [hbefore, List.nil_append] at h
    obtain ⟨hxy, hafter⟩ := List.cons.inj h
    exact ⟨hxy.symm, hafter⟩
  | cons z rest =>
    rw [hbefore] at h
    have hlength := congrArg List.length h
    simp at hlength

theorem arrived_id (e : Executor) (req : Request) : (arrived e req).request_id = req.request_id := by
  unfold arrived
  split
  · rfl
  · split <;> rfl

/-- Only the first peer moves the position. -/
theorem arrived_next (hpeer : PeerAt k i e) (hi : i ≠ 0) (req : Request) : arrived e req = req := by
  unfold arrived
  rw [hpeer.first]
  split
  · rfl
  · rw [if_neg (by simpa using hi)]

/-- What a request is due for survives the way. -/
theorem Due.landed {w : Wire} {flight : Flight} {new_id : String} (hi : i ≠ 0)
    (hdue : Due i P tokens d input r) (hid : r.request_id ≠ "") (hcarries : Carries w flight r)
    (hland : flight.lands w new_id = .ok req) :
    req.request_id = r.request_id ∧ Due i P tokens d input req := by
  obtain ⟨hreq, hstatus, _, _, hkind⟩ := hcarries.landed hid hland
  obtain ⟨_, hpos, ht, hne⟩ := hdue.packet hi
  refine ⟨hreq, hstatus.trans hdue.status, ?_, fun h0 => absurd h0 hi, fun _ => ?_⟩
  · unfold Request.total_length
    rw [hkind]
    exact hdue.length
  · refine ⟨?_, hpos, ?_, hne⟩
    · unfold Request.is_initial
      rw [hkind]
    · unfold Request.hidden_states
      rw [hkind]
      exact ht

/-- A packet that is due enters the scheduler. -/
theorem Due.enters (hi : i ≠ 0) (hdue : Due i P tokens d input req)
    (h : handle_next now req e = .ok ⟨⟩ e') :
    ∃ s, e.scheduler.enque_request now req = .ok s ∧ e' = e.with_scheduler s := by
  obtain ⟨_, ⟨hends, _⟩ | ⟨_, henters⟩⟩ := handle_next_cases h
  · obtain ⟨_, _, ht, _⟩ := hdue.packet hi
    unfold ends at hends
    rw [hdue.is_finished, ht] at hends
    cases hends
  · exact henters

section arrival

variable {flight : Flight} {before after : List Flight} {new_id : String}

/-- The packets of a request that is on its way: one that arrives is the one. -/
theorem OnItsWay.arrival {place : Place} (h : OnItsWay c k p id P tokens j place) (hi : i < k)
    (hflight : p.forwards i = before ++ flight :: after) (hid : flight.req.rid = id) :
    place = .flying ∧ i = next_peer k (j - 1) ∧ ∃ token output,
      Leaving c k (j - 1) id P tokens.length token output flight ∧
      Fed p id j tokens.length output ∧
      Logged k p id P (steps tokens.length j) (if j = k then tokens ++ [token] else tokens) ∧
      ∀ i' < k, Pipeline.flying_to { p with
        forwards := Function.update p.forwards i (before ++ after) } i' id = [] := by
  have hhere := h.here
  have hmem : flight ∈ p.flying_to i id := by
    unfold Pipeline.flying_to
    rw [hflight, List.mem_filter]
    exact ⟨by simp, by simpa using hid⟩
  cases place with
  | flying =>
    obtain ⟨_, _, _, _, token, output, flight', hleaving, hfed, hflying, hlogged⟩ := hhere
    have hto := hflying i hi
    by_cases hnext : i = next_peer k (j - 1)
    · rw [if_pos hnext] at hto
      have hto' : (before ++ flight :: after).filter (fun flight => decide (flight.req.rid = id)) =
          [flight'] := by
        rw [← hflight]
        exact hto
      obtain ⟨rfl, hnone⟩ := filter_of_single (by simpa using hid) hto'
      refine ⟨rfl, hnext, token, output, hleaving, hfed, hlogged, fun i' hi' => ?_⟩
      show (Function.update p.forwards i (before ++ after) i').filter _ = []
      by_cases hsame : i' = i
      · rw [hsame, Function.update_self]
        exact hnone
      · rw [Function.update_of_ne hsame]
        have hother := hflying i' hi'
        rw [if_neg (by rw [← hnext]; exact hsame)] at hother
        exact hother
    · rw [if_neg hnext] at hto
      rw [hto] at hmem
      cases hmem
  | waiting =>
    obtain ⟨_, _, _, hflying, _⟩ := hhere
    rw [hflying i hi] at hmem
    cases hmem
  | ready =>
    obtain ⟨_, _, hflying, _⟩ := hhere
    rw [hflying i hi] at hmem
    cases hmem
  | lost =>
    obtain ⟨_, _, _, hflying, _⟩ := hhere
    rw [hflying i hi] at hmem
    cases hmem

/-- A packet for a peer behind the first one makes its request wait, or ready. -/
theorem OnItsWay.deliver_packet (hi : i < k) (hpos : i ≠ 0) (hpeer : PeerAt k i (p.peers i))
    (hid : id ≠ "") (h : OnItsWay c k p id P tokens i .flying)
    (hflight : p.forwards i = before ++ flight :: after) (hrid : flight.req.rid = id)
    (hland : flight.lands c.wire new_id = .ok req)
    (hrun : handle_input_requests now [arrived (p.peers i) req] (p.peers i) = .ok ⟨⟩ e) :
    ∃ place, OnItsWay c k { p.with_peer i e with
      forwards := Function.update p.forwards i (before ++ after) } id P tokens i place := by
  obtain ⟨_, _, token, output, hleaving, hfed, hlogged, hflying⟩ := h.arrival hi hflight hrid
  obtain ⟨_, _, _, hidle, _⟩ := h.here
  have hidle := hidle i hi rfl
  obtain ⟨next_req, hcarries, hnext_id, hdue, _⟩ := hleaving.packet
  have hplace : i - 1 + 1 = i := by omega
  rw [hplace] at hdue
  have hne : next_req.request_id ≠ "" := by
    rw [hnext_id]
    exact hid
  obtain ⟨hreq, hdue⟩ := (hdue hi tokens).landed hpos hne hcarries hland
  have hone := handle_one_eq hpeer hrun
  rw [arrived_next hpeer hpos, if_neg hpos] at hone
  obtain ⟨s, hs, rfl⟩ := hdue.enters hpos hone
  rw [if_neg (ne_of_lt hi)] at hlogged
  have hself : (Function.update p.peers i ((p.peers i).with_scheduler s) i) =
      (p.peers i).with_scheduler s := Function.update_self ..
  by_cases hd : tokens.length = 0
  · have hnil := List.eq_nil_of_length_eq_zero hd
    rw [hd] at hidle hdue
    have hwaits := (idle_zero.mp hidle).enque (hreq.trans hnext_id) hdue hs
    have haside : Aside k (p.with_peer i ((p.peers i).with_scheduler s)) id P tokens i :=
      h.toAside.with_peer (new_not_vanished (idle_zero.mp hidle).running) rfl rfl
    refine ⟨.waiting, haside.of_same rfl rfl rfl rfl, hi, hnil,
      ⟨output, hfed.of_passed rfl, ?_⟩, hflying, hlogged.of_passed rfl⟩
    show Waits i id P tokens output (Function.update p.peers i _ i)
    rw [hself]
    exact hwaits
  · have hready := ((idle_rests hd).mp hidle).enque hd (hreq.trans hnext_id) hdue hs
    obtain ⟨r, hr, _⟩ := hready.running
    have haside : Aside k (p.with_peer i ((p.peers i).with_scheduler s)) id P tokens i :=
      h.toAside.with_peer (running_not_vanished hr) rfl rfl
    refine ⟨.ready, haside.of_same rfl rfl rfl rfl, hi, ⟨output, hfed.of_passed rfl, ?_⟩, hflying,
      hlogged.of_passed rfl⟩
    show Ready i id P tokens tokens.length output (Function.update p.peers i _ i)
    rw [hself]
    exact hready

/-- A token lands with its request. -/
theorem Leaving.token_lands {token : Int} {output : Tensor} (hid : id ≠ "")
    (hleaving : Leaving c k i id P d token output flight) (hlast : i + 1 = k)
    (hland : flight.lands c.wire new_id = .ok req) :
    req.request_id = id ∧ ∃ position t, req.kind = .intermediate position t (some token) := by
  obtain ⟨next_req, hcarries, hnext_id, _, htoken⟩ := hleaving.packet
  obtain ⟨_, position, t, hkind⟩ := htoken hlast
  have hne : next_req.request_id ≠ "" := by
    rw [hnext_id]
    exact hid
  obtain ⟨hreq, _, _, _, hreq_kind⟩ := hcarries.landed hne hland
  have hnext : next_req.next_token_id = some token := by
    unfold Request.next_token_id
    rw [hkind]
  rw [hnext] at hreq_kind
  exact ⟨hreq.trans hnext_id, _, _, hreq_kind⟩

theorem arrived_token {position : Nat} {t : Option Tensor} {token : Int}
    (hkind : req.kind = .intermediate position t (some token)) (e : Executor) :
    ∃ position', (arrived e req).kind = .intermediate position' t (some token) := by
  unfold arrived
  rw [hkind]
  dsimp only
  split
  · exact ⟨position + 1, rfl⟩
  · exact ⟨position, hkind⟩

/-- A token for the first peer: its request goes on with the next step, or it ends. -/
theorem OnItsWay.deliver_token (hk : 1 < k) (hpeer : PeerAt k 0 (p.peers 0)) (hid : id ≠ "")
    (h : OnItsWay c k p id P tokens k .flying)
    (hflight : p.forwards 0 = before ++ flight :: after) (hrid : flight.req.rid = id)
    (hland : flight.lands c.wire new_id = .ok req)
    (hrun : handle_input_requests now [arrived (p.peers 0) req] (p.peers 0) = .ok ⟨⟩ e) :
    Traced c k { p.with_peer 0 e with
      forwards := Function.update p.forwards 0 (before ++ after) } id := by
  have hpos : 0 < k := by omega
  obtain ⟨_, _, token, output, hleaving, _, hlogged, hflying⟩ := h.arrival hpos hflight hrid
  obtain ⟨hreq, position, t, hkind⟩ := hleaving.token_lands hid (by omega) hland
  obtain ⟨position', hkind'⟩ := arrived_token hkind (p.peers 0)
  have hone := handle_one_eq hpeer hrun
  rw [if_pos rfl] at hone
  have hothers : ∀ j < k, Idle j id P tokens (tokens.length + 1) (p.peers j) := by
    intro j hj
    have hidle := h.others j hj (ne_of_lt hj)
    rwa [steps_round _ hj] at hidle
  have hrests := (idle_rests (Nat.succ_ne_zero _)).mp (hothers 0 hpos)
  obtain ⟨hcommitted, hcases⟩ := hrests.commit hpeer ((arrived_id _ _).trans hreq) hkind' hone
  rw [h.committed] at hcommitted
  rw [h.finished] at hcases
  rw [if_pos rfl] at hlogged
  have hself : Function.update p.peers 0 e 0 = e := Function.update_self ..
  have hothers' : ∀ j < k, j ≠ 0 → Function.update p.peers 0 e j = p.peers j :=
    fun j _ hj => Function.update_of_ne hj ..
  rcases hcases with ⟨hready, hfinished⟩ | ⟨habsent, hfinished⟩
  · have hlength : (tokens ++ [token]).length = tokens.length + 1 := by simp
    obtain ⟨r, hr, _⟩ := hready.running
    suffices hway : OnItsWay c k { p.with_peer 0 e with
        forwards := Function.update p.forwards 0 (before ++ after) } id P (tokens ++ [token]) 0
        .ready from .on_its_way hid hway
    refine ⟨⟨h.prompts, ?_, ?_, h.aborts, ?_, ?_⟩, hpos,
      ⟨[], fun h0 => absurd rfl h0, ?_⟩, hflying, ?_⟩
    · show id ∉ p.evicted ++ vanished (p.peers 0) e
      rw [List.mem_append, or_iff_left (running_not_vanished hr)]
      exact h.evicted
    · intro j hj hne
      show Idle _ _ _ _ _ (Function.update p.peers 0 e j)
      rw [hothers' j hj hne, hlength]
      exact (hothers j hj).with_tokens hne _
    · show (Function.update p.peers 0 e 0).finished_for id = []
      rw [hself, hfinished]
    · show (Function.update p.peers 0 e 0).committed id = _
      rw [hself, hcommitted]
    · show Ready 0 id P _ _ _ (Function.update p.peers 0 e 0)
      rw [hself, hlength]
      exact hready
    · rw [hlength]
      exact (hlogged.of_steps hpos (fun j hj => (steps_round _ hj).symm)).of_passed rfl
  · have hlast : (p.peers 0).is_last_peer = false := by
      rw [hpeer.last]
      exact decide_eq_false (by omega)
    rw [hlast, if_neg Bool.false_ne_true, List.nil_append] at hfinished
    refine .ended hid ⟨h.prompts, ?_, ?_, hflying, tokens.length + 1, ?_⟩
    · show Absent id (Function.update p.peers 0 e 0)
      rw [hself]
      exact habsent
    · intro j hj hne
      right
      show (∃ P tokens d, Rests j id P tokens d (Function.update p.peers 0 e j)) ∧
        ((Function.update p.peers 0 e 0).finished_for id).length + (p.aborts_to j id).length = 1
      rw [hothers' j hj hne, hself, hfinished, h.aborts j hj]
      exact ⟨⟨P, tokens, _, (idle_rests (Nat.succ_ne_zero _)).mp (hothers j hj)⟩, rfl⟩
    · show Logged k _ id P _ ((Function.update p.peers 0 e 0).committed id)
      rw [hself, hcommitted]
      exact (hlogged.of_steps hpos (fun j hj => (steps_round _ hj).symm)).of_passed rfl

theorem Untouched.handles (hpeer : PeerAt k i (p.peers i)) (hne : req.request_id ≠ id)
    (hrun : handle_input_requests now [req] (p.peers i) = .ok ⟨⟩ e) :
    Untouched k id p (p.with_peer i e) :=
  .with_peer (handle_one_spares hpeer hne (handle_one_eq hpeer hrun))

/-- A request whose packet is on the way is on its way. -/
theorem Traced.of_flying (h : Traced c k p id) (hi : i < k)
    (hflight : p.forwards i = before ++ flight :: after) (hid : flight.req.rid = id) :
    id ≠ "" ∧ ∃ P tokens j place, OnItsWay c k p id P tokens j place := by
  have hmem : flight ∈ p.flying_to i id := by
    unfold Pipeline.flying_to
    rw [hflight, List.mem_filter]
    exact ⟨by simp, by simpa using hid⟩
  cases h with
  | unseen h =>
    rw [h.forwards i hi] at hmem
    cases hmem
  | on_its_way hne h => exact ⟨hne, _, _, _, _, h⟩
  | ended _ h =>
    rw [h.forwards i hi] at hmem
    cases hmem

theorem Sound.deliver (hk : 0 < k) (h : Sound c k p) (hi : i < k)
    (hflight : p.forwards i = before ++ flight :: after)
    (hland : flight.lands c.wire new_id = .ok req)
    (hrun : handle_input_requests now [arrived (p.peers i) req] (p.peers i) = .ok ⟨⟩ e) :
    Sound c k { p.with_peer i e with
      forwards := Function.update p.forwards i (before ++ after) } := by
  have hpeer := h.peers i hi
  obtain ⟨hne, P, tokens, j, place, hway⟩ := (h.traced flight.req.rid).of_flying hi hflight rfl
  have hreq : (arrived (p.peers i) req).request_id = flight.req.rid :=
    (arrived_id _ _).trans (lands_id hne hland)
  refine ⟨peers_with h.peers (handle_one_keeps hpeer (handle_one_eq hpeer hrun)), fun id => ?_⟩
  by_cases hid : flight.req.rid = id
  · subst hid
    obtain ⟨rfl, hnext, _⟩ := hway.arrival hi hflight rfl
    obtain ⟨hpos, hle, hlt, _⟩ := hway.here
    by_cases hround : j = k
    · subst hround
      rw [next_peer_last (by omega)] at hnext
      subst hnext
      exact hway.deliver_token hlt hpeer hne hflight rfl hland hrun
    · rw [next_peer_of_lt (by omega)] at hnext
      have hplace : i = j := by omega
      subst hplace
      obtain ⟨place, hthere⟩ := hway.deliver_packet hi (by omega) hpeer hne hflight rfl hland hrun
      exact .on_its_way hne hthere
  · have hother := Untouched.arrive (k := k) hflight hid
    refine (h.traced id).untouched hk (hother.trans (Untouched.handles hpeer ?_ hrun))
    rw [hreq]
    exact hid

end arrival

/-- A request comes in. -/
theorem Sound.submit {raw : RawRequest} (hk : 0 < k) (h : Sound c k p)
    (hraw : handle_raw_request (p.peers 0).max_sequence_length raw = .ok req)
    (hid : req.request_id ≠ "") (hnew : p.prompts req.request_id = none)
    (hrun : handle_input_requests now [req] (p.peers 0) = .ok ⟨⟩ e) :
    Sound c k { p.with_peer 0 e with
      prompts := Function.update p.prompts req.request_id (some req.input_ids) } := by
  have hpeer := h.peers 0 hk
  refine ⟨peers_with h.peers (handle_one_keeps hpeer (handle_one_eq hpeer hrun)), fun id => ?_⟩
  by_cases hsame : req.request_id = id
  · subst hsame
    cases h.traced req.request_id with
    | unseen hunseen => exact .on_its_way hid (hunseen.submit hk hpeer hraw hrun)
    | on_its_way _ hway => exact absurd (hway.prompts.symm.trans hnew) (by simp)
    | ended _ hended => exact absurd (hended.prompts.symm.trans hnew) (by simp)
  · have hu : Untouched k id p (p.with_peer 0 e) := Untouched.handles hpeer hsame hrun
    refine (h.traced id).untouched hk ⟨hu.peers, hu.forwards, hu.aborts, ?_, hu.passed, hu.evicted⟩
    exact Function.update_of_ne (Ne.symm hsame) ..

/-! ## The end of a request -/

/-- A step of a peer that spares each request. -/
theorem Sound.spared (hk : 0 < k) (h : Sound c k p) (he : PeerAt k i e)
    (hspares : ∀ id, Spares id (p.peers i) e) : Sound c k (p.with_peer i e) :=
  ⟨peers_with h.peers he, fun id => (h.traced id).untouched hk (.with_peer (hspares id))⟩

/-- The aborts that are sent of a request are those that its first peer owed. -/
theorem aborts_of_finished (e : Executor) (id : String) :
    ((abort_request_to_proto e.finished_batch).reqs.filter (fun req => req.rid = id)).length =
      (e.finished_for id).length := by
  unfold abort_request_to_proto Executor.finished_for
  rw [List.filter_map, List.length_map]
  rfl

/-- The first peer has told of its finished requests, and nothing else has changed. -/
structure Told (id : String) (e e' : Executor) : Prop where
  waiting : e'.waiting_for id = e.waiting_for id
  running : e'.running id = e.running id
  cache : e'.cache = e.cache
  committed : e'.committed id = e.committed id
  finished : e'.finished_for id = []

theorem send_finished_batch.spec {e : Executor} (hpeer : PeerAt k 0 e) (id : String) :
    PeerAt k 0 (send_finished_batch e) ∧ Told id e (send_finished_batch e) := by
  unfold send_finished_batch
  split
  · exact ⟨⟨hpeer.first, hpeer.last, hpeer.scheduler_first, hpeer.eos, hpeer.running, hpeer.cache⟩,
      rfl, rfl, rfl, rfl, rfl⟩
  · rename_i hnone
    have hfirst : e.is_first_peer = true := hpeer.first
    have hnil : e.finished_batch = [] :=
      List.eq_nil_of_length_eq_zero (by simpa [hfirst] using hnone)
    refine ⟨hpeer, rfl, rfl, rfl, rfl, ?_⟩
    unfold Executor.finished_for
    rw [hnil]
    rfl

theorem Told.spares (h : Told id e e') (hnone : e.finished_for id = []) : Spares id e e' := by
  refine ⟨h.waiting, by rw [h.running], fun m hm => ⟨m, ?_, .refl id m⟩, h.committed, ?_⟩
  · rw [h.cache, hm]
  · rw [h.finished, hnone]

theorem Told.absent (h : Told id e e') (habsent : Absent id e) : Absent id e' := by
  refine ⟨h.waiting.trans habsent.waiting, h.running.trans habsent.running, ?_⟩
  rw [h.cache]
  exact habsent.cache

/-- The aborts are on their way to each peer that still has the request. -/
theorem Ended.tell (hended : Ended k p id P) (htold : Told id (p.peers 0) e) {reqs : List Req}
    (hlength : (reqs.filter (fun req => req.rid = id)).length =
      ((p.peers 0).finished_for id).length) :
    Ended k ((p.with_peer 0 e).broadcast reqs) id P := by
  have hself : Function.update p.peers 0 e 0 = e := Function.update_self ..
  refine ⟨hended.prompts, ?_, ?_, hended.forwards, ?_⟩
  · show Absent id (Function.update p.peers 0 e 0)
    rw [hself]
    exact htold.absent hended.first
  · intro j hj hne
    have hpeers : Function.update p.peers 0 e j = p.peers j := Function.update_of_ne hne ..
    have haborts : ((p.with_peer 0 e).broadcast reqs).aborts_to j id =
        p.aborts_to j id ++ reqs.filter (fun req => req.rid = id) := by
      unfold Pipeline.aborts_to Pipeline.broadcast
      dsimp only
      rw [if_neg hne, List.filter_append]
      rfl
    show Absent id (Function.update p.peers 0 e j) ∧
        (Function.update p.peers 0 e 0).finished_for id = [] ∧ _ = [] ∨
      (∃ P tokens d, Rests j id P tokens d (Function.update p.peers 0 e j)) ∧
        ((Function.update p.peers 0 e 0).finished_for id).length + List.length _ = 1
    rw [hself, hpeers, haborts, htold.finished]
    rcases hended.others j hj hne with ⟨habsent, hnone, hnone'⟩ | ⟨hrests, hsum⟩
    · left
      rw [hnone] at hlength
      rw [hnone', List.eq_nil_of_length_eq_zero hlength]
      exact ⟨habsent, rfl, rfl⟩
    · right
      refine ⟨hrests, ?_⟩
      rw [List.length_append, hlength, List.length_nil]
      omega
  · obtain ⟨n, hlogged⟩ := hended.logged
    refine ⟨n, ?_⟩
    show Logged k _ id P _ ((Function.update p.peers 0 e 0).committed id)
    rw [hself, htold.committed]
    exact hlogged.of_passed rfl

theorem Sound.send_finished_batch (hk : 0 < k) (h : Sound c k p) :
    Sound c k ((p.with_peer 0 (executor.send_finished_batch (p.peers 0))).broadcast
      (abort_request_to_proto (p.peers 0).finished_batch).reqs) := by
  have hspec := fun id => send_finished_batch.spec (h.peers 0 hk) id
  refine ⟨peers_with h.peers (hspec "").1, fun id => ?_⟩
  have htold := (hspec id).2
  have hlength := aborts_of_finished (p.peers 0) id
  have hspared : (p.peers 0).finished_for id = [] →
      Untouched k id p ((p.with_peer 0 (executor.send_finished_batch (p.peers 0))).broadcast
        (abort_request_to_proto (p.peers 0).finished_batch).reqs) := by
    intro hnone
    rw [hnone] at hlength
    exact (Untouched.with_peer (htold.spares hnone)).trans
      (Untouched.broadcast _ (List.eq_nil_of_length_eq_zero hlength))
  cases h.traced id with
  | unseen hunseen => exact .unseen (hunseen.untouched hk (hspared hunseen.finished))
  | on_its_way hid hway => exact .on_its_way hid (hway.untouched hk (hspared hway.finished))
  | ended hid hended => exact .ended hid (hended.tell htold hlength)

section abort

variable {proto_req : Req} {before after : List Req} {new_id : String}

/-- An abort is for a request that ended, and its peer still has it. -/
theorem Traced.of_abort (h : Traced c k p id) (hi : i < k) (hpos : i ≠ 0)
    (habort : p.aborts i = before ++ proto_req :: after) (hid : proto_req.rid = id) :
    id ≠ "" ∧ (∃ P, Ended k p id P) ∧ (∃ P tokens d, Rests i id P tokens d (p.peers i)) ∧
      (p.peers 0).finished_for id = [] ∧ p.aborts_to i id = [proto_req] := by
  have hmem : proto_req ∈ p.aborts_to i id := by
    unfold Pipeline.aborts_to
    rw [habort, List.mem_filter]
    exact ⟨by simp, by simpa using hid⟩
  cases h with
  | unseen h =>
    rw [h.aborts i hi] at hmem
    cases hmem
  | on_its_way _ h =>
    rw [h.aborts i hi] at hmem
    cases hmem
  | ended hne h =>
    rcases h.others i hi hpos with ⟨_, _, hnone⟩ | ⟨hrests, hsum⟩
    · rw [hnone] at hmem
      cases hmem
    · have hpositive := List.length_pos_of_mem hmem
      have hone : (p.aborts_to i id).length = 1 := by omega
      obtain ⟨only, honly⟩ := List.length_eq_one_iff.mp hone
      rw [honly, List.mem_singleton] at hmem
      subst hmem
      exact ⟨hne, ⟨_, h⟩, hrests, List.eq_nil_of_length_eq_zero (by omega), honly⟩

theorem Sound.deliver_abort (hk : 0 < k) (h : Sound c k p) (hi : i < k) (hpos : i ≠ 0)
    (habort : p.aborts i = before ++ proto_req :: after)
    (hland : proto_to_abort_request new_id { reqs := [proto_req] } = .ok [req])
    (hrun : handle_input_requests now [req] (p.peers i) = .ok ⟨⟩ e) :
    Sound c k { p.with_peer i e with
      aborts := Function.update p.aborts i (before ++ after) } := by
  have hpeer := h.peers i hi
  obtain ⟨hne, ⟨P, hended⟩, ⟨_, tokens, d, hrests⟩, hnone, hone⟩ :=
    (h.traced proto_req.rid).of_abort hi hpos habort rfl
  obtain ⟨hreq, hfinished, _⟩ := abort_lands hne hland
  refine ⟨peers_with h.peers (handle_one_keeps hpeer (handle_one_eq hpeer hrun)), fun id => ?_⟩
  by_cases hid : proto_req.rid = id
  · subst hid
    have hhandled := handle_one_eq hpeer hrun
    rw [if_neg hpos] at hhandled
    have habsent : Absent proto_req.rid e := by
      obtain ⟨_, ⟨_, hfinish⟩ | ⟨hopen, _⟩⟩ := handle_next_cases hhandled
      · exact hrests.finish hpeer hreq hfinish
      · unfold ends at hopen
        rw [hfinished] at hopen
        cases hopen
    have hself : Function.update p.peers i e i = e := Function.update_self ..
    have hfirst : Function.update p.peers i e 0 = p.peers 0 :=
      Function.update_of_ne (Ne.symm hpos) ..
    refine .ended (P := P) hne ⟨hended.prompts, ?_, ?_, hended.forwards, ?_⟩
    · show Absent _ (Function.update p.peers i e 0)
      rw [hfirst]
      exact hended.first
    · intro j hj hj0
      show Absent _ (Function.update p.peers i e j) ∧
          (Function.update p.peers i e 0).finished_for _ = [] ∧
          (Function.update p.aborts i (before ++ after) j).filter _ = [] ∨
        (∃ P tokens d, Rests j _ P tokens d (Function.update p.peers i e j)) ∧
          ((Function.update p.peers i e 0).finished_for _).length +
            ((Function.update p.aborts i (before ++ after) j).filter _).length = 1
      rw [hfirst]
      by_cases hji : j = i
      · subst hji
        left
        rw [hself, Function.update_self]
        refine ⟨habsent, hnone, ?_⟩
        have hlist : (before ++ proto_req :: after).filter
            (fun req => decide (req.rid = proto_req.rid)) = [proto_req] := by
          rw [← habort]
          exact hone
        exact (filter_of_single (by simp) hlist).2
      · rw [Function.update_of_ne hji, Function.update_of_ne hji]
        exact hended.others j hj hj0
    · obtain ⟨n, hlogged⟩ := hended.logged
      refine ⟨n, ?_⟩
      show Logged k _ _ P _ ((Function.update p.peers i e 0).committed _)
      rw [hfirst]
      exact hlogged.of_passed rfl
  · have hother := Untouched.arrive_abort (k := k) habort hid
    refine (h.traced id).untouched hk (hother.trans (Untouched.handles hpeer ?_ hrun))
    rw [hreq]
    exact hid

end abort

end parallax.server.executor
