-- What a batch does to one of its requests (base_executor.py, `run_loop` and
-- `prepare_next_batch_requests`): it goes through the model once, with one context
-- length, and one packet leaves for the next peer. The other requests are left alone.
import InferenceMesh.Server.BatchRows
import InferenceMesh.Server.BatchTurn

open ordered_dict python state_exn
open parallax.server.cache_manager parallax.server.request parallax.server.scheduler
open parallax.server.mlx_executor parallax.p2p.message_util

namespace parallax.server.executor

variable {now k i d : Nat} {P tokens : List Int} {input : Tensor} {e e' : Executor} {id : String}
  {r req next_req : Request} {c : Setup} {pass : ForwardPass} {b b' : Batch}

/-! ## The packet for the next peer -/

theorem next_request_id {hidden_states : Tensor} {token : Int}
    (h : prepare_next_single_request e req hidden_states token = .ok next_req) :
    next_req.request_id = req.request_id := by
  unfold prepare_next_single_request at h
  split at h
  · cases h
    rfl
  · split at h
    · split at h
      · cases h
      · cases h
        rfl
    · split at h
      · split at h
        · cases h
          rfl
        · cases h
      · split at h
        · cases h
        · cases h
          rfl

theorem next_hidden_states {hidden_states : Tensor} {token : Int} (hopen : req.is_finished = false)
    (h : prepare_next_single_request e req hidden_states token = .ok next_req) :
    ∃ t, next_req.hidden_states = some t := by
  unfold prepare_next_single_request at h
  split at h
  · cases h
    exact ⟨_, rfl⟩
  · split at h
    · split at h
      · cases h
      · cases h
        exact ⟨_, rfl⟩
    · split at h
      · split at h
        · cases h
          rw [hopen]
          exact ⟨hidden_states, rfl⟩
        · cases h
      · split at h
        · cases h
        · cases h
          exact ⟨_, rfl⟩

/-- Before the last peer the packet has what the next peer needs. -/
theorem next_due {hidden_states : Tensor} {token : Int} (hpeer : PeerAt k i e) (hlt : i + 1 < k)
    (hdue : Due i P tokens d input req) (hrows : hidden_states ≠ [])
    (h : prepare_next_single_request e req hidden_states token = .ok next_req)
    (others : List Int) : Due (i + 1) P others d hidden_states next_req := by
  have hlast : e.is_last_peer = false := by
    rw [hpeer.last]
    exact decide_eq_false (by omega)
  unfold prepare_next_single_request at h
  rw [hlast, Bool.false_and, if_neg Bool.false_ne_true, if_neg Bool.false_ne_true, hpeer.first] at h
  by_cases hi : i = 0
  · rw [if_pos (decide_eq_true hi), if_pos (hdue.own hi).initial, hdue.is_finished] at h
    cases h
    exact ⟨hdue.status, hdue.length, fun h0 => absurd h0 (Nat.succ_ne_zero i),
      fun _ => ⟨rfl, (hdue.own hi).some_ids, rfl, hrows⟩⟩
  · obtain ⟨hpacket, hpos, _⟩ := hdue.packet hi
    rw [if_neg (by simpa using hi), hpacket, if_neg Bool.false_ne_true] at h
    cases h
    exact ⟨hdue.status, hdue.length, fun h0 => absurd h0 (Nat.succ_ne_zero i),
      fun _ => ⟨rfl, hpos, rfl, hrows⟩⟩

/-- The last peer makes a packet with a token. -/
theorem next_token {hidden_states : Tensor} {token : Int} (hpeer : PeerAt k i e) (hlast : i + 1 = k)
    (h : prepare_next_single_request e req hidden_states token = .ok next_req) :
    ∃ position t, next_req.kind = .intermediate position (some t) (some token) ∧
      next_req.status = .DECODING := by
  have hlast' : e.is_last_peer = true := by
    rw [hpeer.last]
    exact decide_eq_true hlast
  unfold prepare_next_single_request at h
  rw [hlast'] at h
  split at h
  · cases h
    exact ⟨_, _, rfl, rfl⟩
  · rw [if_pos rfl] at h
    split at h
    · cases h
    · cases h
      exact ⟨_, _, rfl, rfl⟩

/-! ## One request of a part of the batch -/

/-- The packets keep the ids, in their order. -/
theorem prepare_next_ids {j : Nat} {reqs next_batch : List Request}
    (h : prepare_next_from e pass j reqs = .ok next_batch) :
    next_batch.map Request.request_id = reqs.map Request.request_id := by
  induction reqs generalizing j next_batch with
  | nil =>
    cases h
    rfl
  | cons req rest ih =>
    obtain ⟨next_req, hone, h⟩ := except_list.bind_eq_ok.mp h
    obtain ⟨others, hrest, h⟩ := except_list.bind_eq_ok.mp h
    cases h
    rw [List.map_cons, List.map_cons, next_request_id hone, ih hrest]

/-- What holds of each packet that is made of a request. -/
theorem prepare_next_forall {Q : Request → Prop} {j : Nat} {reqs next_batch : List Request}
    (hone : ∀ req ∈ reqs, ∀ i next_req,
      prepare_next_single_request e req (pass.hidden_states i) (pass.tokens i) = .ok next_req →
        Q next_req)
    (h : prepare_next_from e pass j reqs = .ok next_batch) : ∀ next_req ∈ next_batch, Q next_req := by
  induction reqs generalizing j next_batch with
  | nil =>
    cases h
    exact fun _ hmem => absurd hmem List.not_mem_nil
  | cons req rest ih =>
    obtain ⟨next_req, hfirst, h⟩ := except_list.bind_eq_ok.mp h
    obtain ⟨others, hrest, h⟩ := except_list.bind_eq_ok.mp h
    cases h
    exact List.forall_mem_cons.mpr ⟨hone req List.mem_cons_self _ _ hfirst,
      ih (fun req' hreq' => hone req' (List.mem_cons_of_mem req hreq')) hrest⟩

/-- The packet of one request among the others. -/
theorem prepare_next_at {before after next_batch : List Request} {j : Nat}
    (h : prepare_next_from e pass j (before ++ req :: after) = .ok next_batch) :
    ∃ n₁ next_req n₂, next_batch = n₁ ++ next_req :: n₂ ∧
      prepare_next_single_request e req (pass.hidden_states (j + before.length))
        (pass.tokens (j + before.length)) = .ok next_req ∧
      n₁.map Request.request_id = before.map Request.request_id ∧
      n₂.map Request.request_id = after.map Request.request_id := by
  induction before generalizing j next_batch with
  | nil =>
    obtain ⟨next_req, hone, h⟩ := except_list.bind_eq_ok.mp h
    obtain ⟨others, hrest, h⟩ := except_list.bind_eq_ok.mp h
    cases h
    exact ⟨[], next_req, others, rfl, hone, rfl, prepare_next_ids hrest⟩
  | cons first rest ih =>
    obtain ⟨next_first, hone, h⟩ := except_list.bind_eq_ok.mp h
    obtain ⟨others, hrest, h⟩ := except_list.bind_eq_ok.mp h
    cases h
    obtain ⟨n₁, next_req, n₂, rfl, hnext, h₁, h₂⟩ := ih hrest
    have hplace : j + 1 + rest.length = j + (first :: rest).length := by
      rw [List.length_cons]
      omega
    rw [hplace] at hnext
    refine ⟨next_first :: n₁, next_req, n₂, rfl, hnext, ?_, h₂⟩
    rw [List.map_cons, List.map_cons, next_request_id hone, h₁]

/-- The forward pass of others. -/
theorem passed_from_others {reqs : List Request} {lengths : List Nat} {j : Nat}
    (hne : ∀ req ∈ reqs, req.request_id ≠ id) :
    (passed_from pass j reqs lengths).filter (fun p => p.request.request_id = id) = [] := by
  induction reqs generalizing j lengths with
  | nil => rfl
  | cons req rest ih =>
    cases lengths with
    | nil => rfl
    | cons length lengths =>
      rw [passed_from, List.filter_cons_of_neg (by simpa using hne req List.mem_cons_self)]
      exact ih (fun req' hreq' => hne req' (List.mem_cons_of_mem req hreq'))

/-- The forward pass of one request among the others. -/
theorem passed_from_at (pass : ForwardPass) (j : Nat) {R : Request → Nat → Prop}
    {before after : List Request} {lengths : List Nat} (hid : req.request_id = id)
    (hbefore : ∀ r ∈ before, r.request_id ≠ id) (hafter : ∀ r ∈ after, r.request_id ≠ id)
    (h : List.Forall₂ R (before ++ req :: after) lengths) :
    ∃ length, R req length ∧ (passed_from pass j (before ++ req :: after) lengths).filter
      (fun p => p.request.request_id = id) =
        [⟨req, length, pass.tokens (j + before.length),
          pass.hidden_states (j + before.length)⟩] := by
  induction before generalizing j lengths with
  | nil =>
    obtain ⟨length, rest, hR, hrest, rfl⟩ := List.forall₂_cons_left_iff.mp h
    refine ⟨length, hR, ?_⟩
    rw [List.nil_append, passed_from, List.filter_cons_of_pos (by simpa using hid),
      passed_from_others hafter]
    rfl
  | cons first rest ih =>
    obtain ⟨length, lengths', _, hrest, rfl⟩ := List.forall₂_cons_left_iff.mp h
    obtain ⟨length', hR, hfilter⟩ :=
      ih (j + 1) (fun r hr => hbefore r (List.mem_cons_of_mem first hr)) hrest
    have hplace : j + 1 + rest.length = j + (first :: rest).length := by
      rw [List.length_cons]
      omega
    rw [hplace] at hfilter
    refine ⟨length', hR, ?_⟩
    rw [List.cons_append, passed_from,
      List.filter_cons_of_neg (by simpa using hbefore first List.mem_cons_self)]
    exact hfilter

/-! ## One part of the batch -/

namespace Batch

/-- The packets of the request that were sent. -/
def sent_for (b : Batch) (id : String) : List Flight :=
  (b.sent.flatMap flights).filter (fun flight => flight.req.rid = id)

/-- The forward passes that the request went through. -/
def passed_for (b : Batch) (id : String) : List Passed :=
  b.passed.filter (fun p => p.request.request_id = id)

end Batch

/-- A step of the batch leaves the request alone. -/
structure PartSpares (id : String) (b b' : Batch) : Prop where
  spares : Spares id b.peer b'.peer
  sent : b'.sent_for id = b.sent_for id
  passed : b'.passed_for id = b.passed_for id

theorem PartSpares.refl (id : String) (b : Batch) : PartSpares id b b := ⟨.refl id _, rfl, rfl⟩

/-- A request goes through the model, and its packet leaves. A single node handles the packet. -/
structure Stepped (c : Setup) (now k i : Nat) (id : String) (r : Request) (length : Nat)
    (b b' : Batch) : Prop where
  passed : ∃ (token : Int) (hidden_states : Tensor),
    b'.passed_for id = b.passed_for id ++ [⟨r, length, token, hidden_states⟩] ∧
    ∃ next_req : Request, hidden_states ≠ [] ∧
      prepare_next_single_request b.peer r hidden_states token = .ok next_req ∧
      ((k ≠ 1 ∧ b'.peer = b.peer ∧ ∃ flight, b'.sent_for id = b.sent_for id ++ [flight] ∧
          Carries c.wire flight next_req) ∨
        (k = 1 ∧ b'.sent_for id = b.sent_for id ∧ ∃ e₁ e₂, Spares id b.peer e₁ ∧
          PeerAt k i e₁ ∧ handle_first now next_req e₁ = .ok ⟨⟩ e₂ ∧ Spares id e₂ b'.peer))

theorem on_peer_ok {step : ExecutorM PUnit} (h : on_peer step b = .ok ⟨⟩ b') :
    ∃ e', step b.peer = .ok ⟨⟩ e' ∧ b' = { b with peer := e' } := by
  unfold on_peer at h
  rw [get_bind] at h
  cases hstep : step b.peer with
  | ok u e' =>
    rw [hstep] at h
    cases h
    exact ⟨e', rfl, rfl⟩
  | error err e' =>
    rw [hstep] at h
    cases h

theorem dispatch_cases {next_batch : List Request} (hpeer : PeerAt k i b.peer) (hi : i < k)
    (h : dispatch c now next_batch b = .ok ⟨⟩ b') :
    (k = 1 ∧ i = 0 ∧ ∃ e', next_batch.forM (handle_first now) b.peer = .ok ⟨⟩ e' ∧
        b' = { b with peer := e' }) ∨
      (k ≠ 1 ∧ ∃ message, request_to_proto c.wire c.device next_batch = .ok message ∧
        b' = { b with sent := b.sent ++ [message] }) := by
  unfold dispatch at h
  rw [get_bind, hpeer.first, hpeer.last] at h
  by_cases hk : k = 1
  · have hi0 : i = 0 := by omega
    subst hk hi0
    rw [if_pos (by decide)] at h
    refine Or.inl ⟨rfl, rfl, ?_⟩
    obtain ⟨e', hrun, rfl⟩ := on_peer_ok h
    rw [handle_input_requests_eq hpeer, if_pos rfl] at hrun
    exact ⟨e', hrun, rfl⟩
  · refine Or.inr ⟨hk, ?_⟩
    rw [if_neg (by simp only [Bool.and_eq_true, decide_eq_true_eq]; omega)] at h
    cases hmessage : request_to_proto c.wire c.device next_batch with
    | error err =>
      rw [hmessage] at h
      cases h
    | ok message =>
      rw [hmessage] at h
      cases h
      exact ⟨message, rfl, rfl⟩

theorem sent_for_append (b : Batch) (message : ForwardRequest) (id : String) :
    ({ b with sent := b.sent ++ [message] } : Batch).sent_for id =
      b.sent_for id ++ (flights message).filter (fun flight => flight.req.rid = id) := by
  unfold Batch.sent_for
  rw [List.flatMap_append, List.filter_append, List.flatMap_singleton]

/-- A part of a batch that was prepared: the model ran and its packets were dispatched. -/
theorem process_part_cases {forward : Except Exn ForwardPass} {inputs : Option BatchInputs}
    (h : process_part c now forward inputs b = .ok ⟨⟩ b') :
    inputs = none ∧ b' = b ∨ ∃ (batch_inputs : BatchInputs) (pass : ForwardPass)
      (next_batch : List Request), inputs = some batch_inputs ∧
        prepare_next_from b.peer pass 0 batch_inputs.requests = .ok next_batch ∧
        dispatch c now next_batch { b with passed := b.passed ++ passed_by batch_inputs pass } =
          .ok ⟨⟩ b' := by
  unfold process_part at h
  split at h
  · cases h
    exact Or.inl ⟨rfl, rfl⟩
  · rename_i batch_inputs
    split at h
    · cases h
    · rename_i pass
      rw [modify_bind, get_bind] at h
      cases hnext : prepare_next_batch_requests b.peer batch_inputs.requests pass with
      | error err =>
        rw [hnext] at h
        cases h
      | ok next_batch =>
        rw [hnext] at h
        exact Or.inr ⟨batch_inputs, pass, next_batch, rfl, hnext, h⟩

theorem flights_filter (hw : c.wire.Lawful) {next_batch : List Request} {message : ForwardRequest}
    (hhidden : ∀ r ∈ next_batch, ∃ t, r.hidden_states = some t)
    (h : request_to_proto c.wire c.device next_batch = .ok message) (id : String) :
    List.Forall₂ (Carries c.wire)
      ((flights message).filter (fun flight => flight.req.rid = id))
      (next_batch.filter (fun r => r.request_id = id)) := by
  refine List.rel_filter ?_ (flights_of_sent hw hhidden h)
  intro flight r hcarries
  simp [hcarries.rid]

theorem filter_ids_nil {l l' : List Request}
    (hids : l.map Request.request_id = l'.map Request.request_id)
    (hid : id ∉ l'.map Request.request_id) : l.filter (fun r => r.request_id = id) = [] := by
  rw [List.filter_eq_nil_iff]
  intro r hr
  rw [← hids] at hid
  simpa using fun heq : r.request_id = id => hid (heq ▸ List.mem_map_of_mem hr)

theorem not_mem_ids {l : List Request} (hid : id ∉ l.map Request.request_id) :
    ∀ r ∈ l, r.request_id ≠ id := fun _ hr heq => hid (heq ▸ List.mem_map_of_mem hr)

theorem process_part_keeps (hpeer : PeerAt k i b.peer) (hi : i < k)
    {forward : Except Exn ForwardPass} {inputs : Option BatchInputs}
    (h : process_part c now forward inputs b = .ok ⟨⟩ b') : PeerAt k i b'.peer := by
  rcases process_part_cases h with ⟨_, rfl⟩ | ⟨batch_inputs, pass, next_batch, rfl, _, h⟩
  · exact hpeer
  have hpeer' : PeerAt k i
    ({ b with passed := b.passed ++ passed_by batch_inputs pass } : Batch).peer := hpeer
  rcases dispatch_cases hpeer' hi h with ⟨_, hi0, e', hrun, rfl⟩ | ⟨_, _, _, rfl⟩
  · subst hi0
    exact handle_list_keeps hpeer (by rw [if_pos rfl]; exact hrun)
  · exact hpeer

/-- A part of the batch without the request. -/
theorem process_part_spares (hw : c.wire.Lawful) (hpeer : PeerAt k i b.peer) (hi : i < k)
    {reqs : List Request} {R : Request → Nat → Prop} {forward : Except Exn ForwardPass}
    {inputs : Option BatchInputs} (hinputs : InputsOf reqs R inputs)
    (hopen : ∀ r ∈ reqs, r.is_finished = false) (hid : id ∉ reqs.map Request.request_id)
    (h : process_part c now forward inputs b = .ok ⟨⟩ b') : PartSpares id b b' := by
  rcases process_part_cases h with ⟨_, rfl⟩ | ⟨batch_inputs, pass, next_batch, rfl, hnext, h⟩
  · exact .refl id b'
  obtain ⟨hreqs, hlengths⟩ := hinputs.filled batch_inputs rfl
  rw [hreqs] at hnext
  have hpassed : ({ b with passed := b.passed ++ passed_by batch_inputs pass } : Batch).passed_for id
      = b.passed_for id := by
    unfold Batch.passed_for passed_by
    rw [List.filter_append, hreqs, passed_from_others (not_mem_ids hid), List.append_nil]
  have hids := prepare_next_ids hnext
  have hpeer' : PeerAt k i
    ({ b with passed := b.passed ++ passed_by batch_inputs pass } : Batch).peer := hpeer
  rcases dispatch_cases hpeer' hi h with ⟨_, hi0, e', hrun, rfl⟩ | ⟨_, message, hmessage, rfl⟩
  · have hnone : ∀ r ∈ next_batch, r.request_id ≠ id :=
      not_mem_ids (by rw [hids]; exact hid)
    subst hi0
    exact ⟨handle_list_spares hpeer hnone (by rw [if_pos rfl]; exact hrun), rfl, hpassed⟩
  · refine ⟨.refl id _, ?_, hpassed⟩
    have hhidden := prepare_next_forall (Q := fun r => ∃ t, r.hidden_states = some t)
      (fun r hr _ _ hone => next_hidden_states (hopen r hr) hone) hnext
    have hflights := flights_filter hw hhidden hmessage id
    rw [filter_ids_nil hids hid, List.forall₂_nil_right_iff] at hflights
    rw [sent_for_append, hflights, List.append_nil]
    rfl

/-- In a list of distinct requests the others have other ids. -/
theorem others_of_nodup {before after : List Request} (hid : req.request_id = id)
    (h : ((before ++ req :: after).map Request.request_id).Nodup) :
    id ∉ before.map Request.request_id ∧ id ∉ after.map Request.request_id := by
  rw [List.map_append, List.map_cons, hid, List.nodup_append] at h
  obtain ⟨_, hafter, hdisjoint⟩ := h
  refine ⟨fun hmem => hdisjoint id hmem id List.mem_cons_self rfl, (List.nodup_cons.mp hafter).1⟩

/-- The request is handled in its turn among the packets of a single node. -/
theorem handle_list_at {before after : List Request} (hpeer : PeerAt k 0 e)
    (hbefore : ∀ r ∈ before, r.request_id ≠ id) (hafter : ∀ r ∈ after, r.request_id ≠ id)
    (h : (before ++ req :: after).forM (handle_first now) e = .ok ⟨⟩ e') :
    ∃ e₁ e₂, Spares id e e₁ ∧ PeerAt k 0 e₁ ∧ handle_first now req e₁ = .ok ⟨⟩ e₂ ∧
      Spares id e₂ e' := by
  induction before generalizing e with
  | nil =>
    obtain ⟨⟨⟩, e₂, hone, hrest⟩ := bind_ok h
    have hrest' : after.forM (if 0 = 0 then handle_first now else handle_next now) e₂ =
        .ok ⟨⟩ e' := by rw [if_pos rfl]; exact hrest
    have hspares := handle_list_spares (handle_first_keeps_peer hpeer hone) hafter hrest'
    exact ⟨e, e₂, .refl id e, hpeer, hone, hspares⟩
  | cons first rest ih =>
    obtain ⟨⟨⟩, e₀, hone, hrest⟩ := bind_ok h
    have hspares := handle_first_spares hpeer (hbefore first List.mem_cons_self) hone
    obtain ⟨e₁, e₂, hfirst, hpeer₁, hreq, hlast⟩ :=
      ih (handle_first_keeps_peer hpeer hone)
        (fun r hr => hbefore r (List.mem_cons_of_mem first hr)) hrest
    exact ⟨e₁, e₂, hspares.trans hfirst, hpeer₁, hreq, hlast⟩

/-- A part of the batch with the request. -/
theorem process_part_steps (hw : c.wire.Lawful) (hpeer : PeerAt k i b.peer) (hi : i < k)
    {reqs : List Request} {R : Request → Nat → Prop} {forward : Except Exn ForwardPass}
    {inputs : Option BatchInputs} (hinputs : InputsOf reqs R inputs)
    (hopen : ∀ r ∈ reqs, r.is_finished = false) (hnodup : (reqs.map Request.request_id).Nodup)
    (hr : r ∈ reqs) (hid : r.request_id = id)
    (h : process_part c now forward inputs b = .ok ⟨⟩ b') :
    ∃ length, R r length ∧ Stepped c now k i id r length b b' := by
  rcases process_part_cases h with ⟨rfl, _⟩ | ⟨batch_inputs, pass, next_batch, rfl, hnext, h⟩
  · rw [hinputs.empty rfl] at hr
    cases hr
  obtain ⟨hreqs, hlengths⟩ := hinputs.filled batch_inputs rfl
  obtain ⟨before, after, rfl⟩ := List.append_of_mem hr
  obtain ⟨hbefore, hafter⟩ := others_of_nodup hid hnodup
  obtain ⟨length, hR, hfilter⟩ := passed_from_at pass 0 hid (not_mem_ids hbefore)
    (not_mem_ids hafter) hlengths
  have hpassed : ({ b with passed := b.passed ++ passed_by batch_inputs pass } : Batch).passed_for id
      = b.passed_for id ++ [⟨r, length, pass.tokens (0 + before.length),
        pass.hidden_states (0 + before.length)⟩] := by
    unfold Batch.passed_for passed_by
    rw [List.filter_append, hreqs, hfilter]
  rw [hreqs] at hnext
  obtain ⟨n₁, next_req, n₂, rfl, hnext_req, hn₁, hn₂⟩ := prepare_next_at hnext
  have hn₁' : id ∉ n₁.map Request.request_id := by rw [hn₁]; exact hbefore
  have hn₂' : id ∉ n₂.map Request.request_id := by rw [hn₂]; exact hafter
  have hpeer' : PeerAt k i
    ({ b with passed := b.passed ++ passed_by batch_inputs pass } : Batch).peer := hpeer
  rcases dispatch_cases hpeer' hi h with ⟨hk, hi0, e', hrun, rfl⟩ | ⟨hk, message, hmessage, rfl⟩
  · subst hi0
    obtain ⟨e₁, e₂, hfirst, hpeer₁, hreq, hlast⟩ :=
      handle_list_at hpeer (not_mem_ids hn₁') (not_mem_ids hn₂') hrun
    exact ⟨length, hR, _, _, hpassed, next_req, pass.rows _, hnext_req,
      Or.inr ⟨hk, rfl, e₁, e₂, hfirst, hpeer₁, hreq, hlast⟩⟩
  · refine ⟨length, hR, _, _, hpassed, next_req, pass.rows _, hnext_req,
      Or.inl ⟨hk, rfl, ?_⟩⟩
    have hhidden := prepare_next_forall (Q := fun r => ∃ t, r.hidden_states = some t)
      (fun r hr _ _ hone => next_hidden_states (hopen r hr) hone) hnext
    have hflights := flights_filter hw hhidden hmessage id
    have hnext_id : next_req.request_id = id := (next_request_id hnext_req).trans hid
    have hfiltered : (n₁ ++ next_req :: n₂).filter (fun r => decide (r.request_id = id)) =
        [next_req] := by
      rw [List.filter_append, filter_ids_nil rfl hn₁',
        List.filter_cons_of_pos (by simpa using hnext_id), filter_ids_nil rfl hn₂', List.nil_append]
    rw [hfiltered] at hflights
    obtain ⟨flight, rest, hcarries, hrest, heq⟩ := List.forall₂_cons_right_iff.mp hflights
    rw [List.forall₂_nil_right_iff] at hrest
    subst hrest
    refine ⟨flight, ?_, hcarries⟩
    rw [sent_for_append, heq]
    rfl

/-! ## The whole batch -/

theorem on_cache_ok {α : Type} {calls : CacheM α} {a : α} (h : on_cache calls b = .ok a b') :
    ∃ m m', b.peer.cache = some m ∧ calls m = .ok a m' ∧
      b' = { b with peer := b.peer.with_cache m' } := by
  unfold on_cache at h
  rw [get_bind] at h
  cases hm : b.peer.scheduler.cache_manager with
  | none =>
    rw [hm] at h
    cases h
  | some m =>
    rw [hm] at h
    dsimp only at h
    cases hrun : calls m with
    | error err m' =>
      rw [hrun] at h
      cases h
    | ok a' m' =>
      rw [hrun] at h
      cases h
      exact ⟨m, m', hm, hrun, rfl⟩

/-- A batch that was processed: its preparation, its prefills and its decodes. -/
theorem process_batch_parts {passes : Passes} (h : process_batch c now passes e = .ok ⟨⟩ b') :
    ∃ m inputs m' b₁, (formed now e).cache = some m ∧
      prepare_batch_inputs (c.peer (formed now e)) (batch_of now e) m = .ok inputs m' ∧
      process_part c now passes.prefill inputs.1
        { peer := (formed now e).with_cache m', sent := [], passed := [] } = .ok ⟨⟩ b₁ ∧
      process_part c now passes.decode inputs.2 b₁ = .ok ⟨⟩ b' := by
  unfold process_batch process_requests at h
  rw [get_bind] at h
  obtain ⟨inputs, b₀, hcache, h⟩ := bind_ok h
  obtain ⟨m, m', hm, hprepare, rfl⟩ := on_cache_ok hcache
  obtain ⟨⟨⟩, b₁, hprefill, hdecode⟩ := bind_ok h
  exact ⟨m, inputs, m', b₁, hm, hprepare, hprefill, hdecode⟩

theorem batch_open (now : Nat) (e : Executor) : ∀ r ∈ batch_of now e, r.is_finished = false := by
  intro r hr
  have hkind := batch_kinds now e hr
  unfold Request.is_prefill Request.is_decoding at hkind
  unfold Request.is_finished
  rcases hkind with h | h <;> rw [of_decide_eq_true h] <;> decide

theorem part_open (now : Nat) (e : Executor) (p : Request → Bool) :
    ∀ r ∈ (batch_of now e).filter p, r.is_finished = false :=
  fun r hr => batch_open now e r (List.mem_of_mem_filter hr)

theorem part_distinct (hpeer : PeerAt k i e) (now : Nat) (p : Request → Bool) :
    (((batch_of now e).filter p).map Request.request_id).Nodup :=
  (batch_of_distinct hpeer now).sublist (List.filter_sublist.map Request.request_id)

/-- The inputs of the decodes, whatever the cache keeps for the request that is looked at. -/
theorem decode_inputs_any {peer : Peer} {reqs : List Request} {m m' : CacheManager}
    {inputs : Option BatchInputs} (h : prepare_decode_batch peer reqs m = .ok inputs m') :
    InputsOf reqs (fun _ _ => True) inputs := by
  obtain ⟨rfl, rfl, _⟩ | ⟨rows, b, rfl, hreqs, hlengths, hgather, _⟩ := prepare_decode_batch_rows h
  · exact ⟨fun _ => rfl, fun _ hb => (by cases hb)⟩
  · refine ⟨fun hb => (by cases hb), ?_⟩
    rintro _ ⟨rfl⟩
    refine ⟨hreqs, ?_⟩
    rw [hlengths, List.forall₂_map_right_iff]
    exact gather_forall (fun _ _ _ _ _ => trivial) hgather

/-- The batch before its forward passes. -/
theorem prepared_keeps {m m' : CacheManager}
    {inputs : Option BatchInputs × Option BatchInputs} (hpeer : PeerAt k i e)
    (hm : (formed now e).cache = some m)
    (hprepare : prepare_batch_inputs (c.peer (formed now e)) (batch_of now e) m = .ok inputs m') :
    PeerAt k i ((formed now e).with_cache m') := by
  have hformed := formed_keeps hpeer now
  obtain ⟨m₀, hm₀, htidy⟩ := hformed.cache
  rw [hm] at hm₀
  cases hm₀
  exact hformed.with_cache (prepare_batch_inputs_tidy htidy hprepare)

/-- A batch leaves its peer in place. -/
theorem process_batch_keeps (hpeer : PeerAt k i e) (hi : i < k) {passes : Passes}
    (h : process_batch c now passes e = .ok ⟨⟩ b') : PeerAt k i b'.peer := by
  obtain ⟨m, inputs, m', b₁, hm, hprepare, hprefill, hdecode⟩ := process_batch_parts h
  exact process_part_keeps (process_part_keeps (prepared_keeps hpeer hm hprepare) hi hprefill) hi
    hdecode

/-- A batch without the request leaves it alone. -/
theorem process_batch_spares (hw : c.wire.Lawful) (hpeer : PeerAt k i e) (hi : i < k)
    (hid : id ∉ (batch_of now e).map Request.request_id) {passes : Passes}
    (h : process_batch c now passes e = .ok ⟨⟩ b') :
    Spares id (admitted now e) b'.peer ∧ b'.sent_for id = [] ∧ b'.passed_for id = [] := by
  obtain ⟨m, inputs, m', b₁, hm, hprepare, hprefill, hdecode⟩ := process_batch_parts h
  have hprepared := prepared_keeps hpeer hm hprepare
  obtain ⟨m₁, hinputs₁, hinputs₂⟩ := prepare_batch_inputs_parts hprepare
  have hfirst := process_part_spares hw hprepared hi (prefill_inputs hinputs₁) (part_open now e _)
    (filter_ids_not_mem _ hid) hprefill
  have hsecond := process_part_spares hw (process_part_keeps hprepared hi hprefill) hi
    (decode_inputs_any hinputs₂) (part_open now e _) (filter_ids_not_mem _ hid) hdecode
  have hcache : Spares id (formed now e) ((formed now e).with_cache m') :=
    .of_cache hm (prepare_batch_inputs_leaves hid hprepare)
  exact ⟨(((formed_spares hpeer hid).trans hcache).trans hfirst.spares).trans hsecond.spares,
    hsecond.sent.trans hfirst.sent, hsecond.passed.trans hfirst.passed⟩

/-! ## A request of the batch -/

/-- The packet that leaves peer `i` after step `d`: what came out of its model for the next peer, or
the token for the first peer. -/
structure Leaving (c : Setup) (k i : Nat) (id : String) (P : List Int) (d : Nat) (token : Int)
    (output : Tensor) (flight : Flight) : Prop where
  packet : ∃ next_req, Carries c.wire flight next_req ∧ next_req.request_id = id ∧
    (i + 1 < k → ∀ others, Due (i + 1) P others d output next_req) ∧
    (i + 1 = k → next_req.status = .DECODING ∧
      ∃ position t, next_req.kind = .intermediate position (some t) (some token))

/-- Peer `i` has made step `d` of the request, with a context of the right length. -/
structure Worked (c : Setup) (k i : Nat) (id : String) (P tokens : List Int) (d : Nat)
    (input : Tensor) (e : Executor) (b : Batch) : Prop where
  passed : ∃ (r : Request) (token : Int) (output : Tensor),
    b.passed_for id = [⟨r, P.length + d, token, output⟩] ∧ Due i P tokens d input r ∧
    ((k ≠ 1 ∧ Rests i id P tokens (d + 1) b.peer ∧ b.peer.committed id = e.committed id ∧
        b.peer.finished_for id = e.finished_for id ∧
        ∃ flight, b.sent_for id = [flight] ∧ Leaving c k i id P d token output flight) ∨
      (k = 1 ∧ b.sent_for id = [] ∧ b.peer.committed id = e.committed id ++ [token] ∧
        b.peer.finished_for id = e.finished_for id ∧
        (Ready 0 id P (tokens ++ [token]) (d + 1) [] b.peer ∨ Absent id b.peer)))

/-- The rows of a request that is due are not empty. -/
theorem Due.rows (hdue : Due i P tokens d input r) (hpeer : PeerAt k i e) :
    ∀ x, rows_of (c.peer e) r.input_ids r = some x → 0 < x.len := by
  intro x hx
  unfold rows_of Setup.peer at hx
  dsimp only at hx
  rw [hpeer.first] at hx
  by_cases hi : i = 0
  · rw [if_pos (decide_eq_true hi)] at hx
    cases hx
    have hopened := hdue.own hi
    show 0 < r.input_ids.length
    rw [hopened.ids]
    exact hopened.some_ids
  · rw [if_neg (by simpa using hi)] at hx
    obtain ⟨_, _, ht, hne⟩ := hdue.packet hi
    rw [ht] at hx
    cases hx
    exact List.length_pos_iff.mpr hne

theorem Due.some_tokens (hdue : Due i P tokens d input r) : 0 < P.length := by
  by_cases hi : i = 0
  · exact (hdue.own hi).some_ids
  · exact (hdue.packet hi).2.1

/-- The part of a batch without the kind of a request. -/
theorem part_without (hpeer : PeerAt k i e) (hr : r ∈ batch_of now e) (hid : r.request_id = id)
    (p : Request → Bool) (hp : p r = false) :
    id ∉ ((batch_of now e).filter p).map Request.request_id := by
  intro hmem
  obtain ⟨r', hr', hid'⟩ := List.mem_map.mp hmem
  have hsame : r' = r := List.inj_on_of_nodup_map (batch_of_distinct hpeer now)
    (List.mem_of_mem_filter hr') hr (hid'.trans hid.symm)
  have hpr := List.of_mem_filter hr'
  rw [hsame, hp] at hpr
  cases hpr

/-- The cache once the batch is prepared: the request has its context for the step. -/
theorem Taken.prepared {m m' : CacheManager} {inputs : Option BatchInputs × Option BatchInputs}
    (hpeer : PeerAt k i e) (h : Taken i id P tokens d input (formed now e) (batch_of now e))
    (hm : (formed now e).cache = some m)
    (hprepare : prepare_batch_inputs (c.peer (formed now e)) (batch_of now e) m = .ok inputs m') :
    CacheManager.Kept id (P.length + d) m' := by
  obtain ⟨r, hr, _, hid, _, hdue⟩ := h.running
  obtain ⟨m₀, hm₀, hprovided⟩ := h.cache
  rw [hm] at hm₀
  cases hm₀
  have hformed := formed_keeps hpeer now
  obtain ⟨m₀, hm₀, htidy⟩ := hformed.cache
  rw [hm] at hm₀
  cases hm₀
  obtain ⟨m₁, hinputs₁, hinputs₂⟩ := prepare_batch_inputs_parts hprepare
  have hmem : id ∈ (batch_of now e).map Request.request_id := hid ▸ List.mem_map_of_mem hr
  have hpos := hdue.some_tokens
  unfold Provided at hprovided
  by_cases hd : d = 0
  · subst hd
    rw [if_pos rfl] at hprovided
    have hprefill : r ∈ (batch_of now e).filter Request.is_prefill :=
      List.mem_filter.mpr ⟨hr, by rw [hdue.is_prefill]; rfl⟩
    have hblocks : m.needs_blocks = true := by
      obtain ⟨_, hnil, _⟩ | ⟨_, _, _, _, batch_inputs, heq, _⟩ := prepare_prefill_batch_rows hinputs₁
      · rw [hnil] at hprefill
        cases hprefill
      · rw [heq] at hinputs₁
        exact prefill_needs_blocks htidy hinputs₁ hprefill (by rw [hdue.length]; omega)
          (hdue.rows hformed)
    have hbooked : CacheManager.Booked id P.length m₁ := prepare_prefill_keeps
      (fun _ _ _ _ _ hb hone => prefill_row_booked hb hone) hprovided hinputs₁
    have hblocks₁ : m₁.needs_blocks = true := prepare_prefill_keeps
      (I := fun m => m.needs_blocks = true) (fun _ _ m₂ _ _ hb hone => by
        rw [prefill_row_allocates hone,
          (CacheManager.allocate_request_only_for m₂ _ _).needs_blocks]
        exact hb) hblocks hinputs₁
    have hwithout := part_without hpeer hr hid Request.is_decoding (by rw [hdue.is_decoding]; rfl)
    exact (hbooked.kept hblocks₁).leaves (decode_part_leaves hwithout hinputs₂)
  · rw [if_neg hd] at hprovided
    have hwithout := part_without hpeer hr hid Request.is_prefill
      (by rw [hdue.is_prefill]; simpa using hd)
    have hleaves := prefill_part_leaves hwithout hinputs₁
    have hdecode : id ∈ ((batch_of now e).filter Request.is_decoding).map Request.request_id :=
      List.mem_map.mpr ⟨r, List.mem_filter.mpr ⟨hr, by rw [hdue.is_decoding]; simpa using hd⟩, hid⟩
    have hkept := (decode_inputs (part_distinct hpeer now Request.is_decoding)
      (fun _ => hprovided.leaves hleaves) hinputs₂).2 hdecode
    have hlength : P.length + d - 1 + 1 = P.length + d := by omega
    rwa [hlength] at hkept

/-- The packet that was made of a request is the one that leaves. -/
theorem next_leaving {hidden_states : Tensor} {token : Int} {flight : Flight}
    (hpeer : PeerAt k i e) (hdue : Due i P tokens d input r) (hid : r.request_id = id)
    (hrows : hidden_states ≠ [])
    (hnext : prepare_next_single_request e r hidden_states token = .ok next_req)
    (hcarries : Carries c.wire flight next_req) : Leaving c k i id P d token hidden_states flight := by
  refine ⟨next_req, hcarries, (next_request_id hnext).trans hid, ?_, ?_⟩
  · exact fun hlt others => next_due hpeer hlt hdue hrows hnext others
  · intro hlast
    obtain ⟨position, t, hkind, hstatus⟩ := next_token hpeer hlast hnext
    exact ⟨hstatus, position, t, hkind⟩

theorem Due.first_tokens (hdue : Due 0 P tokens d input r) : tokens.length = d := by
  have hlength := (hdue.own rfl).total_length
  rw [hdue.length] at hlength
  omega

/-- The step of a request among the parts of its batch. -/
theorem Stepped.worked {b₀ b₁ b₂ b₃ : Batch} (hpeer : PeerAt k i b₁.peer) (hi : i < k)
    (hdue : Due i P tokens d input r) (hid : r.request_id = id) (hbefore : PartSpares id b₀ b₁)
    (hstep : Stepped c now k i id r (P.length + d) b₁ b₂) (hafter : PartSpares id b₂ b₃)
    (hrests : Rests i id P tokens (d + 1) b₀.peer) (hsent : b₀.sent_for id = [])
    (hpassed : b₀.passed_for id = []) : Worked c k i id P tokens d input b₀.peer b₃ := by
  obtain ⟨token, hidden_states, hpass, next_req, hrows, hnext, hcases⟩ := hstep.passed
  rw [hbefore.passed, hpassed, List.nil_append] at hpass
  refine ⟨r, token, hidden_states, hafter.passed.trans hpass, hdue, ?_⟩
  rcases hcases with ⟨hk, hsame, flight, hflight, hcarries⟩ | ⟨hk, hflight, e₁, e₂, hfirst, hpeer₁,
    hhandle, hlast⟩
  · left
    have hspares : Spares id b₀.peer b₃.peer := by
      refine hbefore.spares.trans ?_
      rw [← hsame]
      exact hafter.spares
    refine ⟨hk, hrests.spared hspares, hspares.committed, hspares.finished, flight, ?_,
      next_leaving hpeer hdue hid hrows hnext hcarries⟩
    rw [hafter.sent, hflight, hbefore.sent, hsent, List.nil_append]
  · right
    have hi0 : i = 0 := by omega
    subst hk hi0
    have hd := hdue.first_tokens
    subst hd
    obtain ⟨position, t, hkind, _⟩ : ∃ position t,
        next_req.kind = .intermediate position (some t) (some token) ∧
          next_req.status = .DECODING := next_token hpeer rfl hnext
    have hrests₁ := hrests.spared (hbefore.spares.trans hfirst)
    have hcommit := hrests₁.commit hpeer₁ ((next_request_id hnext).trans hid) hkind hhandle
    have hall : Spares id e₂ b₃.peer := hlast.trans hafter.spares
    have hlast_peer : e₁.is_last_peer = true := by rw [hpeer₁.last]; rfl
    have hfinished : e₂.finished_for id = b₀.peer.finished_for id := by
      have hsame := (hbefore.spares.trans hfirst).finished
      rcases hcommit.goes_on_or_ends with ⟨_, h⟩ | ⟨_, h⟩
      · exact h.trans hsame
      · rw [h, hlast_peer, if_pos rfl, List.append_nil]
        exact hsame
    refine ⟨rfl, ?_, ?_, hall.finished.trans hfinished, ?_⟩
    · rw [hafter.sent, hflight, hbefore.sent, hsent]
    · rw [hall.committed, hcommit.committed, (hbefore.spares.trans hfirst).committed]
    · rcases hcommit.goes_on_or_ends with ⟨hready, _⟩ | ⟨habsent, _⟩
      · exact Or.inl (hready.spared hall)
      · exact Or.inr (habsent.spared hall)

/-- A batch with the request makes its step. -/
theorem process_batch_works (hw : c.wire.Lawful) (hpeer : PeerAt k i e) (hi : i < k)
    (hready : Ready i id P tokens d input (admitted now e))
    (hin : id ∈ (batch_of now e).map Request.request_id) {passes : Passes}
    (h : process_batch c now passes e = .ok ⟨⟩ b') : Worked c k i id P tokens d input e b' := by
  have htaken := hready.taken hpeer hin
  obtain ⟨m, inputs, m', b₁, hm, hprepare, hprefill, hdecode⟩ := process_batch_parts h
  have hkept := htaken.prepared hpeer hm hprepare
  have hprepared := prepared_keeps hpeer hm hprepare
  have hpeer₁ := process_part_keeps hprepared hi hprefill
  obtain ⟨m₁, hinputs₁, hinputs₂⟩ := prepare_batch_inputs_parts hprepare
  obtain ⟨r, hr, hrun, hid, hresting, hdue⟩ := htaken.running
  have hrests : Rests i id P tokens (d + 1) ((formed now e).with_cache m') :=
    ⟨htaken.waiting, ⟨r, hrun, hresting, hdue.own⟩, m', rfl, hkept⟩
  have hpos := hdue.some_tokens
  by_cases hd : d = 0
  · subst hd
    have hmem : r ∈ (batch_of now e).filter Request.is_prefill :=
      List.mem_filter.mpr ⟨hr, by rw [hdue.is_prefill]; rfl⟩
    obtain ⟨length, hlength, hstep⟩ := process_part_steps hw hprepared hi (prefill_inputs hinputs₁)
      (part_open now e _) (part_distinct hpeer now _) hmem hid hprefill
    have hafter := process_part_spares hw hpeer₁ hi (decode_inputs_any hinputs₂) (part_open now e _)
      (part_without hpeer hr hid Request.is_decoding (by rw [hdue.is_decoding]; rfl)) hdecode
    rw [hdue.length] at hlength
    subst hlength
    exact ⟨(hstep.worked hprepared hi hdue hid (.refl id _) hafter hrests rfl rfl).passed⟩
  · have hmem : r ∈ (batch_of now e).filter Request.is_decoding :=
      List.mem_filter.mpr ⟨hr, by rw [hdue.is_decoding]; simpa using hd⟩
    have hwithout := part_without hpeer hr hid Request.is_prefill
      (by rw [hdue.is_prefill]; simpa using hd)
    have hbefore := process_part_spares hw hprepared hi (prefill_inputs hinputs₁)
      (part_open now e _) hwithout hprefill
    obtain ⟨m₀, hm₀, hprovided⟩ := htaken.cache
    rw [hm] at hm₀
    cases hm₀
    unfold Provided at hprovided
    rw [if_neg hd] at hprovided
    have hleaves := prefill_part_leaves hwithout hinputs₁
    have hinputs := (decode_inputs (part_distinct hpeer now Request.is_decoding)
      (fun _ => hprovided.leaves hleaves) hinputs₂).1
    obtain ⟨length, hlength, hstep⟩ := process_part_steps hw hpeer₁ hi hinputs
      (part_open now e _) (part_distinct hpeer now _) hmem hid hdecode
    have hlength' : length = P.length + d := by
      rw [hlength hid]
      omega
    subst hlength'
    exact ⟨(hstep.worked hpeer₁ hi hdue hid hbefore (.refl id _) hrests rfl rfl).passed⟩

end parallax.server.executor
