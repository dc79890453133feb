-- The batches of a peer (parallax/server/scheduler.py, `form_batch`): which of
-- the ready requests go into a batch, and what the batch costs. The cost of a
-- prefill is its `prompt_len`, a field that only the first peer fills.
import InferenceMesh.Server.Admission
import InferenceMesh.Server.RunningSet

open ordered_dict python
open parallax.server.cache_manager parallax.server.request

namespace parallax.server.scheduler

namespace Scheduler

/-! ## One pass over the candidates -/

section pass

variable (s : Scheduler) (cost : Request → Nat)

theorem fill_batch.spec (candidates batch : List Request) (tokens : Nat)
    (hroom : batch.length ≤ s.micro_batch_size) (hbudget : tokens ≤ s.max_num_tokens_per_batch) :
    ∃ picked, picked.Sublist candidates ∧
      s.fill_batch cost candidates (batch, tokens) =
        (batch ++ picked, tokens + (picked.map cost).sum) ∧
      (batch ++ picked).length ≤ s.micro_batch_size ∧
      tokens + (picked.map cost).sum ≤ s.max_num_tokens_per_batch := by
  induction candidates generalizing batch tokens with
  | nil => exact ⟨[], .slnil, by simp [fill_batch], by simpa using hroom, by simpa using hbudget⟩
  | cons req rest ih =>
    unfold fill_batch
    split
    · exact ⟨[], List.nil_sublist _, by simp, by simpa using hroom, by simpa using hbudget⟩
    · rename_i hlt
      split
      · obtain ⟨picked, hsub, hrun, hsize, hcost⟩ := ih batch tokens hroom hbudget
        exact ⟨picked, hsub.cons req, hrun, hsize, hcost⟩
      · rename_i hfits
        obtain ⟨picked, hsub, hrun, hsize, hcost⟩ := ih (batch ++ [req]) (tokens + cost req)
          (by simp only [List.length_append, List.length_singleton]; omega) (by omega)
        refine ⟨req :: picked, hsub.cons_cons req, ?_, ?_, ?_⟩
        · rw [hrun, List.append_assoc, List.map_cons, List.sum_cons, Nat.add_assoc]
          rfl
        · simpa [List.append_assoc] using hsize
        · simpa [Nat.add_assoc] using hcost

/-- Candidates that cost nothing are taken until the batch is full. -/
theorem fill_batch_free {candidates : List Request} (hfree : ∀ req ∈ candidates, cost req = 0)
    (batch : List Request) {tokens : Nat} (hbudget : tokens ≤ s.max_num_tokens_per_batch) :
    s.fill_batch cost candidates (batch, tokens) =
      (batch ++ candidates.take (s.micro_batch_size - batch.length), tokens) := by
  induction candidates generalizing batch with
  | nil => simp [fill_batch]
  | cons req rest ih =>
    have hzero := hfree req List.mem_cons_self
    unfold fill_batch
    split
    · rename_i hfull
      have hnone : s.micro_batch_size - batch.length = 0 := by omega
      simp [hnone]
    · rename_i hlt
      obtain ⟨k, hk⟩ : ∃ k, s.micro_batch_size - batch.length = k + 1 :=
        ⟨s.micro_batch_size - batch.length - 1, by omega⟩
      have hk' : s.micro_batch_size - (batch ++ [req]).length = k := by
        simp only [List.length_append, List.length_singleton]
        omega
      rw [if_neg (by omega), hzero, Nat.add_zero,
        ih (fun r hr => hfree r (List.mem_cons_of_mem _ hr)), hk, hk']
      simp

/-- Candidates of cost one are taken until the batch is full or the budget is spent. -/
theorem fill_batch_each (candidates batch : List Request) {tokens : Nat}
    (hbudget : tokens ≤ s.max_num_tokens_per_batch) :
    s.fill_batch (fun _ => 1) candidates (batch, tokens) =
      (batch ++ candidates.take
          (min (s.micro_batch_size - batch.length) (s.max_num_tokens_per_batch - tokens)),
        tokens + min (min (s.micro_batch_size - batch.length)
          (s.max_num_tokens_per_batch - tokens)) candidates.length) := by
  induction candidates generalizing batch tokens with
  | nil => simp [fill_batch]
  | cons req rest ih =>
    unfold fill_batch
    split
    · rename_i hfull
      have hnone : s.micro_batch_size - batch.length = 0 := by omega
      simp [hnone]
    · rename_i hlt
      split
      · rename_i hspent
        have hnone : s.max_num_tokens_per_batch - tokens = 0 := by omega
        rw [ih batch hbudget]
        simp [hnone]
      · obtain ⟨k, hk⟩ : ∃ k, s.micro_batch_size - batch.length = k + 1 :=
          ⟨s.micro_batch_size - batch.length - 1, by omega⟩
        obtain ⟨b, hb⟩ : ∃ b, s.max_num_tokens_per_batch - tokens = b + 1 :=
          ⟨s.max_num_tokens_per_batch - tokens - 1, by omega⟩
        have hk' : s.micro_batch_size - (batch ++ [req]).length = k := by
          simp only [List.length_append, List.length_singleton]
          omega
        have hb' : s.max_num_tokens_per_batch - (tokens + 1) = b := by omega
        rw [ih (batch ++ [req]) (by omega), hk, hb, hk', hb', Nat.add_min_add_right,
          List.take_succ_cons, List.length_cons, Nat.add_min_add_right]
        simp only [List.append_assoc, List.singleton_append, Prod.mk.injEq, true_and]
        omega

/-- A pass into an empty batch leaves it empty just when no candidate fits alone. -/
theorem fill_batch_ne_nil_iff (hsize : 0 < s.micro_batch_size) (candidates : List Request)
    (tokens : Nat) :
    (s.fill_batch cost candidates ([], tokens)).1 ≠ [] ↔
      ∃ req ∈ candidates, cost req + tokens ≤ s.max_num_tokens_per_batch := by
  induction candidates with
  | nil => simp [fill_batch]
  | cons req rest ih =>
    unfold fill_batch
    rw [if_neg (by simp only [List.length_nil]; omega)]
    split
    · rename_i hover
      rw [ih]
      simp only [List.mem_cons, exists_eq_or_imp]
      constructor
      · exact Or.inr
      · rintro (h | h)
        · omega
        · exact h
    · rename_i hfits
      obtain ⟨picked, _, hrun, _⟩ := fill_batch.spec s cost rest ([] ++ [req]) (tokens + cost req)
        (by simp only [List.nil_append, List.length_singleton]; omega) (by omega)
      rw [hrun]
      simp only [List.nil_append, ne_eq, List.append_eq_nil_iff, List.cons_ne_nil, false_and,
        not_false_eq_true, true_iff]
      exact ⟨req, List.mem_cons_self, by omega⟩

end pass

/-! ## Both passes -/

variable (s : Scheduler)

/-- The running prefills that are ready, in the order of their admission. -/
def ready_prefills : List Request :=
  (s.running_requests.values.filter (fun req => req.ready_for_next_step)).filter Request.is_prefill

/-- The running decodes that are ready, in the order in which they became ready. -/
def ready_decodes : List Request :=
  (s.running_requests.values.filter (fun req => req.ready_for_next_step)).filter Request.is_decoding

theorem mem_ready_prefills {s : Scheduler} {req : Request} : req ∈ s.ready_prefills ↔
    req ∈ s.running_requests.values ∧ req.ready_for_next_step = true ∧ req.is_prefill = true := by
  unfold ready_prefills
  rw [List.mem_filter, List.mem_filter, and_assoc]

theorem mem_ready_decodes {s : Scheduler} {req : Request} : req ∈ s.ready_decodes ↔
    req ∈ s.running_requests.values ∧ req.ready_for_next_step = true ∧ req.is_decoding = true := by
  unfold ready_decodes
  rw [List.mem_filter, List.mem_filter, and_assoc]

theorem select_batch.spec : ∃ prefills decodes, prefills.Sublist s.ready_prefills ∧
    decodes.Sublist s.ready_decodes ∧ s.select_batch = prefills ++ decodes ∧
    (prefills ++ decodes).length ≤ s.micro_batch_size ∧
    (prefills.map (fun req => req.prompt_len)).sum + decodes.length ≤
      s.max_num_tokens_per_batch := by
  obtain ⟨prefills, hpre, hrun, hsize, hcost⟩ :=
    fill_batch.spec s (fun req => req.prompt_len) s.ready_prefills [] 0 (by simp) (by simp)
  obtain ⟨decodes, hdec, hrun', hsize', hcost'⟩ :=
    fill_batch.spec s (fun _ => 1) s.ready_decodes ([] ++ prefills) _ hsize hcost
  refine ⟨prefills, decodes, hpre, hdec, ?_, hsize', ?_⟩
  · unfold ready_prefills at hrun
    unfold ready_decodes at hrun'
    unfold select_batch
    dsimp only
    rw [hrun, hrun']
    rfl
  · simpa using hcost'

/-- With prefills that cost nothing, the first ones fill the batch, and the decodes take what is
left of it and of the budget. -/
theorem select_batch_free (hfree : ∀ req ∈ s.ready_prefills, req.prompt_len = 0) :
    s.select_batch = s.ready_prefills.take s.micro_batch_size ++
      s.ready_decodes.take
        (min (s.micro_batch_size - s.ready_prefills.length) s.max_num_tokens_per_batch) := by
  have hrun := fill_batch_free s (fun req => req.prompt_len) hfree [] (Nat.zero_le _)
  have hlen : s.micro_batch_size - (s.ready_prefills.take s.micro_batch_size).length =
      s.micro_batch_size - s.ready_prefills.length := by
    rw [List.length_take]
    omega
  unfold ready_prefills at hrun
  unfold select_batch
  dsimp only
  rw [hrun, fill_batch_each s _ _ (Nat.zero_le _)]
  simp only [List.nil_append, List.length_nil, Nat.sub_zero]
  rw [← ready_prefills, ← ready_decodes, hlen]

theorem select_batch_ne_nil_iff (hsize : 0 < s.micro_batch_size)
    (hbudget : 1 ≤ s.max_num_tokens_per_batch) : s.select_batch ≠ [] ↔
      (∃ req ∈ s.ready_prefills, req.prompt_len ≤ s.max_num_tokens_per_batch) ∨
        s.ready_decodes ≠ [] := by
  have hfirst := fill_batch_ne_nil_iff s (fun req => req.prompt_len) hsize s.ready_prefills 0
  obtain ⟨prefills, _, hrun, hlen, hcost⟩ :=
    fill_batch.spec s (fun req => req.prompt_len) s.ready_prefills [] 0 (by simp) (by simp)
  have hsel : s.select_batch = (s.fill_batch (fun _ => 1) s.ready_decodes
      (s.fill_batch (fun req => req.prompt_len) s.ready_prefills ([], 0))).1 := rfl
  rw [hsel]
  rw [hrun] at hfirst ⊢
  simp only [List.nil_append, Nat.add_zero] at hfirst ⊢
  rw [← hfirst]
  by_cases hnil : prefills = []
  · subst hnil
    have hsecond := fill_batch_ne_nil_iff s (fun _ => 1) hsize s.ready_decodes 0
    simp only [List.map_nil, List.sum_nil, Nat.add_zero, ne_eq, not_true_eq_false, false_or]
    rw [← ne_eq, hsecond]
    constructor
    · rintro ⟨req, hreq, _⟩
      exact List.ne_nil_of_mem hreq
    · intro hne
      obtain ⟨req, hreq⟩ := List.exists_mem_of_ne_nil _ hne
      exact ⟨req, hreq, hbudget⟩
  · obtain ⟨decodes, _, hrun', _⟩ :=
      fill_batch.spec s (fun _ => 1) s.ready_decodes prefills _ hlen hcost
    simp only [Nat.zero_add] at hrun' ⊢
    rw [hrun']
    simp [hnil]

end Scheduler

/-! ## The budget -/

/-- What the constructors fill in: the first peer holds requests with the length of their prompt,
and the packets of the other peers have none. -/
def PeerRequest (is_first_peer : Bool) (req : Request) : Prop :=
  match req.kind with
  | .initial _ _ => is_first_peer = true ∧ req.prompt_len = req.input_ids.length
  | .intermediate _ _ _ => is_first_peer = false ∧ req.prompt_len = 0

/-- The tokens of a request in a forward pass: the whole prompt of a prefill, which comes to the
other peers as hidden states up to the position of the packet, and one for a decode. -/
def step_tokens (req : Request) : Nat :=
  if req.is_prefill then
    match req.kind with
    | .initial _ _ => req.input_ids.length
    | .intermediate current_position _ _ => current_position
  else 1

theorem peerRequest_unwritten (is_first_peer : Bool) : Unwritten (PeerRequest is_first_peer) :=
  fun _ _ _ _ h => h

theorem step_tokens_taken (now : Nat) (req : Request) :
    step_tokens (Scheduler.taken now req) = step_tokens req := rfl

theorem step_tokens_initial {req : Request} (h : PeerRequest true req)
    (hprefill : req.is_prefill = true) : step_tokens req = req.prompt_len := by
  unfold PeerRequest at h
  unfold step_tokens
  rw [if_pos hprefill]
  split at h
  · exact h.2.symm
  · exact absurd h.1 (by decide)

theorem prompt_len_packet {req : Request} (h : PeerRequest false req) : req.prompt_len = 0 := by
  unfold PeerRequest at h
  split at h
  · exact absurd h.1 (by decide)
  · exact h.2

theorem not_prefill_of_decoding {req : Request} (h : req.is_decoding = true) :
    req.is_prefill = false := by
  unfold Request.is_decoding at h
  unfold Request.is_prefill
  rw [of_decide_eq_true h]
  rfl

theorem step_tokens_decodes {decodes : List Request}
    (h : ∀ req ∈ decodes, req.is_decoding = true) :
    (decodes.map step_tokens).sum = decodes.length := by
  have hone : decodes.map step_tokens = decodes.map (fun _ => 1) := by
    apply List.map_congr_left
    intro req hreq
    unfold step_tokens
    rw [if_neg (by simp [not_prefill_of_decoding (h req hreq)])]
  rw [hone]
  simp

/-- What a batch owes to its peer. -/
structure WithinBudget (s : Scheduler) (now : Nat) : Prop where
  size : (s.form_batch now).1.length ≤ s.micro_batch_size
  distinct : ((s.form_batch now).1.map Request.request_id).Nodup
  ready : ∀ req ∈ (s.form_batch now).1, ∃ r,
    (s.admit_requests now).get_running_request req.request_id = some r ∧
      r.ready_for_next_step = true ∧ req = Scheduler.taken now r
  cleared : ∀ id r, (s.admit_requests now).get_running_request id = some r →
    (s.form_batch now).2.get_running_request id =
      some (if id ∈ (s.form_batch now).1.map Request.request_id then
        { r with ready_for_next_step := false, last_updated_time := some now } else r)
  running : (s.form_batch now).2.running_requests.keys =
    (s.admit_requests now).running_requests.keys
  tokens : ((s.form_batch now).1.map step_tokens).sum ≤ s.max_num_tokens_per_batch

namespace Scheduler

/-- The first prefills that are ready, as many as a batch takes, and the decodes behind them. -/
def PacketsFit (s : Scheduler) : Prop :=
  ((s.ready_prefills.take s.micro_batch_size).map step_tokens).sum +
      min (min (s.micro_batch_size - s.ready_prefills.length) s.max_num_tokens_per_batch)
        s.ready_decodes.length ≤ s.max_num_tokens_per_batch

instance (s : Scheduler) : Decidable s.PacketsFit :=
  inferInstanceAs (Decidable (_ ≤ _))

variable {P : Request → Prop} {s : Scheduler}

theorem select_batch_running (hs : Holds P s) {req : Request} (h : req ∈ s.select_batch) :
    s.get_running_request req.request_id = some req ∧ req.ready_for_next_step = true := by
  obtain ⟨prefills, decodes, hpre, hdec, hsel, _⟩ := select_batch.spec s
  rw [hsel, List.mem_append] at h
  rcases h with h | h
  · obtain ⟨hval, hready, _⟩ := mem_ready_prefills.mp (hpre.mem h)
    exact ⟨hs.mem_values.mp hval, hready⟩
  · obtain ⟨hval, hready, _⟩ := mem_ready_decodes.mp (hdec.mem h)
    exact ⟨hs.mem_values.mp hval, hready⟩

theorem ready_ids_nodup (hs : Holds P s) (p : Request → Bool) :
    (((s.running_requests.values.filter (fun req => req.ready_for_next_step)).filter p).map
      Request.request_id).Nodup := by
  have hkeys : (s.running_requests.values.map Request.request_id).Nodup := by
    rw [hs.ids_of_values]
    exact s.running_requests.nodup
  exact hkeys.sublist ((List.filter_sublist.trans List.filter_sublist).map _)

theorem select_batch_distinct (hs : Holds P s) :
    (s.select_batch.map Request.request_id).Nodup := by
  obtain ⟨prefills, decodes, hpre, hdec, hsel, _⟩ := select_batch.spec s
  rw [hsel, List.map_append, List.nodup_append]
  refine ⟨(ready_ids_nodup hs _).sublist (hpre.map _), (ready_ids_nodup hs _).sublist (hdec.map _),
    ?_⟩
  intro id hid id' hid' heq
  obtain ⟨r, hr, rfl⟩ := List.mem_map.mp hid
  obtain ⟨r', hr', rfl⟩ := List.mem_map.mp hid'
  obtain ⟨hval, _, hprefill⟩ := mem_ready_prefills.mp (hpre.mem hr)
  obtain ⟨hval', _, hdecoding⟩ := mem_ready_decodes.mp (hdec.mem hr')
  -- One request cannot be a prefill and a decode.
  rw [hs.values_injective hval hval' heq, not_prefill_of_decoding hdecoding] at hprefill
  cases hprefill

/-- All but the tokens: this holds on every peer. -/
theorem form_batch.spec (hs : Holds P s) (hP : Unwritten P) (now : Nat)
    (htokens : ((s.form_batch now).1.map step_tokens).sum ≤ s.max_num_tokens_per_batch) :
    WithinBudget s now := by
  have hadm : Holds P (s.admit_requests now) := hs.admit_requests hP
  have hset := (admit_requests.spec now s).settings
  have hids : (s.form_batch now).1.map Request.request_id =
      (s.admit_requests now).select_batch.map Request.request_id := by
    unfold form_batch
    simp [taken]
  refine ⟨?_, ?_, ?_, ?_, ?_, htokens⟩
  · obtain ⟨prefills, decodes, _, _, hsel, hsize, _⟩ := select_batch.spec (s.admit_requests now)
    unfold form_batch
    dsimp only
    rw [List.length_map, hsel, ← hset.micro_batch_size]
    exact hsize
  · rw [hids]
    exact select_batch_distinct hadm
  · intro req hreq
    unfold form_batch at hreq
    obtain ⟨r, hr, rfl⟩ := List.mem_map.mp hreq
    obtain ⟨hrun, hready⟩ := select_batch_running hadm hr
    exact ⟨r, hrun, hready, rfl⟩
  · intro id r hr
    obtain ⟨rfl, _⟩ := hadm.running id r hr
    rw [hids]
    unfold form_batch get_running_request
    unfold get_running_request at hr
    dsimp only
    rw [Dict.get?_mapValues, hr, Option.map_some]
    rfl
  · unfold form_batch
    exact Dict.keys_mapValues _ _

theorem batch_tokens (s : Scheduler) (now : Nat) : ((s.form_batch now).1.map step_tokens).sum =
    ((s.admit_requests now).select_batch.map step_tokens).sum := by
  unfold form_batch
  dsimp only
  rw [List.map_map]
  rfl

/-- On the first peer the budget is charged what the forward pass processes. -/
theorem first_peer_tokens (hs : Holds (PeerRequest true) s) :
    (s.select_batch.map step_tokens).sum ≤ s.max_num_tokens_per_batch := by
  obtain ⟨prefills, decodes, hpre, hdec, hsel, _, hcost⟩ := select_batch.spec s
  have hprefills : prefills.map step_tokens = prefills.map (fun req => req.prompt_len) := by
    apply List.map_congr_left
    intro req hreq
    obtain ⟨hval, _, hprefill⟩ := mem_ready_prefills.mp (hpre.mem hreq)
    exact step_tokens_initial (hs.running _ req (hs.mem_values.mp hval)).2 hprefill
  have hdecodes : (decodes.map step_tokens).sum = decodes.length :=
    step_tokens_decodes (fun req hreq => (mem_ready_decodes.mp (hdec.mem hreq)).2.2)
  rw [hsel, List.map_append, List.sum_append, hprefills, hdecodes]
  exact hcost

/-- On the other peers it is charged for the decodes alone. -/
theorem packet_tokens (hs : Holds (PeerRequest false) s) :
    (s.select_batch.map step_tokens).sum =
      ((s.ready_prefills.take s.micro_batch_size).map step_tokens).sum +
        min (min (s.micro_batch_size - s.ready_prefills.length) s.max_num_tokens_per_batch)
          s.ready_decodes.length := by
  have hfree : ∀ req ∈ s.ready_prefills, req.prompt_len = 0 := by
    intro req hreq
    have hval := (mem_ready_prefills.mp hreq).1
    exact prompt_len_packet (hs.running _ req (hs.mem_values.mp hval)).2
  rw [select_batch_free s hfree, List.map_append, List.sum_append,
    step_tokens_decodes (fun req hreq =>
      (mem_ready_decodes.mp (List.mem_of_mem_take hreq)).2.2), List.length_take]

end Scheduler

/-- A batch keeps to the token budget on the first peer. On another peer it does so just when the
prefills that fill it first, which count nothing, are within the budget with the decodes. -/
theorem batch_within_budget_iff (s : Scheduler) (now : Nat)
    (hs : Holds (PeerRequest s.is_first_peer) s) :
    WithinBudget s now ↔ s.is_first_peer = true ∨ (s.admit_requests now).PacketsFit := by
  have hadm : Holds (PeerRequest s.is_first_peer) (s.admit_requests now) :=
    hs.admit_requests (peerRequest_unwritten _)
  have hset := (Scheduler.admit_requests.spec now s).settings
  cases hfirst : s.is_first_peer with
  | true =>
    rw [hfirst] at hs hadm
    simp only [true_or, iff_true]
    apply Scheduler.form_batch.spec hs (peerRequest_unwritten _)
    rw [Scheduler.batch_tokens, ← hset.max_num_tokens_per_batch]
    exact Scheduler.first_peer_tokens hadm
  | false =>
    rw [hfirst] at hs hadm
    have htokens := Scheduler.packet_tokens hadm
    simp only [Bool.false_eq_true, false_or]
    constructor
    · intro h
      have hle := h.tokens
      rw [Scheduler.batch_tokens, htokens, ← hset.max_num_tokens_per_batch] at hle
      exact hle
    · intro h
      apply Scheduler.form_batch.spec hs (peerRequest_unwritten _)
      rw [Scheduler.batch_tokens, htokens, ← hset.max_num_tokens_per_batch]
      exact h

theorem holds_two_waiting (num_gpu_blocks : Nat) :
    Holds (PeerRequest true) (two_waiting num_gpu_blocks) := by
  constructor
  · intro req hreq
    simp only [two_waiting, List.mem_cons, List.not_mem_nil, or_false] at hreq
    rcases hreq with rfl | rfl <;> exact ⟨rfl, rfl⟩
  · intro id req hreq
    cases hreq

theorem short_prompts_within_budget : WithinBudget (two_waiting 2) 0 :=
  (batch_within_budget_iff (two_waiting 2) 0 (holds_two_waiting 2)).mpr (Or.inl rfl)

/-- A prompt as it waits on a middle peer, with its hidden states. -/
def waiting_packet (id : String) (rows : Nat) : Request where
  request_id := id
  ready_for_next_step := true
  last_updated_time := some 0
  kind := .intermediate rows (some (List.replicate rows [0])) none

/-- A middle peer with a budget of four tokens and two prompts of three tokens in its queue. -/
def two_packets : Scheduler :=
  { Scheduler.init 4 4 2 false none 600 none none with
    wait_queue := [waiting_packet "a" 3, waiting_packet "b" 3] }

/-- It takes both at once. -/
theorem packets_exceed_the_budget :
    ¬ ∀ (s : Scheduler) (now : Nat), Holds (PeerRequest s.is_first_peer) s →
      WithinBudget s now := by
  intro hall
  have hs : Holds (PeerRequest two_packets.is_first_peer) two_packets := by
    constructor
    · intro req hreq
      simp only [two_packets, List.mem_cons, List.not_mem_nil, or_false] at hreq
      rcases hreq with rfl | rfl <;> exact ⟨rfl, rfl⟩
    · intro id req hreq
      cases hreq
  have hle := (hall two_packets 0 hs).tokens
  revert hle
  decide +kernel

/-! ## Progress -/

/-- The states of a peer that starts as `s₀` and is given requests of its kind. -/
inductive Reached (s₀ : Scheduler) : Scheduler → Prop where
  | init : Reached s₀ s₀
  | enque_request {s s' : Scheduler} {now : Nat} {req : Request} (h : Reached s₀ s)
      (hreq : PeerRequest s.is_first_peer req) (hrun : s.enque_request now req = .ok s') :
      Reached s₀ s'
  | admit_requests {s : Scheduler} (now : Nat) (h : Reached s₀ s) :
      Reached s₀ (s.admit_requests now)
  | form_batch {s : Scheduler} (now : Nat) (h : Reached s₀ s) : Reached s₀ (s.form_batch now).2
  | evict_request {s s' : Scheduler} {id : String} (h : Reached s₀ s)
      (hrun : s.evict_request id = .ok s') : Reached s₀ s'

/-- A request of the peer that is not finished. -/
def Unfinished (is_first_peer : Bool) (req : Request) : Prop :=
  PeerRequest is_first_peer req ∧ req.is_finished = false

theorem unfinished_unwritten (is_first_peer : Bool) : Unwritten (Unfinished is_first_peer) :=
  fun _ _ _ _ h => h

theorem prefill_or_decode {req : Request} (h : req.is_finished = false) :
    req.is_prefill = true ∨ req.is_decoding = true := by
  unfold Request.is_finished at h
  unfold Request.is_prefill Request.is_decoding
  cases hs : req.status <;> simp_all

namespace Reached

variable {s₀ s : Scheduler}

theorem settings (h : Reached s₀ s) : Scheduler.SameSettings s₀ s := by
  induction h with
  | init => exact .refl s₀
  | enque_request _ _ hrun ih => exact ih.trans (Scheduler.enque_request_settings hrun)
  | admit_requests now _ ih => exact ih.trans (Scheduler.admit_requests.spec now _).settings
  | form_batch now _ ih => exact ih.trans (Scheduler.form_batch_settings now _)
  | evict_request _ hrun ih => exact ih.trans (Scheduler.evict_request_settings hrun)

theorem holds (h : Reached s₀ s) (h₀ : Holds (Unfinished s₀.is_first_peer) s₀) :
    Holds (Unfinished s₀.is_first_peer) s := by
  have hP := unfinished_unwritten s₀.is_first_peer
  induction h with
  | init => exact h₀
  | enque_request hs hreq hrun ih =>
    rw [hs.settings.is_first_peer] at hreq
    exact ih.enque_request hP (fun hopen => ⟨hreq, hopen⟩) hrun
  | admit_requests now _ ih => exact ih.admit_requests hP
  | form_batch now _ ih => exact ih.form_batch hP
  | evict_request _ hrun ih => exact ih.evict_request hrun

end Reached

/-- A ready request that can go into a batch of its own: any one on the other peers, and on the
first peer a decode, or a prefill whose prompt is within the budget. -/
def Fitting (is_first_peer : Bool) (max_num_tokens_per_batch : Nat) (req : Request) : Prop :=
  req.ready_for_next_step = true ∧ (is_first_peer = true →
    req.is_decoding = true ∨ req.input_ids.length ≤ max_num_tokens_per_batch)

theorem fitting_prefill_iff {first : Bool} {budget : Nat} {req : Request}
    (hreq : PeerRequest first req) (hprefill : req.is_prefill = true) :
    Fitting first budget req ↔ req.ready_for_next_step = true ∧ req.prompt_len ≤ budget := by
  have hno : ¬ req.is_decoding = true := by
    intro hdecoding
    rw [not_prefill_of_decoding hdecoding] at hprefill
    cases hprefill
  unfold PeerRequest at hreq
  unfold Fitting
  split at hreq
  · obtain ⟨rfl, hlen⟩ := hreq
    simp [hno, hlen]
  · obtain ⟨rfl, hlen⟩ := hreq
    simp [hlen]

/-- A batch is formed just when, after the admission, a running request is ready and fits alone.
The admission leaves the running requests as they are. -/
theorem batch_is_formed_iff (max_batch_size max_num_tokens_per_batch micro_batch_ratio : Nat)
    (is_first_peer : Bool) (cache_manager : Option CacheManager) (request_timeout_s : Nat)
    (eos_token_id : Option EosTokenId) (tokenizer_eos_token_id : Option Int) (s : Scheduler)
    (now : Nat)
    (hbudget : 1 ≤ max_num_tokens_per_batch)
    (hs : Reached (.init max_batch_size max_num_tokens_per_batch micro_batch_ratio is_first_peer
      cache_manager request_timeout_s eos_token_id tokenizer_eos_token_id) s) :
    ((s.form_batch now).1 ≠ [] ↔
      ∃ id req, (s.admit_requests now).get_running_request id = some req ∧
        Fitting is_first_peer max_num_tokens_per_batch req) ∧
    ∀ id req, s.get_running_request id = some req →
      (s.admit_requests now).get_running_request id = some req := by
  have hadm := Scheduler.admit_requests.spec now s
  refine ⟨?_, hadm.stays⟩
  have hset := hs.settings.trans hadm.settings
  have hempty : Holds (Unfinished is_first_peer) (.init max_batch_size max_num_tokens_per_batch
      micro_batch_ratio is_first_peer cache_manager request_timeout_s eos_token_id
      tokenizer_eos_token_id) :=
    ⟨by simp [Scheduler.init], by
      intro id req hreq
      cases hreq⟩
  have hfirst : Holds (Unfinished is_first_peer) (s.admit_requests now) :=
    (hs.holds hempty).admit_requests (unfinished_unwritten _)
  have hsize : 0 < (s.admit_requests now).micro_batch_size := by
    rw [hset.micro_batch_size]
    exact Nat.lt_of_lt_of_le Nat.zero_lt_one (Nat.le_max_left _ _)
  have htokens := hset.max_num_tokens_per_batch
  unfold Scheduler.form_batch
  dsimp only
  rw [ne_eq, List.map_eq_nil_iff, ← ne_eq,
    Scheduler.select_batch_ne_nil_iff _ hsize (by rw [htokens]; exact hbudget), htokens]
  constructor
  · rintro (⟨req, hreq, hlen⟩ | hne)
    · obtain ⟨hval, hready, hprefill⟩ := Scheduler.mem_ready_prefills.mp hreq
      have hrun := hfirst.mem_values.mp hval
      exact ⟨_, req, hrun,
        (fitting_prefill_iff (hfirst.running _ req hrun).2.1 hprefill).mpr ⟨hready, hlen⟩⟩
    · obtain ⟨req, hreq⟩ := List.exists_mem_of_ne_nil _ hne
      obtain ⟨hval, hready, hdecoding⟩ := Scheduler.mem_ready_decodes.mp hreq
      exact ⟨_, req, hfirst.mem_values.mp hval, hready, fun _ => Or.inl hdecoding⟩
  · rintro ⟨id, req, hrun, hfit⟩
    obtain ⟨rfl, hreq, hopen⟩ := hfirst.running id req hrun
    have hval := hfirst.mem_values.mpr hrun
    rcases prefill_or_decode hopen with hprefill | hdecoding
    · obtain ⟨hready, hlen⟩ := (fitting_prefill_iff hreq hprefill).mp hfit
      exact Or.inl ⟨req, Scheduler.mem_ready_prefills.mpr ⟨hval, hready, hprefill⟩, hlen⟩
    · exact Or.inr (List.ne_nil_of_mem
        (Scheduler.mem_ready_decodes.mpr ⟨hval, hfit.1, hdecoding⟩))

/-- A first peer with the given budget that has taken one prompt of 16 tokens into its queue. -/
def one_prompt (max_num_tokens_per_batch : Nat) : Scheduler :=
  { Scheduler.init 2 max_num_tokens_per_batch 2 true (some (small_cache 1)) 600 (some (.one 2))
      none with
    wait_queue :=
      [{ short_prompt "a" with ready_for_next_step := true, last_updated_time := some 0 }] }

theorem one_prompt_reached (max_num_tokens_per_batch : Nat) :
    Reached (.init 2 max_num_tokens_per_batch 2 true (some (small_cache 1)) 600 (some (.one 2)) none)
      (one_prompt max_num_tokens_per_batch) :=
  .enque_request .init (show PeerRequest true (short_prompt "a") from ⟨rfl, rfl⟩)
    (show Scheduler.enque_request _ 0 _ = .ok (one_prompt max_num_tokens_per_batch) from rfl)

/-- With a budget of 16 tokens the prompt goes into a batch. -/
theorem one_prompt_is_batched : ((one_prompt 16).form_batch 0).1 ≠ [] :=
  (batch_is_formed_iff 2 16 2 true (some (small_cache 1)) 600 (some (.one 2)) none (one_prompt 16) 0
    (by decide) (one_prompt_reached 16)).1.mpr
    ⟨"a", { short_prompt "a" with ready_for_next_step := true, last_updated_time := some 0 },
      by decide +kernel, rfl, fun _ => Or.inr (by decide)⟩

/-- With a budget of four tokens it runs and holds a block, and no batch takes it. -/
theorem long_prompt_is_never_batched :
    ¬ ∀ (max_batch_size max_num_tokens_per_batch micro_batch_ratio : Nat) (is_first_peer : Bool)
      (cache_manager : Option CacheManager) (request_timeout_s : Nat)
      (eos_token_id : Option EosTokenId) (tokenizer_eos_token_id : Option Int) (s : Scheduler)
      (now : Nat), 1 ≤ max_num_tokens_per_batch →
      Reached (.init max_batch_size max_num_tokens_per_batch micro_batch_ratio is_first_peer
        cache_manager request_timeout_s eos_token_id tokenizer_eos_token_id) s →
      (∃ id req, s.get_running_request id = some req ∧ req.ready_for_next_step = true) →
      (s.form_batch now).1 ≠ [] := by
  intro hall
  have h := hall 2 4 2 true (some (small_cache 1)) 600 (some (.one 2)) none
    ((one_prompt 4).admit_requests 0) 0 (by decide)
    (.admit_requests 0 (one_prompt_reached 4))
    ⟨"a", { short_prompt "a" with ready_for_next_step := true, last_updated_time := some 0 },
      by decide +kernel, rfl⟩
  revert h
  decide +kernel

end parallax.server.scheduler
