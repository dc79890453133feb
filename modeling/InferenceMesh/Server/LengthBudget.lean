-- The length of a request at a first peer (base_executor.py, request.py and
-- cache_manager.py): the clamp of `_handle_raw_request` leaves room for the
-- prompt and the new tokens, and a batch appends one slot to a context only
-- for a token that was committed since the last one.
import InferenceMesh.Server.Batching
import InferenceMesh.Server.PeerRun
import InferenceMesh.Server.SlotMapping

open ordered_dict python Relation state_exn
open parallax.server.cache_manager parallax.server.request parallax.server.scheduler
open parallax.server.mlx_executor

namespace parallax.server.executor

/-! ## The clamp -/

/-- The limit on the sequence, 2048 when none is given. -/
def sequence_limit (max_sequence_length : Option Nat) : Nat := max_sequence_length.getD 2048

/-- What is kept of a prompt. -/
def kept_prompt (limit : Nat) (ids : List Int) : List Int :=
  if ids.length ≥ limit then ids.take (max 5 (limit - 10)) else ids

/-- The limit on the new tokens of a prompt of so many tokens. -/
def new_tokens (limit prompt_len : Nat) : Option Int → Int
  | none => (limit - prompt_len : Nat)
  | some n => if (prompt_len : Int) + n ≥ limit then (limit - prompt_len : Nat) else n

/-- What the clamp owes: a part of the prompt, and room for at least one new token. -/
structure Clamped (limit : Nat) (ids : List Int) (max_tokens : Option Int) (req : Request) :
    Prop where
  prompt : req.input_ids <+: ids ∧ req.prompt_len = req.input_ids.length
  kept : 1 ≤ req.prompt_len ∧ req.prompt_len ≤ ids.length
  budget : ∃ max_new_tokens max_total_length,
    req.kind = .initial max_new_tokens max_total_length ∧ 1 ≤ max_new_tokens ∧
      (∀ m, max_tokens = some m → (max_new_tokens : Int) ≤ m) ∧
      req.prompt_len + max_new_tokens ≤ limit

theorem handle_raw_request_eq {max_sequence_length : Option Nat} {raw : RawRequest}
    {ids : List Int} (hprompt : raw.prompt = .ok ids) :
    handle_raw_request max_sequence_length raw =
      initial_request (if raw.rid = "" then raw.new_id else raw.rid)
        (kept_prompt (sequence_limit max_sequence_length) ids)
        (raw_sampling_params raw.sampling_params)
        (new_tokens (sequence_limit max_sequence_length)
          (kept_prompt (sequence_limit max_sequence_length) ids).length raw.max_tokens)
        ((kept_prompt (sequence_limit max_sequence_length) ids).length +
          new_tokens (sequence_limit max_sequence_length)
            (kept_prompt (sequence_limit max_sequence_length) ids).length raw.max_tokens).toNat
        raw.lora_path (raw.routing_table.getD []) := by
  unfold handle_raw_request
  rw [hprompt]
  rfl

theorem initial_request.spec {id : String} {ids : List Int} {p : SamplingParams} {n : Int}
    {total : Nat} {lora_path : Option String} {table : List String} {req : Request} :
    initial_request id ids p n total lora_path table = .ok req ↔ ids ≠ [] ∧ 1 ≤ n ∧ req =
      { request_id := id, input_ids := ids, sampling_params := p, lora_path := lora_path
        routing_table := table, prompt_len := ids.length
        kind := .initial n.toNat total } := by
  unfold initial_request
  by_cases hids : ids = []
  · simp [hids]
  · by_cases hn : n < 1
    · simp [hids, hn]
    · simp only [List.isEmpty_iff, hids, hn, if_false, Except.ok.injEq, ne_eq, not_false_eq_true,
        true_and]
      exact ⟨fun h => ⟨by omega, h.symm⟩, fun h => h.2.symm⟩

theorem kept_prompt.spec {limit : Nat} (ids : List Int) (hlimit : 6 ≤ limit) (hids : ids ≠ []) :
    kept_prompt limit ids <+: ids ∧ 1 ≤ (kept_prompt limit ids).length ∧
      (kept_prompt limit ids).length < limit := by
  have hpos : 1 ≤ ids.length := List.length_pos_iff.mpr hids
  unfold kept_prompt
  split
  · refine ⟨List.take_prefix _ _, ?_, ?_⟩
    · rw [List.length_take]
      omega
    · rw [List.length_take]
      omega
  · exact ⟨List.prefix_refl _, hpos, by omega⟩

/-- New tokens that are granted fit behind the prompt. -/
theorem new_tokens_fit {limit prompt_len : Nat} {max_tokens : Option Int}
    (h : 1 ≤ new_tokens limit prompt_len max_tokens) :
    prompt_len + (new_tokens limit prompt_len max_tokens).toNat ≤ limit := by
  unfold new_tokens at *
  rcases max_tokens with _ | n
  · dsimp only at *
    omega
  · dsimp only at *
    split at h <;> omega

/-- With room behind the prompt, at least one new token is granted, and not more than asked for. -/
theorem new_tokens_granted {limit prompt_len : Nat} {max_tokens : Option Int}
    (hroom : prompt_len < limit) (hmax : ∀ m, max_tokens = some m → 1 ≤ m) :
    1 ≤ new_tokens limit prompt_len max_tokens ∧
      ∀ m, max_tokens = some m → new_tokens limit prompt_len max_tokens ≤ m := by
  unfold new_tokens
  rcases max_tokens with _ | n
  · dsimp only
    exact ⟨by omega, fun m hm => by cases hm⟩
  · have hn := hmax n rfl
    dsimp only
    split
    · refine ⟨by omega, ?_⟩
      rintro m ⟨⟩
      omega
    · refine ⟨hn, ?_⟩
      rintro m ⟨⟩
      exact le_refl n

theorem handle_raw_request_clamps {max_sequence_length : Option Nat} {raw : RawRequest}
    {ids : List Int} (hlimit : 6 ≤ sequence_limit max_sequence_length)
    (hprompt : raw.prompt = .ok ids) (hids : ids ≠ [])
    (hmax : ∀ m, raw.max_tokens = some m → 1 ≤ m) :
    ∃ req, handle_raw_request max_sequence_length raw = .ok req ∧
      Clamped (sequence_limit max_sequence_length) ids raw.max_tokens req := by
  obtain ⟨hkept, hpos, hroom⟩ := kept_prompt.spec ids hlimit hids
  obtain ⟨hone, hmost⟩ := new_tokens_granted hroom hmax
  refine ⟨_, (handle_raw_request_eq hprompt).trans (initial_request.spec.mpr
    ⟨List.length_pos_iff.mp hpos, hone, rfl⟩), ⟨hkept, rfl⟩, ⟨hpos, hkept.length_le⟩, ?_⟩
  refine ⟨_, _, rfl, by omega, ?_, new_tokens_fit hone⟩
  intro m hm
  have := hmost m hm
  omega

/-! ## What a request may take -/

/-- An open request of a first peer, with room for the tokens that it still may get. -/
def Fits (limit : Nat) (req : Request) : Prop :=
  req.is_finished = false ∧ ∃ max_new_tokens max_total_length,
    req.kind = .initial max_new_tokens max_total_length ∧
      req.prompt_len + max_new_tokens ≤ limit ∧ req.output_length < max_new_tokens

theorem fits_unwritten (limit : Nat) : Unwritten (Fits limit) := fun _ _ _ _ h => h

theorem accepted_fits {max_sequence_length : Option Nat} {raw : RawRequest} {req : Request}
    (h : handle_raw_request max_sequence_length raw = .ok req) :
    Fits (sequence_limit max_sequence_length) req ∧ req.is_decoding = false := by
  rcases hprompt : raw.prompt with err | ids
  · unfold handle_raw_request at h
    rw [hprompt] at h
    cases h
  · rw [handle_raw_request_eq hprompt, initial_request.spec] at h
    obtain ⟨_, hone, rfl⟩ := h
    refine ⟨⟨rfl, _, _, rfl, new_tokens_fit hone, ?_⟩, rfl⟩
    show 0 < _
    omega

/-- The slots that the next batch of a request appends: one for a decode that is ready. -/
def owed (req : Request) : Nat := if req.ready_for_next_step && req.is_decoding then 1 else 0

/-- The contexts of the running requests, with a slot for each of the requests that are due. -/
structure Within (due : List String) (running : Dict String Request) (m : CacheManager) :
    Prop where
  tracked : ∀ id c, m.context_lengths.get? id = some c →
    m.needs_blocks = true ∧ m.block_tables.has id = true
  bounded : ∀ id c, m.context_lengths.get? id = some c → ∃ r, running.get? id = some r ∧
    c + owed r + (if id ∈ due then 1 else 0) ≤ r.prompt_len + r.output_length

namespace Within

variable {due : List String} {running running' : Dict String Request} {m m' : CacheManager}
  {id : String}

theorem none_due (h : Within due running m) : Within [] running m := by
  refine ⟨h.tracked, ?_⟩
  intro id c hc
  obtain ⟨r, hr, hle⟩ := h.bounded id c hc
  refine ⟨r, hr, ?_⟩
  simp only [List.not_mem_nil, if_false]
  omega

/-- A request may gain tokens, and owe a slot for them. -/
theorem mono (h : Within due running m) (hrun : ∀ id r, running.get? id = some r →
      ∃ r', running'.get? id = some r' ∧
        owed r' + (r.prompt_len + r.output_length) ≤ owed r + (r'.prompt_len + r'.output_length)) :
    Within due running' m := by
  refine ⟨h.tracked, ?_⟩
  intro id c hc
  obtain ⟨r, hr, hle⟩ := h.bounded id c hc
  obtain ⟨r', hr', hgain⟩ := hrun id r hr
  exact ⟨r', hr', by omega⟩

theorem allocate (h : Within due running m) {n : Nat} {r : Request}
    (hr : running.get? id = some r)
    (hn : n + owed r + (if id ∈ due then 1 else 0) ≤ r.prompt_len + r.output_length) :
    Within due running (m.allocate_request id n).2 := by
  unfold CacheManager.allocate_request
  split
  · exact h
  · split
    · exact h
    · split
      · exact ⟨h.tracked, h.bounded⟩
      · unfold CacheManager.commit
        by_cases hb : m.needs_blocks = true
        · refine ⟨?_, ?_⟩
          · intro id' c hc
            refine ⟨hb, ?_⟩
            simp only [hb, if_true, Dict.get?_insert, Dict.has] at hc ⊢
            split
            · rfl
            · rename_i hne
              rw [if_neg hne] at hc
              exact (h.tracked id' c hc).2
          · intro id' c hc
            simp only [hb, if_true, Dict.get?_insert] at hc
            split at hc
            · rename_i heq
              subst heq
              cases hc
              exact ⟨r, hr, hn⟩
            · exact h.bounded id' c hc
        · simp only [hb]
          exact ⟨h.tracked, h.bounded⟩

/-- A request that gets no memory has no context, as before. -/
theorem refused (h : Within due running m) {n : Nat}
    (hrun : m.allocate_request id n = (false, m')) : Within due running m' := by
  unfold CacheManager.allocate_request at hrun
  split at hrun
  · cases hrun
  · split at hrun
    · cases hrun
      exact h
    · split at hrun
      · cases hrun
        exact ⟨h.tracked, h.bounded⟩
      · cases hrun

/-- The slot that was due is appended. -/
theorem append (h : Within (id :: due) running m) (hnot : id ∉ due) {ok : Bool}
    (hrun : m.append_slot id = .ok (ok, m')) : Within due running m' := by
  have hless : Within due running m := by
    refine ⟨h.tracked, ?_⟩
    intro id' c hc
    obtain ⟨r, hr, hle⟩ := h.bounded id' c hc
    refine ⟨r, hr, ?_⟩
    by_cases hin : id' ∈ due
    · rw [if_pos (List.mem_cons_of_mem _ hin)] at hle
      rw [if_pos hin]
      exact hle
    · rw [if_neg hin]
      omega
  cases ok with
  | false => rw [append_slot_false hrun]; exact hless
  | true =>
    by_cases hb : m.needs_blocks = true
    · obtain ⟨t, c, ht, hc, hcases⟩ := append_slot_cases hb hrun
      -- The context grows by one token, and the table stays in its place.
      have hctx : m'.context_lengths = m.context_lengths.insert id (c + 1) := by
        rcases hcases with ⟨_, _, rfl⟩ | ⟨_, rfl⟩ <;> rfl
      have hblocks : m'.needs_blocks = true := by
        rcases hcases with ⟨_, _, rfl⟩ | ⟨_, rfl⟩ <;> exact hb
      have htables : ∀ id', m.block_tables.has id' = true → m'.block_tables.has id' = true := by
        intro id' hhas
        rcases hcases with ⟨_, _, rfl⟩ | ⟨_, rfl⟩
        · unfold Dict.has
          rw [Dict.get?_insert]
          split
          · rfl
          · exact hhas
        · exact hhas
      refine ⟨?_, ?_⟩
      · intro id' c' hc'
        rw [hctx, Dict.get?_insert] at hc'
        refine ⟨hblocks, htables id' ?_⟩
        split at hc'
        · rename_i heq
          exact heq ▸ (h.tracked id c hc).2
        · exact (h.tracked id' c' hc').2
      · intro id' c' hc'
        rw [hctx, Dict.get?_insert] at hc'
        split at hc'
        · rename_i heq
          subst heq
          cases hc'
          obtain ⟨r, hr, hle⟩ := h.bounded id c hc
          rw [if_pos List.mem_cons_self] at hle
          exact ⟨r, hr, by rw [if_neg hnot]; omega⟩
        · exact hless.bounded id' c' hc'
    · unfold CacheManager.append_slot at hrun
      rw [if_pos (by simp [hb])] at hrun
      cases hrun
      exact hless

/-- A released request leaves no context behind. -/
theorem release (h : Within due running m) (id : String)
    (hrun : ∀ id', id' ≠ id → running'.get? id' = running.get? id') :
    Within due running' (m.release_request id) := by
  have hctx : ∀ id' c, (m.release_request id).context_lengths.get? id' = some c →
      id' ≠ id ∧ m.context_lengths.get? id' = some c := by
    intro id' c hc
    unfold CacheManager.release_request CacheManager.free_request at hc
    rw [(free_slot_of_blocks (m.free_blocks_of id) id).2.2.1] at hc
    unfold CacheManager.free_blocks_of at hc
    split at hc
    · split at hc
      · rw [Dict.get?_erase] at hc
        split at hc
        · cases hc
        · rename_i hne
          exact ⟨Ne.symm hne, hc⟩
      · rename_i hnone
        refine ⟨?_, hc⟩
        rintro rfl
        have hhas := (h.tracked id' c hc).2
        unfold Dict.has at hhas
        rw [hnone] at hhas
        cases hhas
    · rename_i hb
      exact absurd (h.tracked id' c hc).1 hb
  have honly := m.release_request_only_for id
  refine ⟨?_, ?_⟩
  · intro id' c hc
    obtain ⟨hne, hold⟩ := hctx id' c hc
    obtain ⟨hb, hhas⟩ := h.tracked id' c hold
    refine ⟨honly.needs_blocks.trans hb, ?_⟩
    unfold Dict.has at *
    rw [honly.tables id' hne]
    exact hhas
  · intro id' c hc
    obtain ⟨hne, hold⟩ := hctx id' c hc
    obtain ⟨r, hr, hle⟩ := h.bounded id' c hold
    exact ⟨r, (hrun id' hne).trans hr, hle⟩

end Within

/-! ## Batches -/

/-- Prepares the inputs of the prefills of a batch, and then those of the decodes. -/
def prepare_batch_inputs (peer : Peer) (batched_requests : List Request) :
    CacheM (Option BatchInputs × Option BatchInputs) := do
  let prefill_batch ← prepare_prefill_batch peer (batched_requests.filter Request.is_prefill)
  let decode_batch ← prepare_decode_batch peer
    (batched_requests.filter (fun req => !req.is_prefill && req.is_decoding))
  return (prefill_batch, decode_batch)

/-- Naive error handling: release and evict all requests in the batch. -/
def give_up (batch : List Request) (e : Executor) : Executor :=
  batch.foldl (fun e req => release_and_evict_request req.request_id e) e

def Executor.with_cache (e : Executor) (m : CacheManager) : Executor :=
  { e with scheduler := { e.scheduler with cache_manager := some m } }

/-- The batch that is formed next, and what its preparation does to the cache `m`. -/
def run_batch (now : Nat) (pad_token_id : Int) (m : CacheManager) (e : Executor) : Executor :=
  let (batch, s) := e.scheduler.form_batch now
  let e := e.with_scheduler s
  match prepare_batch_inputs ⟨e.is_first_peer, e.is_last_peer, pad_token_id⟩ batch m with
  | .ok _ m' => e.with_cache m'
  | .error _ m' => give_up batch (e.with_cache m')

/-- The steps of the run loop outside of a batch. -/
def outside_batches : Event → Bool
  | .form_batch _ => false
  | .prepare _ => false
  | _ => true

/-- The turns of the run loop. A batch is prepared as soon as it is formed. When something behind
the preparation raises, the requests of the batch are given up. -/
inductive Turn : Loop → Loop → Prop where
  | step {l l' : Loop} {event : Event} (hevent : outside_batches event = true)
      (hstep : Step l event l') : Turn l l'
  | batch {e : Executor} {received : List Request} {m : CacheManager} (now : Nat)
      (pad_token_id : Int) (hcache : (e.scheduler.form_batch now).2.cache_manager = some m) :
      Turn ⟨e, received⟩ ⟨run_batch now pad_token_id m e, received⟩
  | give_up {e : Executor} {received : List Request} (batch : List Request) :
      Turn ⟨e, received⟩ ⟨executor.give_up batch e, received⟩

section rows

variable {due : List String} {running : Dict String Request} {peer : Peer}

/-- The request of a prefill owes nothing, and its prompt is paid for. -/
def Paid (due : List String) (running : Dict String Request) (req : Request) : Prop :=
  ∃ r, running.get? req.request_id = some r ∧
    req.total_length + owed r + (if req.request_id ∈ due then 1 else 0) ≤
      r.prompt_len + r.output_length

theorem prefill_row_within {req : Request} (hpaid : Paid due running req) :
    Keeps (Within due running) (prefill_row peer req) := by
  obtain ⟨r, hr, hn⟩ := hpaid
  unfold prefill_row
  refine Keeps.cond (fun _ => Keeps.bind (Keeps.throws _) (fun _ => ?_)) (fun _ => ?_) <;>
  · refine Keeps.bind (Keeps.modifyGets ?_) (fun success => Keeps.cond (fun _ => ?_) (fun _ => ?_))
    · exact fun m h => h.allocate hr hn
    · exact Keeps.bind (Keeps.throws _) (fun _ => Keeps.bind Keeps.gets (fun _ => Keeps.pure _))
    · exact Keeps.bind Keeps.gets (fun _ => Keeps.pure _)

theorem gather_prefill_within {reqs : List Request} (hpaid : ∀ req ∈ reqs, Paid due running req) :
    Keeps (Within due running) (gather (prefill_row peer) reqs) := by
  induction reqs with
  | nil => exact Keeps.pure _
  | cons req rest ih =>
    obtain ⟨hreq, hrest⟩ := List.forall_mem_cons.mp hpaid
    exact Keeps.bind (prefill_row_within hreq)
      (fun _ => Keeps.bind (ih hrest) (fun _ => Keeps.pure _))

theorem batch_rows_within (rows : List Row) : Keeps (Within due running) (batch_rows rows) := by
  induction rows with
  | nil => exact Keeps.pure _
  | cons row rest ih =>
    unfold batch_rows
    rcases row.rows with _ | r
    · exact Keeps.throws _
    · exact Keeps.bind ih (fun _ => Keeps.pure _)

theorem prepare_prefill_within {reqs : List Request} (hpaid : ∀ req ∈ reqs, Paid due running req) :
    Keeps (Within due running) (prepare_prefill_batch peer reqs) := by
  unfold prepare_prefill_batch
  refine Keeps.cond (fun _ => Keeps.pure _) (fun _ => ?_)
  refine Keeps.bind (gather_prefill_within hpaid) (fun rows => ?_)
  refine Keeps.bind (batch_rows_within rows) (fun _ => Keeps.bind Keeps.gets (fun m => ?_))
  split
  · exact Keeps.throws _
  · exact Keeps.pure _

/-- The slot of a decode is appended once. -/
theorem decode_row_within {req : Request} (hnot : req.request_id ∉ due) :
    Triple (Within (req.request_id :: due) running) (decode_row peer req)
      (fun _ => Within due running) (fun _ => Within [] running) := by
  unfold decode_row
  refine Triple.cond (fun _ => Triple.bind (R := fun _ _ => False)
      (Triple.throws (fun _ h => h.none_due)) (fun _ => ?_)) (fun _ => ?_)
  · exact fun _ h => absurd h not_false
  refine Triple.cond (fun _ => Triple.bind (R := fun _ _ => False)
      (Triple.throws (fun _ h => h.none_due)) (fun _ => ?_)) (fun _ => ?_)
  · exact fun _ h => absurd h not_false
  refine Triple.reads fun m h => ?_
  rcases hrun : m.append_slot req.request_id with e | ⟨_ | _, m'⟩
  · exact Triple.throws (fun s hs => hs ▸ h.none_due)
  · exact Triple.throws (fun s hs => hs ▸ h.none_due)
  · exact Triple.bind (R := fun _ => Within due running) (Triple.sets (fun _ _ => h.append hnot hrun))
      (fun _ => Triple.pure (fun _ hs => hs))

theorem gather_decode_within {reqs : List Request}
    (hids : (reqs.map Request.request_id).Nodup) :
    Triple (Within (reqs.map Request.request_id) running) (gather (decode_row peer) reqs)
      (fun _ => Within [] running) (fun _ => Within [] running) := by
  induction reqs with
  | nil => exact Triple.pure (fun _ h => h)
  | cons req rest ih =>
    obtain ⟨hnot, hrest⟩ := List.nodup_cons.mp hids
    exact Triple.bind (decode_row_within hnot)
      (fun _ => Triple.bind (ih hrest) (fun _ => Triple.pure (fun _ h => h)))

theorem prepare_decode_within {reqs : List Request}
    (hids : (reqs.map Request.request_id).Nodup) :
    Triple (Within (reqs.map Request.request_id) running) (prepare_decode_batch peer reqs)
      (fun _ => Within [] running) (fun _ => Within [] running) := by
  unfold prepare_decode_batch
  refine Triple.cond (fun _ => Triple.pure (fun _ h => h.none_due)) (fun _ => ?_)
  refine Triple.bind (gather_decode_within hids) (fun rows => ?_)
  exact Keeps.bind (batch_rows_within rows) (fun _ => Keeps.bind Keeps.gets (fun _ => Keeps.pure _))

/-- The preparation of a batch, on either exit. -/
theorem prepare_batch_within {batch : List Request}
    (hids : ((batch.filter (fun req => !req.is_prefill && req.is_decoding)).map
      Request.request_id).Nodup)
    (hpaid : ∀ req ∈ batch.filter Request.is_prefill,
      Paid ((batch.filter (fun req => !req.is_prefill && req.is_decoding)).map
        Request.request_id) running req) :
    Triple (Within ((batch.filter (fun req => !req.is_prefill && req.is_decoding)).map
        Request.request_id) running) (prepare_batch_inputs peer batch)
      (fun _ => Within [] running) (fun _ => Within [] running) := by
  unfold prepare_batch_inputs
  refine Triple.bind ((prepare_prefill_within hpaid).mono (fun _ h => h) (fun _ _ h => h)
    (fun _ _ h => h.none_due)) (fun _ => ?_)
  exact Triple.bind (prepare_decode_within hids) (fun _ => Triple.pure (fun _ h => h))

end rows

/-! ## The scheduler -/

/-- The requests fit, those that wait have no token yet, and the contexts are within budget. -/
structure Bounded (limit : Nat) (s : Scheduler) : Prop where
  requests : Holds (Fits limit) s
  waiting : ∀ req ∈ s.wait_queue, req.is_decoding = false
  cache : ∀ m, s.cache_manager = some m → Within [] s.running_requests m

theorem owed_waiting {req : Request} (h : req.is_decoding = false) : owed req = 0 := by
  unfold owed
  rw [h, Bool.and_false]
  rfl

theorem total_length_fits {limit : Nat} {req : Request} (h : Fits limit req) :
    req.total_length = req.prompt_len + req.output_length := by
  obtain ⟨_, max_new_tokens, max_total_length, hkind, _⟩ := h
  unfold Request.total_length
  rw [hkind]

section scheduler_steps

variable {limit : Nat} {s : Scheduler} {now : Nat}

/-- One turn of the admission. A request that is not running has no context. -/
theorem admit_one_within {req : Request} (hfits : Fits limit req)
    (hwaits : req.is_decoding = false)
    (h : ∀ m, s.cache_manager = some m → Within [] s.running_requests m) :
    ∀ m, (s.admit_one now req).cache_manager = some m →
      Within [] (s.admit_one now req).running_requests m := by
  unfold Scheduler.admit_one
  by_cases hhas : s.running_requests.has req.request_id = true
  · rw [if_pos hhas]
    exact h
  have hnew : s.running_requests.get? req.request_id = none :=
    Dict.has_eq_false.mp (by simpa using hhas)
  rw [if_neg hhas]
  have hstarts : ∀ m, Within [] s.running_requests m → Within [] (s.running_requests.insert
      req.request_id { req with last_updated_time := some now }) m := by
    intro m hm
    refine hm.mono fun id r hr => ⟨r, ?_, le_refl _⟩
    rw [Dict.get?_insert_ne _ _ (fun heq => by rw [← heq, hnew] at hr; cases hr)]
    exact hr
  have hself : (s.running_requests.insert req.request_id
      { req with last_updated_time := some now }).get? req.request_id =
        some { req with last_updated_time := some now } := Dict.get?_insert_self _ _ _
  have hpays : req.total_length + owed { req with last_updated_time := some now } +
      (if req.request_id ∈ [] then 1 else 0) ≤ req.prompt_len + req.output_length := by
    have hzero : owed { req with last_updated_time := some now } = 0 := owed_waiting hwaits
    rw [hzero, total_length_fits hfits]
    simp
  unfold Scheduler.make_resident
  rcases hc : s.cache_manager with _ | m
  · intro m hm
    have hnone : s.cache_manager = some m := hm
    rw [hc] at hnone
    cases hnone
  · dsimp only
    have hm := h m hc
    by_cases hin : m.has_request req.request_id = true
    · rw [if_pos hin]
      intro m' hm'
      have hsame : s.cache_manager = some m' := hm'
      rw [hc] at hsame
      cases hsame
      exact hstarts m hm
    · rw [if_neg hin]
      have hall := (hstarts m hm).allocate hself hpays
      rcases halloc : m.allocate_request req.request_id req.total_length with ⟨_ | _, m'⟩
      · intro m'' hm''
        cases hm''
        exact hm.refused halloc
      · intro m'' hm''
        cases hm''
        rw [halloc] at hall
        exact hall

theorem admit_requests_bounded (h : Bounded limit s) : Bounded limit (s.admit_requests now) := by
  have hadm := Scheduler.admit_requests.spec now s
  refine ⟨h.requests.admit_requests (fits_unwritten limit),
    fun req hreq => h.waiting req (hadm.waits.mem hreq), ?_⟩
  let Q := fun t : Scheduler =>
    ∀ m, t.cache_manager = some m → Within [] t.running_requests m
  obtain ⟨t, waiting, ht, _, heq⟩ := Scheduler.admit_from_rule (Q := Q) now s.wait_queue s h.cache
    (fun s' req hreq hs' =>
      admit_one_within (h.requests.waiting req hreq) (h.waiting req hreq) hs')
  unfold Scheduler.admit_requests
  rw [heq]
  exact ht

/-- The decodes of a batch. -/
def decodes_of (batch : List Request) : List Request :=
  batch.filter (fun req => !req.is_prefill && req.is_decoding)

/-- Each request of a batch is a running one that was ready. -/
theorem batch_origin (h : Bounded limit s) {req : Request} (hreq : req ∈ (s.form_batch now).1) :
    ∃ r, req = Scheduler.taken now r ∧ r.ready_for_next_step = true ∧
      (s.admit_requests now).running_requests.get? req.request_id = some r := by
  have hadm : Bounded limit (s.admit_requests now) := admit_requests_bounded h
  unfold Scheduler.form_batch at hreq
  obtain ⟨r, hr, rfl⟩ := List.mem_map.mp hreq
  obtain ⟨hrun, hready⟩ := Scheduler.select_batch_running hadm.requests hr
  exact ⟨r, rfl, hready, hrun⟩

theorem batch_distinct (h : Bounded limit s) :
    ((s.form_batch now).1.map Request.request_id).Nodup := by
  have hadm : Bounded limit (s.admit_requests now) := admit_requests_bounded h
  have heq : (s.form_batch now).1.map Request.request_id =
      (s.admit_requests now).select_batch.map Request.request_id := by
    unfold Scheduler.form_batch
    simp [Scheduler.taken]
  rw [heq]
  exact Scheduler.select_batch_distinct hadm.requests

theorem form_batch_running (h : Bounded limit s) {id : String} {r : Request}
    (hr : (s.admit_requests now).running_requests.get? id = some r) :
    (s.form_batch now).2.running_requests.get? id =
      some (if id ∈ (s.form_batch now).1.map Request.request_id then Scheduler.taken now r
        else r) := by
  have hadm : Bounded limit (s.admit_requests now) := admit_requests_bounded h
  obtain ⟨rfl, _⟩ := hadm.requests.running id r hr
  unfold Scheduler.form_batch
  dsimp only
  rw [Dict.get?_mapValues, hr, List.map_map]
  rfl

/-- The decodes of a formed batch are due. -/
theorem form_batch_within (h : Bounded limit s) {m : CacheManager}
    (hm : (s.form_batch now).2.cache_manager = some m) :
    Within ((decodes_of (s.form_batch now).1).map Request.request_id)
      (s.form_batch now).2.running_requests m := by
  have hadm : Bounded limit (s.admit_requests now) := admit_requests_bounded h
  have hold := hadm.cache m hm
  refine ⟨hold.tracked, ?_⟩
  intro id c hc
  obtain ⟨r, hr, hle⟩ := hold.bounded id c hc
  rw [if_neg List.not_mem_nil, Nat.add_zero] at hle
  refine ⟨_, form_batch_running h hr, ?_⟩
  by_cases hdue : id ∈ (decodes_of (s.form_batch now).1).map Request.request_id
  · -- It was ready and owed the slot that is due now.
    obtain ⟨req, hreq, rfl⟩ := List.mem_map.mp hdue
    obtain ⟨hbatch, hdec⟩ := List.mem_filter.mp hreq
    obtain ⟨r', rfl, hready, hr'⟩ := batch_origin h hbatch
    rw [hr] at hr'
    cases hr'
    have hone : owed r = 1 := by
      have hdec' : r.is_decoding = true := (Bool.and_eq_true_iff.mp hdec).2
      unfold owed
      rw [hready, hdec']
      rfl
    rw [if_pos hdue, if_pos (List.mem_map_of_mem hbatch)]
    show c + 0 + 1 ≤ r.prompt_len + r.output_length
    omega
  · rw [if_neg hdue, Nat.add_zero]
    split
    · show c + 0 ≤ r.prompt_len + r.output_length
      omega
    · exact hle

/-- The prompts of a formed batch are paid for. -/
theorem form_batch_paid (h : Bounded limit s) {req : Request}
    (hreq : req ∈ (s.form_batch now).1.filter Request.is_prefill) :
    Paid ((decodes_of (s.form_batch now).1).map Request.request_id)
      (s.form_batch now).2.running_requests req := by
  have hadm : Bounded limit (s.admit_requests now) := admit_requests_bounded h
  obtain ⟨hbatch, hpre⟩ := List.mem_filter.mp hreq
  obtain ⟨r, rfl, _, hr⟩ := batch_origin h hbatch
  have hfits : Fits limit (Scheduler.taken now r) :=
    fits_unwritten limit r false r.abort (some now) (hadm.requests.running _ r hr).2
  have hnot : (Scheduler.taken now r).request_id ∉
      (decodes_of (s.form_batch now).1).map Request.request_id := by
    intro hdue
    obtain ⟨req', hreq', hid⟩ := List.mem_map.mp hdue
    obtain ⟨hbatch', hdec⟩ := List.mem_filter.mp hreq'
    rw [List.inj_on_of_nodup_map (batch_distinct h) hbatch' hbatch hid, hpre] at hdec
    cases hdec
  refine ⟨Scheduler.taken now r, ?_, ?_⟩
  · rw [form_batch_running h hr, if_pos (List.mem_map_of_mem hbatch)]
  · rw [total_length_fits hfits, if_neg hnot]
    exact le_refl _

end scheduler_steps

/-! ## The executor -/

/-- The invariant of the run loop of a first peer. -/
structure Budgeted (limit : Nat) (l : Loop) : Prop where
  peer : FirstPeer l.peer
  sequence : sequence_limit l.peer.max_sequence_length = limit
  scheduler : Bounded limit l.peer.scheduler
  received : ∀ req ∈ l.received, req.is_initial = true →
    Fits limit req ∧ req.is_decoding = false

section executor_steps

variable {limit : Nat} {e e' : Executor} {now : Nat} {req : Request} {received : List Request}

/-- One request is replaced by itself with other marks, or with more tokens. -/
theorem bounded_replaced {s : Scheduler} {running : Dict String Request} {r r' : Request}
    (h : Bounded limit s) (hr : s.running_requests.get? r'.request_id = some r)
    (hrun : ∀ id, running.get? id =
      if r'.request_id = id then some r' else s.running_requests.get? id)
    (hfits : Fits limit r')
    (hgain : owed r' + (r.prompt_len + r.output_length) ≤
      owed r + (r'.prompt_len + r'.output_length)) :
    Bounded limit { s with running_requests := running } := by
  refine ⟨⟨h.requests.waiting, ?_⟩, h.waiting, fun m hm => (h.cache m hm).mono ?_⟩
  · intro id q hq
    have hq' := (hrun id).symm.trans hq
    split at hq'
    · rename_i hid
      cases hq'
      exact ⟨hid, hfits⟩
    · exact h.requests.running id q hq'
  · intro id q hq
    rw [hrun]
    split
    · rename_i hid
      rw [← hid, hr] at hq
      cases hq
      exact ⟨r', rfl, hgain⟩
    · exact ⟨q, hq, le_refl _⟩

/-- One request is not running any more, and is released. -/
theorem bounded_ended {s : Scheduler} {running : Dict String Request} {id : String}
    (h : Bounded limit s)
    (hrun : ∀ id', running.get? id' = if id = id' then none else s.running_requests.get? id') :
    Bounded limit { s with
      running_requests := running
      cache_manager := s.cache_manager.map (fun m => m.release_request id) } := by
  refine ⟨⟨h.requests.waiting, ?_⟩, h.waiting, ?_⟩
  · intro id' q hq
    have hq' := (hrun id').symm.trans hq
    split at hq'
    · cases hq'
    · exact h.requests.running id' q hq'
  · intro m hm
    obtain ⟨m₀, hm₀, rfl⟩ := Option.map_eq_some_iff.mp hm
    exact (h.cache m₀ hm₀).release id
      (fun id' hne => (hrun id').trans (if_neg (Ne.symm hne)))

/-- A request that is given up has left, and its context with it. -/
theorem release_and_evict_bounded {id : String} (h : Bounded limit e.scheduler) :
    Bounded limit (release_and_evict_request id e).scheduler := by
  unfold release_and_evict_request Scheduler.evict_request
  by_cases hhas : e.scheduler.running_requests.has id = true
  · have hhas' : (e.release_request id).scheduler.running_requests.has id = true := hhas
    dsimp only
    rw [if_pos hhas']
    exact bounded_ended h (fun id' => Dict.get?_erase _ _ _)
  · have hhas' : ¬ (e.release_request id).scheduler.running_requests.has id = true := hhas
    have hnone := Dict.has_eq_false.mp (by simpa using hhas)
    dsimp only
    rw [if_neg hhas']
    refine bounded_ended h fun id' => ?_
    split
    · rename_i heq
      rw [← heq]
      exact hnone
    · rfl

theorem release_and_evict_settings (id : String) (e : Executor) :
    Scheduler.SameSettings e.scheduler (release_and_evict_request id e).scheduler ∧
      (release_and_evict_request id e).is_first_peer = e.is_first_peer ∧
      (release_and_evict_request id e).max_sequence_length = e.max_sequence_length := by
  unfold release_and_evict_request Scheduler.evict_request
  dsimp only
  split
  · rename_i hrun
    split at hrun
    · cases hrun
      exact ⟨⟨rfl⟩, rfl, rfl⟩
    · cases hrun
  · exact ⟨⟨rfl⟩, rfl, rfl⟩

theorem first_peer_of {s : Scheduler} (hpeer : FirstPeer e)
    (hset : Scheduler.SameSettings e.scheduler s) (hs : Bounded limit s)
    (he' : e'.scheduler = s) (hfirst : e'.is_first_peer = e.is_first_peer) : FirstPeer e' := by
  subst he'
  refine ⟨hfirst.trans hpeer.first, hset.is_first_peer.trans hpeer.scheduler_first, ?_,
    ⟨fun req hreq => (hs.requests.waiting req hreq).1, fun id req hreq => ?_⟩⟩
  · rw [hset.eos_token_id]
    exact hpeer.eos
  · obtain ⟨hid, hopen, _⟩ := hs.requests.running id req hreq
    exact ⟨hid, hopen⟩

theorem give_up_budgeted {batch : List Request} (h : Budgeted limit ⟨e, received⟩) :
    Budgeted limit ⟨give_up batch e, received⟩ := by
  unfold give_up
  induction batch generalizing e with
  | nil => exact h
  | cons req rest ih =>
    obtain ⟨hset, hfirst, hmax⟩ := release_and_evict_settings req.request_id e
    have hbounded : Bounded limit (release_and_evict_request req.request_id e).scheduler :=
      release_and_evict_bounded h.scheduler
    refine ih ⟨first_peer_of h.peer hset hbounded rfl hfirst, ?_, hbounded, h.received⟩
    rw [hmax]
    exact h.sequence

theorem run_batch_budgeted {m : CacheManager} {pad_token_id : Int}
    (h : Budgeted limit ⟨e, received⟩)
    (hcache : (e.scheduler.form_batch now).2.cache_manager = some m) :
    Budgeted limit ⟨run_batch now pad_token_id m e, received⟩ := by
  have hset := Scheduler.form_batch_settings now e.scheduler
  have hholds : Holds (Fits limit) (e.scheduler.form_batch now).2 :=
    h.scheduler.requests.form_batch (fits_unwritten limit)
  have hadm : Bounded limit (e.scheduler.admit_requests now) := admit_requests_bounded h.scheduler
  have hwaiting := hadm.waiting
  have hprepared : ∀ m', Within [] (e.scheduler.form_batch now).2.running_requests m' →
      Budgeted limit ⟨(e.with_scheduler (e.scheduler.form_batch now).2).with_cache m', received⟩ := by
    intro m' hm'
    have hbounded : Bounded limit { (e.scheduler.form_batch now).2 with cache_manager := some m' } :=
      ⟨⟨hholds.waiting, hholds.running⟩, hwaiting, fun _ hsome => Option.some.inj hsome ▸ hm'⟩
    exact ⟨first_peer_of h.peer (hset.trans ⟨rfl⟩) hbounded rfl rfl, h.sequence, hbounded, h.received⟩
  have hids : ((decodes_of (e.scheduler.form_batch now).1).map Request.request_id).Nodup :=
    (batch_distinct h.scheduler).sublist (List.filter_sublist.map _)
  have htriple := @prepare_batch_within _ ⟨e.is_first_peer, e.is_last_peer, pad_token_id⟩ _ hids
    (fun req hreq => form_batch_paid h.scheduler hreq)
  have hstart := form_batch_within h.scheduler hcache
  unfold run_batch
  dsimp only
  split
  · rename_i out m' hrun
    exact hprepared m' (htriple.ok hstart hrun)
  · rename_i err m' hrun
    exact give_up_budgeted (hprepared m' (htriple.error hstart hrun))

/-! ## Tokens -/

/-- A committed token makes the request one longer, and nothing else of its length. -/
theorem with_token_gain {r : Request} (hopen : r.is_finished = false) (token : Int)
    (table : List String) : (with_token r token table).kind = r.kind ∧
      (with_token r token table).prompt_len = r.prompt_len ∧
      (with_token r token table).output_length = r.output_length + 1 := by
  unfold with_token Request.commit_new_token Request.output_length
  rw [hopen, if_neg Bool.false_ne_true]
  simp

/-- A request that goes on has not used up its new tokens. -/
theorem room_of_not_stopped {s : Scheduler} {r : Request} {max_new_tokens max_total_length : Nat}
    (hkind : r.kind = .initial max_new_tokens max_total_length) (h : stopped s r = false) :
    r.output_length < max_new_tokens := by
  by_contra hfull
  have hstatus : s.finishing_status r ≠ none := by
    unfold Scheduler.finishing_status
    rw [hkind]
    dsimp only
    split
    · simp
    · split
      · simp
      · rw [if_pos (by omega)]
        simp
  unfold stopped at h
  rw [Option.isSome_iff_ne_none.mpr hstatus] at h
  cases h

theorem commit_token_bounded {original_req : Request} {token : Int} (hpeer : FirstPeer e)
    (hbounded : Bounded limit e.scheduler)
    (hrun : e.running req.request_id = some original_req)
    (h : commit_token now req original_req token e = .ok ⟨⟩ e') :
    Bounded limit e'.scheduler ∧ e'.max_sequence_length = e.max_sequence_length := by
  obtain ⟨hid, hopen, max_new_tokens, max_total_length, hkind, hfit, hroom⟩ :=
    hbounded.requests.running _ _ hrun
  obtain ⟨hkind', hprompt, hlonger⟩ := with_token_gain hopen token req.routing_table
  have hopen' := (with_token_decodes hopen token req.routing_table).2
  have hrid := with_token_id original_req token req.routing_table
  rw [hid] at hrid
  rw [commit_token.spec hpeer hrun rfl] at h
  generalize with_token original_req token req.routing_table = r at *
  cases h
  split
  · -- The request has ended, and its memory is released.
    have hends : Bounded limit ((e.put_running r).ends_here req.request_id).scheduler := by
      refine @bounded_ended limit e.scheduler
        ((e.scheduler.running_requests.insert r.request_id r).erase req.request_id)
        req.request_id hbounded fun id' => ?_
      rw [Dict.get?_erase, Dict.get?_insert, hrid]
      split
      · rfl
      · rfl
    unfold Executor.pass_on
    split
    · exact ⟨hends, rfl⟩
    · exact ⟨hends, rfl⟩
  · rename_i hgoes
    refine ⟨?_, rfl⟩
    have hroom' := room_of_not_stopped (s := e.scheduler) (hkind'.trans hkind) (by simpa using hgoes)
    let r' : Request := { r with ready_for_next_step := true, last_updated_time := some now }
    have hfits : Fits limit r' :=
      ⟨hopen', max_new_tokens, max_total_length, hkind'.trans hkind, hprompt ▸ hfit, hroom'⟩
    have hgain : owed r' + (original_req.prompt_len + original_req.output_length) ≤
        owed original_req + (r'.prompt_len + r'.output_length) := by
      have hprompt' : r'.prompt_len = original_req.prompt_len := hprompt
      have hlonger' : r'.output_length = original_req.output_length + 1 := hlonger
      have hone : owed r' ≤ 1 := by
        unfold owed
        split <;> omega
      omega
    refine @bounded_replaced limit e.scheduler
      (((e.scheduler.running_requests.insert r.request_id r).insert r.request_id
        r').moveToEnd r.request_id) original_req r' hbounded ?_ ?_ hfits hgain
    · exact hrid.symm ▸ hrun
    · intro id
      rw [Dict.get?_moveToEnd, Dict.get?_insert, Dict.get?_insert]
      show (if r.request_id = id then some r' else if r.request_id = id then some r
        else e.scheduler.running_requests.get? id) = _
      split
      · rfl
      · rfl

/-- What comes in leaves the requests within budget. -/
theorem handle_first_bounded (hpeer : FirstPeer e) (hbounded : Bounded limit e.scheduler)
    (hreq : req.is_initial = true → Fits limit req ∧ req.is_decoding = false)
    (h : handle_first now req e = .ok ⟨⟩ e') :
    Bounded limit e'.scheduler ∧ e'.max_sequence_length = e.max_sequence_length := by
  cases hkind : req.kind with
  | initial max_new_tokens max_total_length =>
    obtain ⟨hfits, hwaits⟩ := hreq (by unfold Request.is_initial; rw [hkind])
    rw [handle_first_initial hkind] at h
    obtain ⟨s, hs, rfl⟩ := enque_step_ok h
    rw [Scheduler.enque_prefill now hfits.1 hwaits] at hs
    cases hs
    refine ⟨⟨⟨?_, hbounded.requests.running⟩, ?_, hbounded.cache⟩, rfl⟩
    · intro r hr
      rcases List.mem_append.mp hr with hr | hr
      · exact hbounded.requests.waiting r hr
      · rw [List.mem_singleton.mp hr]
        exact hfits
    · intro r hr
      rcases List.mem_append.mp hr with hr | hr
      · exact hbounded.waiting r hr
      · rw [List.mem_singleton.mp hr]
        exact hwaits
  | intermediate position hidden_states next_token_id =>
    rw [handle_first_packet hkind, handle_token_eq] at h
    cases hrun : e.running req.request_id with
    | none =>
      rw [hrun] at h
      cases h
      exact ⟨hbounded, rfl⟩
    | some original_req =>
      rw [hrun] at h
      dsimp only at h
      split at h
      · cases next_token_id with
        | none => cases h
        | some token => exact commit_token_bounded hpeer hbounded hrun h
      · cases h
        exact ⟨hbounded, rfl⟩

/-- A mark on a request changes nothing of its length. -/
theorem marked_bounded {s : Scheduler} {mark : Request → Request} (h : Bounded limit s)
    (hmark : ∀ r, ∃ abort, mark r = { r with abort := abort }) :
    Bounded limit { s with running_requests := s.running_requests.mapValues mark } := by
  refine ⟨holds_map h.requests ?_ ?_, h.waiting, fun m hm => (h.cache m hm).mono ?_⟩
  · intro r
    obtain ⟨abort, heq⟩ := hmark r
    rw [heq]
  · intro r hr
    obtain ⟨abort, heq⟩ := hmark r
    rw [heq]
    exact hr
  · intro id r hr
    obtain ⟨abort, heq⟩ := hmark r
    refine ⟨mark r, by rw [Dict.get?_mapValues, hr]; rfl, ?_⟩
    rw [heq]
    exact le_refl _

theorem step_budgeted {l l' : Loop} {event : Event} (h : Budgeted limit l)
    (hevent : outside_batches event = true) (hstep : Step l event l') : Budgeted limit l' := by
  have hpeer' := step_first_peer h.peer hstep
  obtain ⟨hpeer, hlimit, hbounded, hreceived⟩ := h
  cases hstep with
  | @http e received message =>
    rcases recv_from_http_cases message received e with
      ⟨rid, r, _, hr, heq⟩ | ⟨raw_request, req, _, hraw, heq⟩ | ⟨err, _, heq⟩
    · rw [heq] at hpeer' ⊢
      obtain ⟨hid, hfits⟩ := hbounded.requests.running rid r hr
      refine ⟨hpeer', hlimit, ?_, hreceived⟩
      refine @bounded_replaced limit e.scheduler _ r { r with abort := true } hbounded ?_ ?_ hfits
        (le_refl _)
      · exact hid.symm ▸ hr
      · intro id
        show (e.scheduler.running_requests.insert rid { r with abort := true }).get? id = _
        rw [Dict.get?_insert, hid]
    · rw [heq] at hpeer' ⊢
      refine ⟨hpeer', hlimit, hbounded, ?_⟩
      intro r hr hinitial
      rcases List.mem_append.mp hr with hr | hr
      · exact hreceived r hr hinitial
      · rw [List.mem_singleton.mp hr, ← hlimit]
        exact accepted_fits hraw
    · rw [heq] at hpeer' ⊢
      exact ⟨hpeer', hlimit, hbounded, hreceived⟩
  | packets hpackets =>
    refine ⟨hpeer', hlimit, hbounded, ?_⟩
    intro r hr hinitial
    rcases List.mem_append.mp hr with hr | hr
    · exact hreceived r hr hinitial
    · rw [hpackets r hr] at hinitial
      cases hinitial
  | handle hrun =>
    obtain ⟨hb, hmax⟩ := handle_first_bounded hpeer hbounded (hreceived _ List.mem_cons_self) hrun
    exact ⟨hpeer', (congrArg sequence_limit hmax).trans hlimit, hb,
      fun r hr => hreceived r (List.mem_cons_of_mem _ hr)⟩
  | send_finished_batch =>
    unfold executor.send_finished_batch at hpeer' ⊢
    split at hpeer' <;> rename_i hc <;> simp only [hc, if_true, Bool.false_eq_true, if_false]
    · exact ⟨hpeer', hlimit, hbounded, hreceived⟩
    · exact ⟨hpeer', hlimit, hbounded, hreceived⟩
  | admit_requests now =>
    exact ⟨hpeer', hlimit, admit_requests_bounded hbounded, hreceived⟩
  | check_timeouts hrun =>
    rw [check_timeouts.spec] at hrun
    cases hrun
    refine ⟨hpeer', hlimit, marked_bounded hbounded fun r => ?_, hreceived⟩
    split
    · exact ⟨true, rfl⟩
    · exact ⟨r.abort, rfl⟩
  | form_batch now => cases hevent
  | prepare hcall hruns => cases hevent

theorem turn_budgeted {l l' : Loop} (h : Budgeted limit l) (hturn : Turn l l') :
    Budgeted limit l' := by
  cases hturn with
  | step hevent hstep => exact step_budgeted h hevent hstep
  | batch now pad_token_id hcache => exact run_batch_budgeted h hcache
  | give_up batch => exact give_up_budgeted h

end executor_steps

/-! ## The budget holds -/

/-- A first peer that has just started. -/
structure Fresh (e : Executor) : Prop where
  first : e.is_first_peer = true
  scheduler_first : e.scheduler.is_first_peer = true
  eos : e.scheduler.eos_token_id ≠ none
  waiting : e.scheduler.wait_queue = []
  running : e.scheduler.running_requests = .empty
  cache : ∀ m, e.scheduler.cache_manager = some m → ∃ c, m = CacheManager.init c

/-- `cache_manager.get_context_length` -/
def Executor.context_length (e : Executor) (id : String) : Nat :=
  (e.scheduler.cache_manager.map (fun m => m.get_context_length id)).getD 0

theorem fresh_budgeted {e : Executor} (h : Fresh e) :
    Budgeted (sequence_limit e.max_sequence_length) ⟨e, []⟩ := by
  have hnone : ∀ id req, e.scheduler.get_running_request id ≠ some req := by
    intro id req hreq
    unfold Scheduler.get_running_request at hreq
    rw [h.running] at hreq
    cases hreq
  refine ⟨⟨h.first, h.scheduler_first, h.eos, ⟨?_, fun id req hreq => absurd hreq (hnone id req)⟩⟩,
    rfl, ⟨⟨?_, fun id req hreq => absurd hreq (hnone id req)⟩, ?_, ?_⟩,
    fun req hreq => absurd hreq List.not_mem_nil⟩
  · rw [h.waiting]
    exact fun req hreq => absurd hreq List.not_mem_nil
  · rw [h.waiting]
    exact fun req hreq => absurd hreq List.not_mem_nil
  · rw [h.waiting]
    exact fun req hreq => absurd hreq List.not_mem_nil
  · intro m hm
    obtain ⟨c, rfl⟩ := h.cache m hm
    refine ⟨?_, ?_⟩
    · intro id len hlen
      cases hlen
    · intro id len hlen
      cases hlen

theorem budgeted_context {limit : Nat} {l : Loop} (h : Budgeted limit l) (id : String) :
    l.peer.context_length id ≤ limit := by
  unfold Executor.context_length CacheManager.get_context_length
  rcases hm : l.peer.scheduler.cache_manager with _ | m
  · exact Nat.zero_le _
  · rcases hc : m.context_lengths.get? id with _ | c
    · simp [hc]
    · obtain ⟨r, hr, hle⟩ := (h.scheduler.cache m hm).bounded id c hc
      obtain ⟨_, _, max_new_tokens, max_total_length, _, hfit, hroom⟩ :=
        h.scheduler.requests.running id r hr
      simp only [Option.map_some, hc, Option.getD_some]
      omega

/-- The clamp keeps a request within the limit of the sequence, and so its context in the cache
stays within it, whatever comes in and however the run loop goes on. -/
theorem length_budget_holds {e : Executor} (hfresh : Fresh e)
    (hlimit : 6 ≤ sequence_limit e.max_sequence_length) :
    (∀ raw ids, raw.prompt = .ok ids → ids ≠ [] → (∀ m, raw.max_tokens = some m → 1 ≤ m) →
      ∃ req, handle_raw_request e.max_sequence_length raw = .ok req ∧
        Clamped (sequence_limit e.max_sequence_length) ids raw.max_tokens req) ∧
    ∀ l, ReflTransGen Turn ⟨e, []⟩ l →
      ∀ id, l.peer.context_length id ≤ sequence_limit e.max_sequence_length := by
  refine ⟨fun raw ids hprompt hids hmax => handle_raw_request_clamps hlimit hprompt hids hmax, ?_⟩
  intro l hreach id
  have hkeeps : Budgeted (sequence_limit e.max_sequence_length) l := by
    induction hreach with
    | refl => exact fresh_budgeted hfresh
    | tail _ hturn ih => exact turn_budgeted ih hturn
  exact budgeted_context hkeeps id

/-- A first peer with sequences of at most 12 tokens. -/
def short_sequences : Executor where
  is_first_peer := true
  is_last_peer := true
  enable_prefix_cache := false
  max_sequence_length := some 12
  scheduler := .init 8 64 2 true (some (small_cache 8)) 600 (some (.one 2)) none
  finished_batch := []
  sent_to_ipc := []
  sent_aborts := []

/-- A prompt of twenty tokens. -/
def long_raw_request : RawRequest where
  rid := "a"
  new_id := "b"
  prompt := .ok (List.replicate 20 7)

theorem short_sequences_fresh : Fresh short_sequences where
  first := rfl
  scheduler_first := rfl
  eos := by decide
  waiting := rfl
  running := rfl
  cache := by
    rintro m ⟨⟩
    exact ⟨_, rfl⟩

/-- The long prompt is cut, and its context stays within twelve tokens. -/
theorem long_prompt_is_cut :
    (∃ req, handle_raw_request (some 12) long_raw_request = .ok req ∧
      Clamped 12 (List.replicate 20 7) none req) ∧
    ((recv_from_http (.request long_raw_request) ([], short_sequences)).2).context_length "a" ≤ 12 := by
  obtain ⟨hclamp, hrun⟩ := length_budget_holds short_sequences_fresh (by decide)
  refine ⟨hclamp long_raw_request (List.replicate 20 7) rfl (by decide) ?_, ?_⟩
  · intro m hm
    cases hm
  · exact hrun _ (.single (.step rfl (.http (.request long_raw_request)))) "a"

end parallax.server.executor
