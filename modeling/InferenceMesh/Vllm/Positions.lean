-- The position that a vLLM batch gives a request: the tokens computed before
-- the step and the tokens scheduled in it. On all peers of a pipeline it
-- should be the length of the request on the first peer.
import InferenceMesh.Vllm.BatchInfo

open ordered_dict
open parallax.server.request

namespace parallax.vllm.batch_info

universe u v

variable {κ : Type u} {β : Type v}

/-! ## The position of a request in a batch -/

namespace SchedulerOutput

/-- The computed tokens of a request, new or cached. -/
def computed_tokens (out : SchedulerOutput) (request_id : String) : Option Nat :=
  match out.scheduled_new_reqs.find? (fun d => d.req_id = request_id) with
  | some d => some d.num_computed_tokens
  | none =>
    ((out.scheduled_cached_reqs.req_ids.zip out.scheduled_cached_reqs.num_computed_tokens).find?
      (fun x => x.1 = request_id)).map Prod.snd

/-- The number of tokens that are computed once the step is done. -/
def position (out : SchedulerOutput) (request_id : String) : Option Nat :=
  match out.computed_tokens request_id, out.num_scheduled_tokens.get? request_id with
  | some computed, some scheduled => some (computed + scheduled)
  | _, _ => none

end SchedulerOutput

/-- An entry is found by its key. -/
theorem find_of_key {α : Type*} {key : α → String} {l : List α} (h : (l.map key).Nodup) {x : α}
    (hx : x ∈ l) : l.find? (fun y => key y = key x) = some x := by
  induction l with
  | nil => cases hx
  | cons y l ih =>
    obtain ⟨hnot, hnodup⟩ := List.nodup_cons.mp h
    rcases List.mem_cons.mp hx with rfl | hx
    · simp
    · have hne : key y ≠ key x := fun heq => hnot (heq ▸ List.mem_map_of_mem hx)
      rw [List.find?_cons_of_neg (by simpa using hne)]
      exact ih hnodup hx

/-! ## Prefill -/

section prefill

variable (V : KVCacheManager κ β)

/-- The tokens of the prompt that the manager has in its prefix cache. -/
def cached_tokens (kv : κ) (req : Request) : Nat :=
  (V.get_computed_blocks kv (build_vllm_request req false)).1.2

/-- The state of the manager after the given requests of a prefill batch. -/
def after_requests (kv : κ) (requests : List Request) : κ :=
  requests.foldl (fun kv req => (prefill_request V kv req).2) kv

variable {V}

theorem prefill_request.spec {kv kv' : κ} {req : Request} {d : NewRequestData}
    (h : prefill_request V kv req = (some d, kv')) :
    d.req_id = req.request_id ∧ d.num_computed_tokens = cached_tokens V kv req := by
  unfold prefill_request at h
  dsimp only at h
  split at h
  · split at h
    · cases h
    · cases h
      exact ⟨rfl, rfl⟩
  · cases h
    exact ⟨rfl, rfl⟩

/-- What the loop makes of each request: its whole prompt is scheduled, whatever is cached. -/
theorem prefill_from.spec {created : List Request} {data : List NewRequestData}
    {scheduled : Dict String Nat} {total : Nat} {kv kv' : κ} {batch : List Request}
    {out : SchedulerOutput} (hids : (batch.map Request.request_id).Nodup)
    (h : prefill_from V created data scheduled total kv batch = (some out, kv')) :
    (∃ added, out.scheduled_new_reqs = data ++ added ∧
      added.map NewRequestData.req_id = batch.map Request.request_id ∧
      ∀ before req after, batch = before ++ req :: after → ∃ d ∈ added,
        d.req_id = req.request_id ∧
        d.num_computed_tokens = cached_tokens V (after_requests V kv before) req) ∧
    (∀ id, id ∉ batch.map Request.request_id →
      out.num_scheduled_tokens.get? id = scheduled.get? id) ∧
    ∀ req ∈ batch, out.num_scheduled_tokens.get? req.request_id = some req.input_ids.length := by
  induction batch generalizing created data scheduled total kv with
  | nil =>
    cases h
    refine ⟨⟨[], by simp, rfl, ?_⟩, fun _ _ => rfl, fun _ hr => by cases hr⟩
    intro before req after hsplit
    simp at hsplit
  | cons req rest ih =>
    obtain ⟨hnot, hnodup⟩ := List.nodup_cons.mp hids
    unfold prefill_from at h
    split at h
    · cases h
    · rename_i d kv₁ hd
      obtain ⟨hid, hcomputed⟩ := prefill_request.spec hd
      obtain ⟨⟨added, hadded, hkeys, hdata⟩, hother, hmine⟩ := ih hnodup h
      refine ⟨⟨d :: added, by rw [hadded]; simp, by simp [hid, hkeys], ?_⟩, ?_, ?_⟩
      · intro before r after hsplit
        rcases before with _ | ⟨b, before⟩
        · obtain ⟨rfl, rfl⟩ := List.cons.inj hsplit
          exact ⟨d, List.mem_cons_self, hid, hcomputed⟩
        · obtain ⟨rfl, hrest⟩ := List.cons.inj hsplit
          obtain ⟨d', hd', hid', hcomputed'⟩ := hdata before r after hrest
          refine ⟨d', List.mem_cons_of_mem _ hd', hid', ?_⟩
          rw [hcomputed']
          unfold after_requests
          rw [List.foldl_cons, hd]
      · intro id hid'
        rw [List.map_cons, List.mem_cons, not_or] at hid'
        rw [hother id hid'.2, Dict.get?_insert_ne _ _ (Ne.symm hid'.1)]
      · intro r hr
        rcases List.mem_cons.mp hr with rfl | hr
        · rw [hother _ hnot, Dict.get?_insert_self]
        · exact hmine r hr

/-- The position at prefill counts the cached prefix twice. -/
theorem prefill_position {runner : ModelRunner κ} {before after : List Request} {req : Request}
    {out : SchedulerOutput} {kv' : κ}
    (hids : ((before ++ req :: after).map Request.request_id).Nodup)
    (h : form_vllm_batch_prefill V (before ++ req :: after) runner = (some out, kv')) :
    out.position req.request_id =
      some (cached_tokens V (after_requests V runner.kv before) req + req.input_ids.length) := by
  unfold form_vllm_batch_prefill at h
  rw [if_neg (by simp)] at h
  obtain ⟨⟨added, hadded, hkeys, hdata⟩, _, hmine⟩ := prefill_from.spec hids h
  obtain ⟨d, hd, hid, hcomputed⟩ := hdata before req after rfl
  have hfind : out.scheduled_new_reqs.find? (fun d => d.req_id = req.request_id) = some d := by
    rw [hadded, List.nil_append, ← hid]
    exact find_of_key (by rw [hkeys]; exact hids) hd
  unfold SchedulerOutput.position SchedulerOutput.computed_tokens
  rw [hfind, hmine req (by simp)]
  simp only [hcomputed]

end prefill

/-! ## Decode -/

section decode

variable {V : KVCacheManager κ β} {runner : ModelRunner κ}

/-- What a decode batch says of a request. -/
def counted (runner : ModelRunner κ) (req : Request) : Nat :=
  computed_token_count req.input_ids (output_ids_of runner none req)

theorem decode_from.spec {d : CachedRequestData} {scheduled : Dict String Nat} {kv kv' : κ}
    {batch : List Request} {out : SchedulerOutput}
    (h : decode_from V runner none d scheduled kv batch = (some out, kv')) :
    out.scheduled_new_reqs = [] ∧
    out.scheduled_cached_reqs.req_ids = d.req_ids ++ batch.map Request.request_id ∧
    out.scheduled_cached_reqs.num_computed_tokens =
      d.num_computed_tokens ++ batch.map (counted runner) ∧
    out.scheduled_cached_reqs.new_token_ids =
      d.new_token_ids ++ batch.map (fun req => (output_ids_of runner none req).getLast?.toList) ∧
    (∀ id, id ∉ batch.map Request.request_id →
      out.num_scheduled_tokens.get? id = scheduled.get? id) ∧
    ∀ req ∈ batch, out.num_scheduled_tokens.get? req.request_id = some 1 := by
  induction batch generalizing d scheduled kv with
  | nil =>
    cases h
    exact ⟨rfl, by simp, by simp, by simp, fun _ _ => rfl, fun _ hr => by cases hr⟩
  | cons req rest ih =>
    unfold decode_from at h
    dsimp only at h
    split at h
    · cases h
    · obtain ⟨hnew, hids, hcomputed, htokens, hother, hmine⟩ := ih h
      refine ⟨hnew, ?_, ?_, ?_, ?_, ?_⟩
      · rw [hids]
        simp [CachedRequestData.push]
      · rw [hcomputed]
        simp [CachedRequestData.push, counted]
      · rw [htokens]
        simp [CachedRequestData.push]
      · intro id hid
        rw [List.map_cons, List.mem_cons, not_or] at hid
        rw [hother id hid.2, Dict.get?_insert_ne _ _ (Ne.symm hid.1)]
      · intro r hr
        by_cases hrest : r.request_id ∈ rest.map Request.request_id
        · obtain ⟨r', hr', hid⟩ := List.mem_map.mp hrest
          rw [← hid]
          exact hmine r' hr'
        · rw [hother _ hrest]
          rcases List.mem_cons.mp hr with rfl | hr
          · rw [Dict.get?_insert_self]
          · exact absurd (List.mem_map_of_mem hr) hrest

theorem decode_position {batch : List Request} {req : Request} {out : SchedulerOutput} {kv' : κ}
    (hids : (batch.map Request.request_id).Nodup) (hreq : req ∈ batch)
    (h : form_vllm_batch_decode V batch runner none = (some out, kv')) :
    out.position req.request_id = some (counted runner req + 1) := by
  unfold form_vllm_batch_decode at h
  split at h
  · cases h
  · obtain ⟨hnew, hkeys, hcomputed, _, _, hmine⟩ := decode_from.spec h
    unfold SchedulerOutput.position SchedulerOutput.computed_tokens
    rw [hnew, List.find?_nil, hmine req hreq, hkeys, hcomputed]
    simp only [List.nil_append]
    rw [List.zip_map', List.find?_map]
    have hfind : batch.find? ((fun x : String × Nat => decide (x.1 = req.request_id)) ∘
        fun r => (r.request_id, counted runner r)) = some req := find_of_key hids hreq
    rw [hfind]
    rfl

end decode

/-! ## The steps of a request -/

/-- A request as it enters the first peer, the token committed at each step, and the hidden states
that each peer sends at each step. -/
structure Trace where
  request : Request
  tokens : Nat → Int
  hidden_states : Nat → Nat → Option Tensor

namespace Trace

variable (trace : Trace)

/-- The request enters with its prompt alone. -/
structure Fresh : Prop where
  initial : trace.request.is_initial = true
  prefilling : trace.request.status = .PREFILLING
  prompt : trace.request.prompt_len = trace.request.input_ids.length
  no_output : trace.request.output_ids = []

/-- The request on the first peer, after `t` tokens have come back. -/
def first (t : Nat) : Request :=
  ((List.range t).map trace.tokens).foldl Request.commit_new_token trace.request

/-- The request on each peer at the `t`-th decode step. -/
def packet (t : Nat) : Nat → Request
  | 0 => trace.first t
  | 1 =>
    Request.from_initial_request (trace.first t) (trace.hidden_states t 0)
      (trace.first t).lora_path
  | peer + 2 =>
    Request.from_intermediate_request (packet t (peer + 1)) (trace.hidden_states t (peer + 1))
      (packet t (peer + 1)).lora_path

variable {trace}

/-- What a commit leaves, and what it adds. -/
theorem first_spec (h : trace.Fresh) (t : Nat) :
    (trace.first t).request_id = trace.request.request_id ∧
    (trace.first t).input_ids = trace.request.input_ids ∧
    (trace.first t).output_ids.length = t ∧
    (trace.first t).is_finished = false ∧
    (trace.first t).total_length = trace.request.input_ids.length + t := by
  have hsteps : (trace.first t).request_id = trace.request.request_id ∧
      (trace.first t).input_ids = trace.request.input_ids ∧
      (trace.first t).output_ids.length = t ∧
      ((trace.first t).status = .PREFILLING ∨ (trace.first t).status = .DECODING) ∧
      (trace.first t).prompt_len = trace.request.input_ids.length ∧
      (trace.first t).kind = trace.request.kind := by
    induction t with
    | zero => exact ⟨rfl, rfl, by simp [first, h.no_output], Or.inl h.prefilling, h.prompt, rfl⟩
    | succ t ih =>
      obtain ⟨hid, hin, hout, hstatus, hprompt, hkind⟩ := ih
      have hunfinished : (trace.first t).is_finished = false := by
        rcases hstatus with hs | hs <;> simp [Request.is_finished, hs]
      have hnext : trace.first (t + 1) = (trace.first t).commit_new_token (trace.tokens t) := by
        simp [first, List.range_succ]
      rw [hnext]
      unfold Request.commit_new_token
      rw [if_neg (by simp [hunfinished])]
      refine ⟨hid, hin, by simp [hout], ?_, hprompt, hkind⟩
      rcases hstatus with hs | hs
      · exact Or.inr (by simp [hs])
      · exact Or.inr (by simp [hs])
  obtain ⟨hid, hin, hout, hstatus, hprompt, hkind⟩ := hsteps
  refine ⟨hid, hin, hout, ?_, ?_⟩
  · rcases hstatus with hs | hs <;> simp [Request.is_finished, hs]
  · have hinitial := h.initial
    unfold Request.is_initial at hinitial
    unfold Request.total_length Request.output_length
    rw [hkind]
    split at hinitial
    · rw [hprompt, hout]
    · cases hinitial

theorem packet_id (h : trace.Fresh) (t peer : Nat) :
    (trace.packet t peer).request_id = trace.request.request_id ∧
    (trace.packet t peer).input_ids = trace.request.input_ids := by
  obtain ⟨hid, hin, _⟩ := first_spec h t
  induction peer with
  | zero => exact ⟨hid, hin⟩
  | succ peer ih =>
    cases peer with
    | zero => exact ⟨hid, hin⟩
    | succ peer => exact ih

/-- The packets carry no output tokens. -/
theorem packet_output (t : Nat) {peer : Nat} (hpeer : peer ≠ 0) :
    (trace.packet t peer).output_ids = [] := by
  match peer, hpeer with
  | 1, _ => rfl
  | _ + 2, _ => rfl

end Trace

/-! ## The runner -/

/-- What the model runner does with the output tokens that it caches. A peer that samples adds the
token it has sampled, and another one adds only tokens that the batch gives it. -/
structure Executed (samples : Prop) (out : SchedulerOutput)
    (requests requests' : String → Option (List Int)) : Prop where
  new_reqs : ∀ d ∈ out.scheduled_new_reqs, ∃ outputs, requests' d.req_id = some outputs ∧
    (samples → outputs.length = 1) ∧ (¬ samples → outputs = [])
  cached_reqs : ∀ x ∈ out.scheduled_cached_reqs.req_ids.zip
      out.scheduled_cached_reqs.new_token_ids,
    ∀ outputs, requests x.1 = some outputs → ∃ grown, requests' x.1 = some (outputs ++ grown) ∧
      (samples → grown.length = 1) ∧ (¬ samples → grown.Sublist x.2)

section run

variable (V : KVCacheManager κ β) (k peer : Nat) (trace : Trace)

/-- The batch of the prefill with the request in it. -/
def PrefillBatch (runner : ModelRunner κ) (before after : List Request) (out : SchedulerOutput)
    (kv : κ) : Prop :=
  ((before ++ trace.packet 0 peer :: after).map Request.request_id).Nodup ∧
  ∃ lengths, prepare_prefill_batch V (before ++ trace.packet 0 peer :: after) runner =
    (some ⟨some out, lengths⟩, kv)

/-- The batch of the `t`-th decode step with the request in it. -/
def DecodeBatch (t : Nat) (runner : ModelRunner κ) (before after : List Request)
    (out : SchedulerOutput) (kv : κ) : Prop :=
  ((before ++ trace.packet t peer :: after).map Request.request_id).Nodup ∧
  ∃ lengths, prepare_decode_batch V (before ++ trace.packet t peer :: after) runner =
    (some ⟨some out, lengths⟩, kv)

/-- The runner of a peer of `k` after the prefill of the request and `t` decode steps, among any
other batches. The last peer samples. -/
inductive Served : Nat → ModelRunner κ → Prop where
  | prefill {runner before after out kv requests} :
    PrefillBatch V peer trace runner before after out kv →
    Executed (peer + 1 = k) out runner.requests requests → Served 0 ⟨requests, kv⟩
  | decode {t runner before after out kv requests} : Served t runner →
    DecodeBatch V peer trace (t + 1) runner before after out kv →
    Executed (peer + 1 = k) out runner.requests requests → Served (t + 1) ⟨requests, kv⟩
  | elsewhere {t runner requests kv} : Served t runner →
    requests trace.request.request_id = runner.requests trace.request.request_id →
    Served t ⟨requests, kv⟩

/-- The peer forms the batch of the step. Step 0 is the prefill. -/
def Formed (runner : ModelRunner κ) (before after : List Request) (out : SchedulerOutput) :
    Nat → Prop
  | 0 => ∃ kv, PrefillBatch V peer trace runner before after out kv
  | t + 1 => Served V k peer trace t runner ∧
      ∃ kv, DecodeBatch V peer trace (t + 1) runner before after out kv

/-- The peer knows the position: at prefill when no prefix of the prompt is cached, and later when
it has the output tokens, as the first and the last peer do, or when there is one token only. -/
def KnowsPosition (runner : ModelRunner κ) (before : List Request) : Nat → Prop
  | 0 => cached_tokens V (after_requests V runner.kv before) (trace.packet 0 peer) = 0
  | t + 1 => peer = 0 ∨ peer + 1 = k ∨ t = 0

variable {V k peer trace}

theorem PrefillBatch.form {runner : ModelRunner κ} {before after : List Request}
    {out : SchedulerOutput} {kv : κ} (h : PrefillBatch V peer trace runner before after out kv) :
    form_vllm_batch_prefill V (before ++ trace.packet 0 peer :: after) runner = (some out, kv) := by
  obtain ⟨_, lengths, hprepare⟩ := h
  unfold prepare_prefill_batch at hprepare
  rw [if_neg (by simp)] at hprepare
  obtain ⟨hinputs, hkv⟩ := Prod.mk.inj hprepare
  rw [Option.some.injEq, PreparedInputs.mk.injEq] at hinputs
  exact Prod.ext hinputs.1 hkv

theorem DecodeBatch.form {t : Nat} {runner : ModelRunner κ} {before after : List Request}
    {out : SchedulerOutput} {kv : κ} (h : DecodeBatch V peer trace t runner before after out kv) :
    form_vllm_batch_decode V (before ++ trace.packet t peer :: after) runner none =
      (some out, kv) := by
  obtain ⟨_, lengths, hprepare⟩ := h
  unfold prepare_decode_batch at hprepare
  rw [if_neg (by simp)] at hprepare
  obtain ⟨hinputs, hkv⟩ := Prod.mk.inj hprepare
  rw [Option.some.injEq, PreparedInputs.mk.injEq] at hinputs
  exact Prod.ext hinputs.1 hkv

/-- On a peer after the first the output tokens are those that its runner has cached. -/
theorem output_ids_of_packet (h : trace.Fresh) (t : Nat) (hpeer : peer ≠ 0)
    (runner : ModelRunner κ) :
    output_ids_of runner none (trace.packet t peer) =
      (runner.requests trace.request.request_id).getD [] := by
  unfold output_ids_of
  simp only [Trace.packet_output t hpeer, (Trace.packet_id h t peer).1, List.isEmpty_nil,
    if_true, Option.bind_none]
  split <;> rfl

/-- What the runner of a peer after the first has cached: a token for each step on the last peer,
and none in the middle. -/
theorem Served.cached (hfresh : trace.Fresh) (hpeer : peer ≠ 0) {t : Nat} {runner : ModelRunner κ}
    (h : Served V k peer trace t runner) :
    ∃ outputs, runner.requests trace.request.request_id = some outputs ∧
      (peer + 1 = k → outputs.length = t + 1) ∧ (peer + 1 ≠ k → outputs = []) := by
  induction h with
  | @prefill runner before after out kv requests hbatch hexec =>
    have hform := hbatch.form
    unfold form_vllm_batch_prefill at hform
    rw [if_neg (by simp)] at hform
    obtain ⟨⟨added, hadded, _, hdata⟩, _⟩ := prefill_from.spec hbatch.1 hform
    obtain ⟨d, hd, hid, _⟩ := hdata before _ after rfl
    rw [(Trace.packet_id hfresh 0 peer).1] at hid
    obtain ⟨outputs, hout, hone, hnone⟩ := hexec.new_reqs d (by rw [hadded]; simpa using hd)
    rw [hid] at hout
    exact ⟨outputs, hout, hone, hnone⟩
  | @decode t runner before after out kv requests hserved hbatch hexec ih =>
    obtain ⟨outputs, hout, hlast, hmiddle⟩ := ih
    have hform := hbatch.form
    unfold form_vllm_batch_decode at hform
    rw [if_neg (by simp)] at hform
    obtain ⟨_, hkeys, _, htokens, _⟩ := decode_from.spec hform
    have hcached := output_ids_of_packet hfresh (t + 1) hpeer runner
    rw [hout, Option.getD_some] at hcached
    have hmem : (trace.request.request_id, outputs.getLast?.toList) ∈
        out.scheduled_cached_reqs.req_ids.zip out.scheduled_cached_reqs.new_token_ids := by
      rw [hkeys, htokens]
      simp only [List.nil_append]
      rw [List.zip_map', List.mem_map]
      exact ⟨trace.packet (t + 1) peer, by simp,
        by rw [(Trace.packet_id hfresh (t + 1) peer).1, hcached]⟩
    obtain ⟨grown, hgrown, hone, hsub⟩ := hexec.cached_reqs _ hmem outputs hout
    refine ⟨outputs ++ grown, hgrown, ?_, ?_⟩
    · intro hk
      rw [List.length_append, hlast hk, hone hk]
    · intro hk
      have houtputs := hmiddle hk
      have hnil := hsub hk
      rw [houtputs] at hnil
      rw [houtputs, List.nil_append]
      exact List.sublist_nil.mp hnil
  | elsewhere _ hsame ih =>
    obtain ⟨outputs, hout, hlast, hmiddle⟩ := ih
    exact ⟨outputs, hsame.trans hout, hlast, hmiddle⟩

/-- The tokens that a peer counts as computed at a decode step. -/
theorem counted_packet (hfresh : trace.Fresh) {t : Nat} {runner : ModelRunner κ}
    (h : Served V k peer trace t runner) :
    counted runner (trace.packet (t + 1) peer) =
      trace.request.input_ids.length + if peer = 0 ∨ peer + 1 = k then t else 0 := by
  unfold counted computed_token_count
  rw [(Trace.packet_id hfresh (t + 1) peer).2]
  by_cases hpeer : peer = 0
  · have hlength := (Trace.first_spec hfresh (t + 1)).2.2.1
    have houtputs : output_ids_of runner none (trace.packet (t + 1) peer) =
        (trace.first (t + 1)).output_ids := by
      have hne : (trace.first (t + 1)).output_ids.isEmpty = false := by
        rw [List.isEmpty_eq_false_iff, ← List.length_pos_iff]
        omega
      rw [hpeer]
      simp [output_ids_of, Trace.packet, hne]
    rw [houtputs, if_pos (Or.inl hpeer), if_neg (by
      rw [List.isEmpty_iff_length_eq_zero]
      omega), hlength]
    omega
  · obtain ⟨outputs, hout, hlast, hmiddle⟩ := h.cached hfresh hpeer
    rw [output_ids_of_packet hfresh (t + 1) hpeer, hout, Option.getD_some]
    by_cases hk : peer + 1 = k
    · have hlength := hlast hk
      rw [if_pos (Or.inr hk), if_neg (by
        rw [List.isEmpty_iff_length_eq_zero]
        omega), hlength]
      omega
    · rw [hmiddle hk]
      simp [hpeer, hk]

/-- A batch has the position of the first peer just when its peer knows the position. -/
theorem position_agrees_iff (hfresh : trace.Fresh) {runner : ModelRunner κ}
    {before after : List Request} {out : SchedulerOutput} {t : Nat}
    (h : Formed V k peer trace runner before after out t) :
    out.position trace.request.request_id = some (trace.first t).total_length ↔
      KnowsPosition V k peer trace runner before t := by
  rw [(Trace.first_spec hfresh t).2.2.2.2]
  cases t with
  | zero =>
    obtain ⟨kv, hbatch⟩ := h
    have hposition := prefill_position hbatch.1 hbatch.form
    rw [(Trace.packet_id hfresh 0 peer).1, (Trace.packet_id hfresh 0 peer).2] at hposition
    rw [hposition, Option.some.injEq]
    unfold KnowsPosition
    omega
  | succ t =>
    obtain ⟨hserved, kv, hbatch⟩ := h
    have hposition := decode_position hbatch.1 (List.mem_append_right before List.mem_cons_self) hbatch.form
    rw [(Trace.packet_id hfresh (t + 1) peer).1, counted_packet hfresh hserved] at hposition
    rw [hposition, Option.some.injEq]
    unfold KnowsPosition
    split
    · rename_i hends
      constructor
      · intro _
        rcases hends with h | h
        · exact Or.inl h
        · exact Or.inr (Or.inl h)
      · intro _
        omega
    · rename_i hends
      constructor
      · intro hlength
        exact Or.inr (Or.inr (by omega))
      · intro hknows
        rcases hknows with h | h | h
        · exact absurd (Or.inl h) hends
        · exact absurd (Or.inr h) hends
        · omega

end run

/-! ## A pipeline of three peers -/

/-- A manager without a prefix cache, which always finds slots. -/
def always_free : KVCacheManager Unit Unit where
  get_computed_blocks kv _ := (((), 0), kv)
  allocate_slots kv _ _ _ _ := (some (), kv)
  free kv _ := kv
  append _ _ := ()
  get_block_ids _ := []

/-- A prompt of two tokens. -/
def two_tokens : Trace where
  request :=
    { request_id := "r", prompt_len := 2, input_ids := [10, 20], kind := .initial 16 32 }
  tokens t := t
  hidden_states _ _ := some [[1]]

theorem two_tokens_fresh : two_tokens.Fresh := ⟨rfl, rfl, rfl, rfl⟩

/-- The peer in the middle never caches a token. -/
def without_tokens : ModelRunner Unit := ⟨fun _ => some [], ()⟩

theorem middle_served (t : Nat) : Served always_free 3 1 two_tokens t without_tokens := by
  induction t with
  | zero =>
    have hbatch : ∃ out, PrefillBatch always_free 1 two_tokens without_tokens [] [] out () :=
      ⟨_, by simp, _, rfl⟩
    obtain ⟨out, hbatch⟩ := hbatch
    refine Served.prefill hbatch ⟨?_, ?_⟩
    · intro d _
      exact ⟨[], rfl, fun h => absurd h (by decide), fun _ => rfl⟩
    · rintro x _ outputs hout
      cases hout
      exact ⟨[], rfl, fun h => absurd h (by decide), fun _ => List.nil_sublist _⟩
  | succ t ih =>
    have hbatch : ∃ out, DecodeBatch always_free 1 two_tokens (t + 1) without_tokens [] [] out () :=
      ⟨_, by simp, _, rfl⟩
    obtain ⟨out, hbatch⟩ := hbatch
    refine Served.decode ih hbatch ⟨?_, ?_⟩
    · intro d _
      exact ⟨[], rfl, fun h => absurd h (by decide), fun _ => rfl⟩
    · rintro x _ outputs hout
      cases hout
      exact ⟨[], rfl, fun h => absurd h (by decide), fun _ => List.nil_sublist _⟩

/-- The batch of the peer in the middle at a decode step. -/
theorem middle_forms (t : Nat) : ∃ out,
    Formed always_free 3 1 two_tokens without_tokens [] [] out (t + 1) ∧
      out.position "r" = some 3 := by
  have hbatch : ∃ out, DecodeBatch always_free 1 two_tokens (t + 1) without_tokens [] [] out () :=
    ⟨_, by simp, _, rfl⟩
  obtain ⟨out, hbatch⟩ := hbatch
  refine ⟨out, ⟨middle_served t, (), hbatch⟩, ?_⟩
  have hposition := decode_position hbatch.1 List.mem_cons_self hbatch.form
  rw [(Trace.packet_id two_tokens_fresh (t + 1) 1).1,
    counted_packet two_tokens_fresh (middle_served t)] at hposition
  exact hposition

/-- The first decode step of the peer in the middle is at the right position. -/
theorem first_decode_step_agrees : ∃ out,
    Formed always_free 3 1 two_tokens without_tokens [] [] out 1 ∧
      out.position two_tokens.request.request_id = some (two_tokens.first 1).total_length := by
  obtain ⟨out, hformed, _⟩ := middle_forms 0
  exact ⟨out, hformed, (position_agrees_iff two_tokens_fresh hformed).mpr (Or.inr (Or.inr rfl))⟩

/-- The second one is at the position of the first again. -/
theorem second_decode_step_disagrees :
    ¬ ∀ (V : KVCacheManager Unit Unit) (k peer : Nat) (trace : Trace) (runner : ModelRunner Unit)
      (before after : List Request) (out : SchedulerOutput) (t : Nat), peer < k → trace.Fresh →
      Formed V k peer trace runner before after out t →
      out.position trace.request.request_id = some (trace.first t).total_length := by
  intro hall
  obtain ⟨out, hformed, hposition⟩ := middle_forms 1
  have hlength := hall always_free 3 1 two_tokens without_tokens [] [] out 2 (by decide)
    two_tokens_fresh hformed
  have heq := hposition.symm.trans hlength
  cases heq

end parallax.vllm.batch_info
