-- What survives the wire: of a packet, everything but the values that share
-- their encoding with another one. None, the empty text and the empty list
-- are not told apart, and a temperature that rounds to zero is read as greedy
-- sampling.
import InferenceMesh.Lib.ExceptList
import InferenceMesh.P2P.MessageUtil

open python except_list
open parallax.server.request

namespace parallax.p2p.message_util

/-! ## Packets -/

/-- An unfinished packet as the constructors make it, with ids and positions that fit. -/
structure Packet (device : String) (r : Request) : Prop where
  request_id : r.request_id ≠ ""
  unfinished : r.is_finished = false
  kind : ∃ position hidden_states next_token_id,
    r.kind = .intermediate position (some hidden_states) next_token_id ∧
      (device = "cuda" ∨ 0 < tensor_size hidden_states) ∧ (∀ id ∈ next_token_id, InInt32 id) ∧
      position < 2 ^ 31
  prompt : r.input_ids.length < 2 ^ 31
  input_ids : ∀ id ∈ r.input_ids, InInt32 id
  stop_token_ids : ∀ ids ∈ r.sampling_params.stop_token_ids, ∀ id ∈ ids, InInt32 id
  sampling_params : ∃ p, r.sampling_params = SamplingParams.create p

/-- The sampling parameters are the same, after rounding. -/
structure SameParams (w : Wire) (p p' : SamplingParams) : Prop where
  max_new_tokens : p'.max_new_tokens = p.max_new_tokens
  min_new_tokens : p'.min_new_tokens = p.min_new_tokens
  temperature : w.float32 p'.temperature = w.float32 p.temperature
  top_p : w.float32 p'.top_p = w.float32 p.top_p
  min_p : w.float32 p'.min_p = w.float32 p.min_p
  top_k : p'.top_k = p.top_k
  stop_token_ids : p'.stop_token_ids = p.stop_token_ids
  ignore_eos : p'.ignore_eos = p.ignore_eos
  stop_strs : p'.stop_strs = p.stop_strs
  repetition_penalty : w.float32 p'.repetition_penalty = w.float32 p.repetition_penalty
  presence_penalty : w.float32 p'.presence_penalty = w.float32 p.presence_penalty
  frequency_penalty : w.float32 p'.frequency_penalty = w.float32 p.frequency_penalty
  json_schema : p'.json_schema = p.json_schema

/-- The packets agree. -/
structure SamePacket (w : Wire) (r r' : Request) : Prop where
  request_id : r'.request_id = r.request_id
  status : r'.status = r.status
  current_position : r'.total_length = r.total_length
  input_ids : r'.input_ids = r.input_ids
  routing_table : r'.routing_table = r.routing_table
  lora_path : r'.lora_path = r.lora_path
  next_token_id : r'.next_token_id = r.next_token_id
  sampling_params : SameParams w r.sampling_params r'.sampling_params

/-- The list comes back element by element. -/
def RoundTrips (w : Wire) (device new_id : String) (reqs : List Request) : Prop :=
  ∃ proto, request_to_proto w device reqs = .ok proto ∧
    ∃ reqs', proto_to_request w new_id proto = .ok reqs' ∧ List.Forall₂ (SamePacket w) reqs reqs'

/-! ## Encoding -/

/-- The numbers that no check of a request bounds fit into their fields. -/
def CountsFit (p : SamplingParams) : Prop :=
  InInt32 p.max_new_tokens ∧ InInt32 p.min_new_tokens ∧ InInt32 p.top_k

def params_proto (w : Wire) (p : SamplingParams) : SamplingParamsProto where
  max_new_tokens := p.max_new_tokens
  min_new_tokens := p.min_new_tokens
  temperature := w.float32 p.temperature
  top_p := w.float32 p.top_p
  min_p := w.float32 p.min_p
  top_k := p.top_k
  stop_token_ids := (p.stop_token_ids.map token_list).getD []
  ignore_eos := p.ignore_eos
  stop_strs := (p.stop_strs.map stop_items).getD []
  repetition_penalty := w.float32 p.repetition_penalty
  presence_penalty := w.float32 p.presence_penalty
  frequency_penalty := w.float32 p.frequency_penalty
  json_schema := p.json_schema.getD ""

theorem int32_ok {x : Int} (h : InInt32 x) : int32 x = .ok x := by
  unfold int32
  rw [if_pos h]

theorem int32_error {x : Int} (h : ¬ InInt32 x) :
    int32 x = .error (.ValueError s!"Value out of range: {x}") := by
  unfold int32
  rw [if_neg h]

theorem int32_list {l : List Int} (h : ∀ x ∈ l, InInt32 x) : l.mapM int32 = .ok l := by
  have hmap := mapM_of_ok (f := int32) (g := id) (fun x hx => int32_ok (h x hx))
  rw [List.map_id] at hmap
  exact hmap

theorem sampling_params_to_proto.spec {w : Wire} {p : SamplingParams}
    (hstop : ∀ ids ∈ p.stop_token_ids, ∀ id ∈ ids, InInt32 id) :
    (CountsFit p → sampling_params_to_proto w p = .ok (params_proto w p)) ∧
      (¬ CountsFit p → ∃ e, sampling_params_to_proto w p = .error e) := by
  have hlist : ((p.stop_token_ids.map token_list).getD []).mapM int32 =
      .ok ((p.stop_token_ids.map token_list).getD []) := by
    apply int32_list
    intro x hx
    rcases hids : p.stop_token_ids with _ | ids
    · rw [hids] at hx
      cases hx
    · rw [hids] at hx
      exact hstop ids hids x ((Finset.mem_sort _).mp hx)
  unfold sampling_params_to_proto CountsFit
  by_cases hmax : InInt32 p.max_new_tokens
  · by_cases hmin : InInt32 p.min_new_tokens
    · by_cases htop : InInt32 p.top_k
      · refine ⟨?_, fun h => absurd ⟨hmax, hmin, htop⟩ h⟩
        intro _
        rw [int32_ok hmax, int32_ok hmin, int32_ok htop, hlist]
        rfl
      · refine ⟨fun h => absurd h.2.2 htop, ?_⟩
        intro _
        rw [int32_ok hmax, int32_ok hmin, int32_error htop]
        exact ⟨_, rfl⟩
    · refine ⟨fun h => absurd h.2.1 hmin, ?_⟩
      intro _
      rw [int32_ok hmax, int32_error hmin]
      exact ⟨_, rfl⟩
  · refine ⟨fun h => absurd h.1 hmax, ?_⟩
    intro _
    rw [int32_error hmax]
    exact ⟨_, rfl⟩

/-- The message of a packet. -/
def req_of (w : Wire) (r : Request) : Req where
  rid := r.request_id
  output_length := (r.total_length : Int) - r.input_ids.length
  routing_table := r.routing_table
  input_ids := r.input_ids
  sampling_params := params_proto w r.sampling_params
  next_token_id := r.next_token_id.getD 0
  hidden_states := (r.hidden_states.map w.save).getD []
  lora_path := r.lora_path.getD ""

section packet

variable {w : Wire} {device : String} {r : Request}

theorem hidden_bytes_ok (h : Packet device r) :
    hidden_bytes w device r = .ok ((r.hidden_states.map w.save).getD []) := by
  obtain ⟨position, hidden_states, next_token_id, hkind, hsize, _, _⟩ := h.kind
  have hhidden : r.hidden_states = some hidden_states := by
    unfold Request.hidden_states
    rw [hkind]
  unfold hidden_bytes
  rw [hhidden]
  show tensor_to_bytes w device hidden_states = .ok (w.save hidden_states)
  unfold tensor_to_bytes
  by_cases hdevice : device = "cuda"
  · rw [if_pos hdevice]
  · rw [if_neg hdevice, if_pos (hsize.resolve_left hdevice)]

theorem output_length_fits (h : Packet device r) :
    InInt32 ((r.total_length : Int) - r.input_ids.length) := by
  obtain ⟨position, hidden_states, next_token_id, hkind, _, _, hposition⟩ := h.kind
  have hprompt := h.prompt
  have htotal : r.total_length = position := by
    unfold Request.total_length
    rw [hkind]
  unfold InInt32
  rw [htotal]
  omega

theorem next_token_fits (h : Packet device r) : InInt32 (r.next_token_id.getD 0) := by
  obtain ⟨position, hidden_states, next_token_id, hkind, _, hnext, _⟩ := h.kind
  have hsame : r.next_token_id = next_token_id := by
    unfold Request.next_token_id
    rw [hkind]
  rw [hsame]
  rcases next_token_id with _ | id
  · exact ⟨by decide, by decide⟩
  · exact hnext id rfl

theorem request_to_req.spec (h : Packet device r) :
    (CountsFit r.sampling_params → request_to_req w device r = .ok (req_of w r)) ∧
      (¬ CountsFit r.sampling_params → ∃ e, request_to_req w device r = .error e) := by
  obtain ⟨hok, herror⟩ := sampling_params_to_proto.spec (w := w) h.stop_token_ids
  unfold request_to_req
  rw [int32_ok (output_length_fits h), int32_list h.input_ids]
  refine ⟨?_, ?_⟩
  · intro hfit
    rw [hok hfit, hidden_bytes_ok h, int32_ok (next_token_fits h)]
    rfl
  · intro hno
    obtain ⟨e, he⟩ := herror hno
    rw [he]
    exact ⟨e, rfl⟩

/-! ## Decoding -/

/-- The packet that comes out. -/
def decoded (w : Wire) (r : Request) : Request :=
  { request_id := r.request_id
    status := r.status
    input_ids := r.input_ids
    routing_table := r.routing_table
    sampling_params := proto_to_sampling_params (params_proto w r.sampling_params)
    lora_path := if r.lora_path.getD "" ≠ "" then some (r.lora_path.getD "") else none
    kind := .intermediate r.total_length r.hidden_states (some (r.next_token_id.getD 0)) }

theorem unfinished_cases (h : Packet device r) :
    (r.status = .PREFILLING ∧ forward_mode_of r.status = .ok .EXTEND) ∨
      (r.status = .DECODING ∧ forward_mode_of r.status = .ok .DECODE) := by
  have hno := h.unfinished
  unfold Request.is_finished at hno
  rcases hs : r.status <;> simp [hs] at hno <;> simp [forward_mode_of]

/-- The constructor returns when there are hidden states. -/
theorem intermediate_request_ok {new_id request_id : String} (hid : request_id ≠ "")
    (position : Nat) (status : RequestStatus) (input_ids : List Int) (hidden_states : Tensor)
    (next_token_id : Option Int) (routing_table : List String) (sampling_params : SamplingParams)
    (lora_path : Option String) :
    intermediate_request new_id request_id position status input_ids (some hidden_states)
        next_token_id routing_table sampling_params lora_path =
      .ok { request_id, status, input_ids, routing_table, sampling_params, lora_path
            kind := .intermediate position (some hidden_states) next_token_id } := by
  unfold intermediate_request
  rw [if_neg hid]
  simp

theorem req_to_request.spec (hw : w.Lawful) (h : Packet device r) (new_id : String)
    {forward_mode : ForwardMode} (hmode : forward_mode_of r.status = .ok forward_mode) :
    req_to_request w new_id forward_mode (req_of w r) = .ok (decoded w r) := by
  obtain ⟨position, hidden_states, next_token_id, hkind, _, _, _⟩ := h.kind
  have hhidden : r.hidden_states = some hidden_states := by
    unfold Request.hidden_states
    rw [hkind]
  have hbytes : (req_of w r).hidden_states = w.save hidden_states := by
    unfold req_of
    rw [hhidden]
    rfl
  have hposition : (((req_of w r).input_ids.length : Int) + (req_of w r).output_length).toNat =
      r.total_length := by
    show ((r.input_ids.length : Int) + ((r.total_length : Int) - r.input_ids.length)).toNat = _
    omega
  have hstatus : status_of forward_mode (some hidden_states) = .ok r.status := by
    rcases unfinished_cases h with ⟨hs, hm⟩ | ⟨hs, hm⟩
    · rw [hm] at hmode
      cases hmode
      rw [hs]
      rfl
    · rw [hm] at hmode
      cases hmode
      rw [hs]
      rfl
  have hrun : req_to_request w new_id forward_mode (req_of w r) =
      intermediate_request new_id r.request_id r.total_length r.status r.input_ids
        (some hidden_states) (some (r.next_token_id.getD 0)) r.routing_table
        (proto_to_sampling_params (params_proto w r.sampling_params))
        (if r.lora_path.getD "" ≠ "" then some (r.lora_path.getD "") else none) := by
    simp only [req_to_request, hbytes, hw.save_ne hidden_states, if_false, bytes_to_tensor,
      hw.load_save, hstatus, hposition]
    rfl
  rw [hrun, intermediate_request_ok h.request_id]
  unfold decoded
  rw [hhidden]

end packet

/-! ## What survives -/

theorem create_temperature_ne (p : SamplingParams) : (SamplingParams.create p).temperature ≠ 0 := by
  unfold SamplingParams.create
  dsimp only
  split
  · exact one_ne_zero
  · rename_i hne
    exact hne

theorem create_stop_token_ids_ne (p : SamplingParams) :
    (SamplingParams.create p).stop_token_ids ≠ some ∅ := by
  unfold SamplingParams.create
  dsimp only
  split
  · exact Option.some_ne_none _ |>.symm
  · rename_i hne
    exact hne

/-- Sets of stop tokens survive. -/
theorem stop_token_ids_survive (w : Wire) {p : SamplingParams} (hne : p.stop_token_ids ≠ some ∅) :
    (proto_to_sampling_params (params_proto w p)).stop_token_ids = p.stop_token_ids := by
  show (if some ((p.stop_token_ids.map token_list).getD []).toFinset = some ∅ then none
    else some ((p.stop_token_ids.map token_list).getD []).toFinset) = _
  rcases hids : p.stop_token_ids with _ | ids
  · rfl
  · have hlist : ((some ids).map token_list).getD [] = token_list ids := rfl
    have hset : (token_list ids).toFinset = ids := Finset.sort_toFinset ids _
    rw [hlist, hset, if_neg]
    intro he
    exact hne (hids.trans he)

/-- The values of the sampling parameters that the wire keeps. -/
structure ParamsSurvive (w : Wire) (p : SamplingParams) : Prop where
  json_schema : p.json_schema ≠ none
  stop_strs : ∃ l, p.stop_strs = some (.many l)
  temperature : w.float32 p.temperature ≠ 0

theorem same_params_iff {w : Wire} (hw : w.Lawful) (p : SamplingParams)
    (hcreated : ∃ p₀, p = SamplingParams.create p₀) :
    SameParams w p (proto_to_sampling_params (params_proto w p)) ↔ ParamsSurvive w p := by
  have hids : p.stop_token_ids ≠ some ∅ := by
    obtain ⟨p₀, rfl⟩ := hcreated
    exact create_stop_token_ids_ne p₀
  have hjson : (proto_to_sampling_params (params_proto w p)).json_schema =
      some (p.json_schema.getD "") := rfl
  have hstop : (proto_to_sampling_params (params_proto w p)).stop_strs =
      some (.many ((p.stop_strs.map stop_items).getD [])) := rfl
  have htemp : (proto_to_sampling_params (params_proto w p)).temperature =
      if w.float32 p.temperature = 0 then 1 else w.float32 p.temperature := rfl
  have htop : (proto_to_sampling_params (params_proto w p)).top_k =
      if w.float32 p.temperature = 0 then 1 else p.top_k := rfl
  constructor
  · intro h
    refine ⟨?_, ?_, ?_⟩
    · intro hnone
      have hsame := h.json_schema
      rw [hjson, hnone] at hsame
      cases hsame
    · have hsame := h.stop_strs
      rw [hstop] at hsame
      exact ⟨_, hsame.symm⟩
    · intro hzero
      have hsame := h.temperature
      rw [htemp, if_pos hzero, hw.float32_one, hzero] at hsame
      exact one_ne_zero hsame
  · rintro ⟨hsome, ⟨l, hl⟩, hne⟩
    refine ⟨rfl, rfl, ?_, hw.float32_float32 _, hw.float32_float32 _, ?_, ?_, rfl, ?_,
      hw.float32_float32 _, hw.float32_float32 _, hw.float32_float32 _, ?_⟩
    · rw [htemp, if_neg hne, hw.float32_float32]
    · rw [htop, if_neg hne]
    · exact stop_token_ids_survive w hids
    · rw [hstop, hl]
      rfl
    · rw [hjson]
      obtain ⟨schema, hschema⟩ := Option.ne_none_iff_exists'.mp hsome
      rw [hschema]
      rfl

/-- The packets that the wire keeps: a token id, no empty LoRA path, and sampling parameters that
fit and survive. -/
structure Survives (w : Wire) (r : Request) : Prop where
  next_token_id : r.next_token_id ≠ none
  lora_path : r.lora_path ≠ some ""
  counts : CountsFit r.sampling_params
  sampling_params : ParamsSurvive w r.sampling_params

theorem same_packet_iff {w : Wire} (hw : w.Lawful) {device : String} {r : Request}
    (h : Packet device r) (hfit : CountsFit r.sampling_params) :
    SamePacket w r (decoded w r) ↔ Survives w r := by
  have hparams := same_params_iff hw r.sampling_params h.sampling_params
  have hnext : (decoded w r).next_token_id = some (r.next_token_id.getD 0) := rfl
  have hlora : (decoded w r).lora_path =
      if r.lora_path.getD "" ≠ "" then some (r.lora_path.getD "") else none := rfl
  constructor
  · intro hsame
    refine ⟨?_, ?_, hfit, hparams.mp hsame.sampling_params⟩
    · intro hnone
      have hid := hsame.next_token_id
      rw [hnext, hnone] at hid
      cases hid
    · intro hempty
      have hpath := hsame.lora_path
      rw [hlora, hempty] at hpath
      cases hpath
  · intro hsurvives
    refine ⟨rfl, rfl, rfl, rfl, rfl, ?_, ?_, hparams.mpr hsurvives.sampling_params⟩
    · rw [hlora]
      rcases hpath : r.lora_path with _ | path
      · rfl
      · have hne : path ≠ "" := by
          intro he
          apply hsurvives.lora_path
          rw [hpath, he]
        show (if path ≠ "" then some path else none) = some path
        rw [if_pos hne]
    · rw [hnext]
      obtain ⟨id, hid⟩ := Option.ne_none_iff_exists'.mp hsurvives.next_token_id
      rw [hid]
      rfl

/-! ## Lists of packets -/

section packets

variable {w : Wire} {device : String} {reqs : List Request}

/-- The message of a list of packets: their mode, and the message of each of them. -/
theorem request_to_proto.spec (hne : reqs ≠ []) (hpackets : ∀ r ∈ reqs, Packet device r)
    (hstatus : ∀ r ∈ reqs, ∀ r' ∈ reqs, r.status = r'.status) :
    ∃ mode, (∀ r ∈ reqs, forward_mode_of r.status = .ok mode) ∧
      request_to_proto w device reqs =
        (reqs.mapM (request_to_req w device)).map (fun reqs => ⟨mode, reqs⟩) := by
  obtain ⟨first, rest, rfl⟩ := List.exists_cons_of_ne_nil hne
  have hall : (first :: rest).all (fun r => r.status = first.status) = true := by
    rw [List.all_eq_true]
    intro r hr
    exact decide_eq_true (hstatus r hr first List.mem_cons_self)
  obtain ⟨mode, hmode⟩ : ∃ mode, forward_mode_of first.status = .ok mode := by
    rcases unfinished_cases (hpackets first List.mem_cons_self) with ⟨_, hm⟩ | ⟨_, hm⟩
    · exact ⟨_, hm⟩
    · exact ⟨_, hm⟩
  refine ⟨mode, ?_, ?_⟩
  · intro r hr
    rw [hstatus r hr first List.mem_cons_self]
    exact hmode
  · simp only [request_to_proto]
    rw [if_pos hall, hmode]
    rfl

/-- When the counts fit, the list comes back as the decoded packets. -/
theorem round_trips_iff_same (hw : w.Lawful) (new_id : String) (hne : reqs ≠ [])
    (hpackets : ∀ r ∈ reqs, Packet device r)
    (hstatus : ∀ r ∈ reqs, ∀ r' ∈ reqs, r.status = r'.status)
    (hfit : ∀ r ∈ reqs, CountsFit r.sampling_params) :
    RoundTrips w device new_id reqs ↔ ∀ r ∈ reqs, SamePacket w r (decoded w r) := by
  obtain ⟨mode, hmode, hencode⟩ := request_to_proto.spec (w := w) hne hpackets hstatus
  have hreqs : reqs.mapM (request_to_req w device) = .ok (reqs.map (req_of w)) :=
    mapM_of_ok (fun r hr => (request_to_req.spec (hpackets r hr)).1 (hfit r hr))
  have hback : proto_to_request w new_id ⟨mode, reqs.map (req_of w)⟩ =
      .ok (reqs.map (decoded w)) := by
    unfold proto_to_request
    rw [mapM_eq_ok, List.forall₂_map_left_iff, List.forall₂_map_right_iff, List.forall₂_same]
    exact fun r hr => req_to_request.spec hw (hpackets r hr) new_id (hmode r hr)
  have hsame : List.Forall₂ (SamePacket w) reqs (reqs.map (decoded w)) ↔
      ∀ r ∈ reqs, SamePacket w r (decoded w r) := by
    rw [List.forall₂_map_right_iff, List.forall₂_same]
  rw [← hsame]
  unfold RoundTrips
  rw [hencode, hreqs]
  constructor
  · rintro ⟨proto, hproto, reqs', hreqs', hagree⟩
    cases hproto
    rw [hback] at hreqs'
    cases hreqs'
    exact hagree
  · intro hagree
    exact ⟨_, rfl, _, hback, hagree⟩

/-- When a count does not fit, there is no message. -/
theorem not_round_trips (new_id : String) (hne : reqs ≠ [])
    (hpackets : ∀ r ∈ reqs, Packet device r)
    (hstatus : ∀ r ∈ reqs, ∀ r' ∈ reqs, r.status = r'.status) {r : Request} (hr : r ∈ reqs)
    (hno : ¬ CountsFit r.sampling_params) : ¬ RoundTrips w device new_id reqs := by
  obtain ⟨mode, _, hencode⟩ := request_to_proto.spec (w := w) hne hpackets hstatus
  obtain ⟨e, he⟩ := (request_to_req.spec (w := w) (hpackets r hr)).2 hno
  rintro ⟨proto, hproto, _⟩
  rw [hencode] at hproto
  rcases hreqs : reqs.mapM (request_to_req w device) with e' | messages
  · rw [hreqs] at hproto
    cases hproto
  · obtain ⟨q, hq⟩ := exists_of_mapM_ok hreqs hr
    rw [he] at hq
    cases hq

/-- A list of packets comes back from the wire just when each of them survives. -/
theorem round_trips_iff_all_survive (hw : w.Lawful) (new_id : String) (hne : reqs ≠ [])
    (hpackets : ∀ r ∈ reqs, Packet device r)
    (hstatus : ∀ r ∈ reqs, ∀ r' ∈ reqs, r.status = r'.status) :
    RoundTrips w device new_id reqs ↔ ∀ r ∈ reqs, Survives w r := by
  by_cases hfit : ∀ r ∈ reqs, CountsFit r.sampling_params
  · rw [round_trips_iff_same hw new_id hne hpackets hstatus hfit]
    exact forall₂_congr (fun r hr => same_packet_iff hw (hpackets r hr) (hfit r hr))
  · constructor
    · intro htrip
      exfalso
      apply hfit
      intro r hr
      by_contra hno
      exact not_round_trips new_id hne hpackets hstatus hr hno htrip
    · intro hsurvive
      exact absurd (fun r hr => (hsurvive r hr).counts) hfit

end packets

/-! ## The first packet of a request -/

/-- Libraries that are exact: the numbers below are float32 numbers, and a tensor is kept as the
number of its bytes. -/
noncomputable def exact_wire : Wire where
  float32 := id
  save t := List.replicate (Encodable.encode t + 1) 0
  load bytes := (Encodable.decode (bytes.length - 1)).getD []

theorem exact_wire_lawful : exact_wire.Lawful := by
  refine ⟨fun _ => rfl, rfl, ?_, ?_⟩
  · intro t
    simp [exact_wire, Encodable.encodek]
  · intro t
    simp [exact_wire]

/-- A packet with the given next token and sampling parameters. -/
def packet_of (next_token_id : Option Int) (params : SamplingParams) : Request where
  request_id := "r"
  status := .DECODING
  input_ids := [10, 20]
  routing_table := ["a", "b"]
  sampling_params := SamplingParams.create params
  kind := .intermediate 3 (some [[1, 2]]) next_token_id

theorem packet_of_packet {next_token_id : Option Int} {params : SamplingParams}
    (hnext : ∀ id ∈ next_token_id, InInt32 id) (hstop : params.stop_token_ids = none) :
    Packet "mlx" (packet_of next_token_id params) := by
  have hsize : "mlx" = "cuda" ∨ 0 < tensor_size [[1, 2]] := Or.inr (by decide)
  refine ⟨?_, rfl, ⟨3, [[1, 2]], next_token_id, rfl, hsize, hnext, by decide⟩, ?_, ?_, ?_,
    ⟨params, rfl⟩⟩
  · show "r" ≠ ""
    decide
  · show [10, 20].length < 2 ^ 31
    decide
  · show ∀ id ∈ ([10, 20] : List Int), InInt32 id
    decide
  · intro ids hids
    unfold packet_of SamplingParams.create at hids
    simp [hstop] at hids

/-- A decode packet with a stop list and a schema comes back. -/
theorem decode_packet_round_trips :
    RoundTrips exact_wire "mlx" "new"
      [packet_of (some 50) { stop_strs := some (.many ["stop"]), json_schema := some "true" }] :=
  (round_trips_iff_all_survive exact_wire_lawful "new" (by simp)
    (by
      intro r hr
      rw [List.mem_singleton.mp hr]
      exact packet_of_packet (by decide) rfl)
    (by simp)).mpr
    (by
      intro r hr
      rw [List.mem_singleton.mp hr]
      exact ⟨by decide, by decide, ⟨by decide, by decide, by decide⟩,
        ⟨by decide, ⟨["stop"], rfl⟩, one_ne_zero⟩⟩)

/-- The packet of a prompt has no next token and the default sampling parameters. It comes back
with token 0, an empty list of stop strings and an empty schema. -/
theorem prompt_packet_changes :
    ¬ ∀ reqs : List Request, reqs ≠ [] → (∀ r ∈ reqs, Packet "mlx" r) →
      (∀ r ∈ reqs, ∀ r' ∈ reqs, r.status = r'.status) → RoundTrips exact_wire "mlx" "new" reqs := by
  intro hall
  have hpacket : Packet "mlx" (packet_of none {}) := packet_of_packet (by decide) rfl
  have htrip := hall [packet_of none {}] (by simp)
    (by
      intro r hr
      rw [List.mem_singleton.mp hr]
      exact hpacket)
    (by simp)
  have hfit : CountsFit (packet_of none {}).sampling_params := ⟨by decide, by decide, by decide⟩
  rw [round_trips_iff_same exact_wire_lawful "new" (by simp) (by simpa using hpacket) (by simp)
    (by simpa using hfit)] at htrip
  have hsame := (htrip _ (List.mem_singleton.mpr rfl)).next_token_id
  cases hsame

end parallax.p2p.message_util
