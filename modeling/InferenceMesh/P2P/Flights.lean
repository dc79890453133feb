-- Packets on the wire (parallax/p2p/message_util.py): a packet with hidden states
-- that was sent comes out with the id, the status, the position, the hidden
-- states and the token that went in, and an abort with its id.
import InferenceMesh.P2P.WireRoundTrip

open python except_list
open parallax.server.request

namespace parallax.p2p.message_util

/-- A request of a message, with the mode of its message. -/
structure Flight where
  forward_mode : ForwardMode
  req : Req

/-- The requests of a message, one by one. -/
def flights (message : ForwardRequest) : List Flight :=
  message.reqs.map (fun req => { forward_mode := message.forward_mode, req })

/-- The request that a peer makes of a packet. -/
def Flight.lands (w : Wire) (new_id : String) (flight : Flight) : Except Exn Request :=
  req_to_request w new_id flight.forward_mode flight.req

/-- The request that comes out of a packet is the one that went in, as far as peers read it. -/
structure Landed (r r' : Request) : Prop where
  request_id : r'.request_id = r.request_id
  status : r'.status = r.status
  input_ids : r'.input_ids = r.input_ids
  routing_table : r'.routing_table = r.routing_table
  kind : r'.kind = .intermediate r.total_length r.hidden_states (some (r.next_token_id.getD 0))

/-- What a flight carries comes out of it, unless its id is empty. -/
structure Carries (w : Wire) (flight : Flight) (r : Request) : Prop where
  rid : flight.req.rid = r.request_id
  token : flight.req.next_token_id = r.next_token_id.getD 0
  landing : r.request_id ≠ "" → ∀ new_id, ∃ r', flight.lands w new_id = .ok r' ∧ Landed r r'

theorem Carries.landed {w : Wire} {flight : Flight} {r r' : Request} {new_id : String}
    (h : Carries w flight r) (hid : r.request_id ≠ "") (hland : flight.lands w new_id = .ok r') :
    Landed r r' := by
  obtain ⟨r'', hland', hlanded⟩ := h.landing hid new_id
  rw [hland] at hland'
  cases hland'
  exact hlanded

variable {w : Wire} {device : String} {r : Request} {req : Req}

theorem int32_eq {x y : Int} (h : int32 x = .ok y) : y = x := by
  unfold int32 at h
  split at h
  · cases h
    rfl
  · cases h

theorem int32_list_eq {l l' : List Int} (h : l.mapM int32 = .ok l') : l' = l := by
  have hall := mapM_eq_ok.mp h
  clear h
  induction hall with
  | nil => rfl
  | cons hx _ ih => rw [int32_eq hx, ih]

theorem hidden_bytes_eq {t : Tensor} {bytes : List UInt8} (ht : r.hidden_states = some t)
    (h : hidden_bytes w device r = .ok bytes) : bytes = w.save t := by
  unfold hidden_bytes at h
  rw [ht] at h
  dsimp only at h
  unfold tensor_to_bytes at h
  split at h
  · cases h
    rfl
  · split at h
    · cases h
      rfl
    · cases h

/-- The fields of a message that are read again. -/
theorem request_to_req_fields {t : Tensor} (ht : r.hidden_states = some t)
    (h : request_to_req w device r = .ok req) :
    req.rid = r.request_id ∧ req.routing_table = r.routing_table ∧ req.input_ids = r.input_ids ∧
      req.output_length = (r.total_length : Int) - r.input_ids.length ∧
      req.hidden_states = w.save t ∧ req.next_token_id = r.next_token_id.getD 0 := by
  unfold request_to_req at h
  obtain ⟨output_length, hlength, h⟩ := bind_eq_ok.mp h
  obtain ⟨input_ids, hids, h⟩ := bind_eq_ok.mp h
  obtain ⟨params, _, h⟩ := bind_eq_ok.mp h
  obtain ⟨bytes, hbytes, h⟩ := bind_eq_ok.mp h
  obtain ⟨token, htoken, h⟩ := bind_eq_ok.mp h
  cases h
  exact ⟨rfl, rfl, int32_list_eq hids, int32_eq hlength, hidden_bytes_eq ht hbytes,
    int32_eq htoken⟩

theorem status_of_mode {status : RequestStatus} {mode : ForwardMode} {t : Tensor}
    (h : forward_mode_of status = .ok mode) : status_of mode (some t) = .ok status := by
  cases status <;> cases h <;> rfl

/-- The constructor fills the fields in. -/
theorem intermediate_request_eq {new_id id : String} {position : Nat} {status : RequestStatus}
    {input_ids : List Int} {hidden_states : Option Tensor} {next : Option Int}
    {routing_table : List String} {params : SamplingParams} {lora_path : Option String}
    (hid : id ≠ "") (h : intermediate_request new_id id position status input_ids hidden_states next
      routing_table params lora_path = .ok r) :
    r = { request_id := id, status, input_ids, routing_table, sampling_params := params, lora_path
          kind := .intermediate position hidden_states next } := by
  unfold intermediate_request at h
  rw [if_neg hid] at h
  dsimp only at h
  split at h
  · cases h
  · cases h
    rfl

/-- A packet lands under the id that it flew under. -/
theorem lands_id {flight : Flight} {new_id : String} (hid : flight.req.rid ≠ "")
    (h : flight.lands w new_id = .ok r) : r.request_id = flight.req.rid := by
  unfold Flight.lands req_to_request at h
  dsimp only at h
  obtain ⟨status, _, h⟩ := bind_eq_ok.mp h
  rw [intermediate_request_eq hid h]

/-- A packet with hidden states survives the wire. -/
theorem carries_of_sent (hw : w.Lawful) {t : Tensor} (ht : r.hidden_states = some t)
    {mode : ForwardMode} (hmode : forward_mode_of r.status = .ok mode)
    (h : request_to_req w device r = .ok req) :
    Carries w { forward_mode := mode, req } r := by
  obtain ⟨hrid, htable, hids, hlength, hbytes, htoken⟩ := request_to_req_fields ht h
  refine ⟨hrid, htoken, fun hid new_id => ?_⟩
  have hload : bytes_to_tensor w (w.save t) = t := hw.load_save t
  have hne : req.rid ≠ "" := by
    rw [hrid]
    exact hid
  unfold Flight.lands req_to_request
  dsimp only
  rw [hbytes, if_neg (hw.save_ne t), hload, status_of_mode hmode]
  refine ⟨_, intermediate_request_ok hne .., hrid, rfl, hids, htable, ?_⟩
  dsimp only
  rw [hids, hlength, ht, htoken, add_sub_cancel, Int.toNat_natCast]

/-- The packets of a message are in the order of the batch, and carry its requests. -/
theorem flights_of_sent (hw : w.Lawful) {reqs : List Request} {message : ForwardRequest}
    (hhidden : ∀ r ∈ reqs, ∃ t, r.hidden_states = some t)
    (h : request_to_proto w device reqs = .ok message) :
    List.Forall₂ (Carries w) (flights message) reqs := by
  cases reqs with
  | nil => cases h
  | cons first rest =>
    by_cases hsame : (first :: rest).all (fun r => r.status = first.status) = true
    · rw [request_to_proto, if_pos hsame] at h
      obtain ⟨mode, hmode, h⟩ := bind_eq_ok.mp h
      obtain ⟨protos, hprotos, h⟩ := bind_eq_ok.mp h
      cases h
      have hall := mapM_eq_ok.mp hprotos
      unfold flights
      rw [List.forall₂_map_left_iff]
      have hstatus : ∀ r ∈ first :: rest, r.status = first.status := by simpa using hsame
      refine (List.forall₂_iff_get.mpr ⟨hall.length_eq.symm, ?_⟩)
      intro i hi hi'
      have hmem : (first :: rest).get ⟨i, hi'⟩ ∈ first :: rest := List.get_mem _ _
      obtain ⟨t, ht⟩ := hhidden _ hmem
      exact carries_of_sent hw ht (by rw [hstatus _ hmem]; exact hmode)
        (hall.get hi' hi)
    · rw [request_to_proto, if_neg hsame] at h
      cases h

/-! ## Aborts -/

/-- The abort of a request keeps its id, and finishes it. -/
theorem abort_lands {new_id : String} (hid : req.rid ≠ "")
    (h : proto_to_abort_request new_id { reqs := [req] } = .ok [r]) :
    r.request_id = req.rid ∧ r.is_finished = true ∧ r.is_initial = false := by
  obtain ⟨hone, _⟩ := List.forall₂_cons.mp (mapM_eq_ok.mp h)
  rw [intermediate_request_eq hid hone]
  exact ⟨rfl, rfl, rfl⟩

end parallax.p2p.message_util
