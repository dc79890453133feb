-- The rows of a batch that is prepared are those of its requests, padded in a
-- prefill, and its slots and block tables lead to the positions of its requests. What
-- the layers make of its own rows is what comes out for a request.
import InferenceMesh.Server.ShardRun

open ordered_dict python state_exn online_softmax causal_stages parallax.metal.paged_attention mlx
open parallax.models.dense parallax.utils parallax.server.cache_manager
open parallax.server.mlx_executor parallax.server.request
open CacheManager

namespace parallax.server.model

set_option linter.unusedSectionVars false

variable {X K L : Type} [Field K] [LinearOrder K] [Add X] [Inhabited X]

/-! ## The rows of a batch -/

section rows

variable {w : Weights X K L} {x y : Rows} {value : Int} {i n t : Nat} {h_or_tokens : List Rows}

theorem Weights.read_length (w : Weights X K L) (x : Rows) : (w.read x).length = x.len := by
  cases x <;> exact List.length_map ..

/-- Padding comes behind the rows of a request. -/
theorem Weights.read_pad (ht : t < x.len) : (w.read (x.pad value n))[t]? = (w.read x)[t]? := by
  cases x with
  | tokens ids =>
    have ht : t < ids.length := ht
    simp only [Rows.pad, Weights.read, List.getElem?_map, List.getElem?_append_left ht]
  | hidden rows =>
    have ht : t < rows.length := ht
    simp only [Rows.pad, Weights.read, List.getElem?_map, List.getElem?_append_left ht]

theorem Weights.input_at (hy : h_or_tokens[i]? = some y)
    (hread : (w.read y)[t]? = (w.read x)[t]?) (ht : t < x.len) :
    (w.read x)[t]? = some (w.input h_or_tokens i t) := by
  unfold Weights.input
  rw [hy, Option.map_some, Option.getD_some, hread, List.getElem?_eq_getElem
    (by rw [w.read_length]; exact ht)]
  rfl

end rows

theorem padded_tables_rectangular (tables : List (List Nat)) :
    ∀ row ∈ pad_block_tables tables, row.length = ((pad_block_tables tables).headD []).length := by
  have hlength : ∀ row ∈ pad_block_tables tables,
      row.length = maxLen (tables.map List.length) := by
    intro row hrow
    obtain ⟨table, htable, rfl⟩ := List.mem_map.mp hrow
    have hle := le_maxLen (List.mem_map_of_mem (f := List.length) htable)
    rw [List.length_append, List.length_replicate]
    omega
  intro row hrow
  rw [hlength row hrow]
  cases hrows : pad_block_tables tables with
  | nil =>
    rw [hrows] at hrow
    cases hrow
  | cons first rest =>
    rw [hrows] at hlength
    exact (hlength first List.mem_cons_self).symm

/-! ## Prefill batches -/

/-- The positions of a prefill. -/
def prefill_spans (reqs : List Request) : List Span :=
  reqs.map (fun req => ⟨req.request_id, 0, req.total_length⟩)

section prefill

variable {w : Weights X K L} {peer : Peer} {batch : PrefillBatch peer} {m₀ m : CacheManager}
  {inputs : BatchInputs} {i : Nat} {req : Request} {x : Rows}

/-- The row of a request of a prefill. -/
theorem prefill_row_of (hprep : prepare_prefill_batch peer batch.requests m₀ = .ok (some inputs) m)
    (hreq : batch.requests[i]? = some req) :
    ∃ x y value n, rows_of peer req.input_ids req = some x ∧ x.len = req.total_length ∧ 0 < x.len ∧
      req.is_prefill = true ∧ inputs.h_or_tokens[i]? = some y ∧ y = x.pad value n ∧
      x.len ≤ padded_len inputs.h_or_tokens := by
  obtain ⟨value, hs, hpadded, hall⟩ := prepare_prefill_batch.h_or_tokens hprep
  obtain ⟨x, hx, hinput, hkind⟩ := forall₂_getElem? hall hreq
  obtain ⟨x', hinput', hlength, hpos⟩ := batch.whole req (List.mem_of_getElem? hreq)
  rw [hinput] at hinput'
  cases hinput'
  have hmem := List.mem_of_getElem? hx
  refine ⟨x, _, value, maxLen (hs.map Rows.len), hinput, hlength, hpos, hkind, ?_, rfl, ?_⟩
  · rw [hpadded]
    unfold pad_inputs
    rw [List.getElem?_map, hx]
    rfl
  · rw [hpadded, padded_len, maxLen_pad_inputs value hs (List.ne_nil_of_mem hmem)]
    exact le_maxLen (List.mem_map_of_mem hmem)

/-- A prefill that is prepared puts each request where the manager has its positions. -/
theorem prefill_placed (hb : m₀.needs_blocks = true)
    (hprep : prepare_prefill_batch peer batch.requests m₀ = .ok (some inputs) m) (dtype : Dtype) :
    Placed m (prefill_spans batch.requests) (ShardedModel.layer_call w inputs m.block_size
      (mask_of dtype peer batch.requests)) := by
  obtain ⟨rows, _, hgather, _, _, _, htables, hcontexts⟩ := prepare_prefill_batch.spec hprep
  obtain ⟨_, slots, hmapping, hlength, _, hentry⟩ := prefill_mapping_follows_slots hb hprep
  have hfinal := gather_prefill_final hb batch.distinct (fun _ _ => rfl) hgather
  have hcontext := (gather_prefill hb hgather).2
  obtain ⟨value, hs, hpadded, hall⟩ := prepare_prefill_batch.h_or_tokens hprep
  obtain ⟨n, hpad, _⟩ := pad_block_tables_map rows
  have hcount : batch.requests.length = inputs.h_or_tokens.length := by
    rw [hpadded, pad_inputs, List.length_map, hall.length_eq]
  have hspan : ∀ (i : Nat) (span : Span), (prefill_spans batch.requests)[i]? = some span →
      ∃ req, batch.requests[i]? = some req ∧ span = ⟨req.request_id, 0, req.total_length⟩ := by
    intro i span hspan
    unfold prefill_spans at hspan
    rw [List.getElem?_map] at hspan
    obtain ⟨req, hreq, rfl⟩ := Option.map_eq_some_iff.mp hspan
    exact ⟨req, hreq, rfl⟩
  have hfits : ∀ span ∈ prefill_spans batch.requests,
      0 < span.len ∧ span.len ≤ padded_len inputs.h_or_tokens := by
    intro span hmem
    obtain ⟨i, hi⟩ := List.getElem?_of_mem hmem
    obtain ⟨req, hreq, rfl⟩ := hspan i span hi
    obtain ⟨x, _, _, _, _, hlen, hpos, _, _, _, hle⟩ := prefill_row_of hprep hreq
    dsimp only
    omega
  refine
    { batch := by
        rw [prefill_spans, List.length_map]
        exact hcount
      distinct := by
        rw [prefill_spans, List.map_map]
        exact batch.distinct
      block_size := rfl
      fits := fun span hmem => (hfits span hmem).2
      slots := ⟨slots, Or.inl hmapping, by rw [hlength, hcount]; rfl, ?_⟩
      rectangular := ?_
      tables := ?_
      contexts := ?_
      single := ?_
      several := ?_ }
  · intro i span hi t ht
    obtain ⟨req, hreq, rfl⟩ := hspan i span hi
    dsimp only
    rw [Nat.zero_add]
    exact hentry i req hreq t ht
  · show ∀ row ∈ inputs.block_tables, row.length = (inputs.block_tables.headD []).length
    rw [htables]
    exact padded_tables_rectangular _
  · intro i span hi
    obtain ⟨req, hreq, rfl⟩ := hspan i span hi
    obtain ⟨row, hrow, htable, _⟩ := forall₂_getElem? hfinal hreq
    refine ⟨List.replicate (n - row.block_table.length) 0, ?_⟩
    show inputs.block_tables[i]? = _
    rw [htables, hpad, List.getElem?_map, hrow, ← htable]
    rfl
  · intro i span hi
    obtain ⟨req, hreq, rfl⟩ := hspan i span hi
    obtain ⟨row, hrow, hlen, _⟩ := forall₂_getElem? hcontext hreq
    show inputs.context_lengths[i]? = _
    rw [hcontexts, List.getElem?_map, hrow, Option.map_some, hlen, Nat.zero_add]
  · intro hone span hmem
    have hone : padded_len inputs.h_or_tokens = 1 := hone
    have hfit := hfits span hmem
    omega
  · intro _
    refine ⟨fun span hmem => ?_, dtype, _, rfl, fun i span hi => ?_⟩
    · obtain ⟨req, _, rfl⟩ := List.mem_map.mp hmem
      rfl
    · obtain ⟨req, hreq, rfl⟩ := hspan i span hi
      obtain ⟨x, _, _, _, hinput, hlen, _⟩ := prefill_row_of hprep hreq
      rw [List.getElem?_map, hreq, Option.map_some, hinput, Option.map_some, hlen]
      rfl

end prefill

/-! ## Decode batches -/

/-- The positions of a decode: the last one of each context. -/
def decode_spans (m : CacheManager) (reqs : List Request) : List Span :=
  reqs.map (fun req => ⟨req.request_id, m.get_context_length req.request_id - 1, 1⟩)

section decode

variable {w : Weights X K L} {peer : Peer} {batch : DecodeBatch peer} {m₀ m : CacheManager}
  {inputs : BatchInputs} {i : Nat} {req : Request}

theorem decode_padded_len
    (hprep : prepare_decode_batch peer batch.requests m₀ = .ok (some inputs) m) :
    padded_len inputs.h_or_tokens = 1 := by
  have hall := prepare_decode_batch.h_or_tokens hprep
  have hlength : ∀ n ∈ inputs.h_or_tokens.map Rows.len, n = 1 := by
    intro n hn
    obtain ⟨x, hx, rfl⟩ := List.mem_map.mp hn
    obtain ⟨i, hi⟩ := List.getElem?_of_mem hx
    obtain ⟨req, hreq, hinput, _⟩ := forall₂_getElem? hall.flip hi
    obtain ⟨x', hinput', hlen⟩ := batch.single req (List.mem_of_getElem? hreq)
    rw [hinput] at hinput'
    cases hinput'
    exact hlen
  have hne : inputs.h_or_tokens.map Rows.len ≠ [] := by
    intro hnil
    have hreqs : batch.requests = [] := by
      rw [List.map_eq_nil_iff.mp hnil] at hall
      exact List.forall₂_nil_right_iff.mp hall
    rw [hreqs] at hprep
    cases hprep
  unfold padded_len maxLen
  rw [List.eq_replicate_of_mem hlength]
  obtain ⟨n, hn⟩ := Nat.exists_eq_succ_of_ne_zero (fun h0 => hne (List.length_eq_zero_iff.mp h0))
  rw [hn]
  clear hn
  induction n with
  | zero => rfl
  | succ n ih => exact ih

/-- The row of a request of a decode. -/
theorem decode_row_of (hprep : prepare_decode_batch peer batch.requests m₀ = .ok (some inputs) m)
    (hreq : batch.requests[i]? = some req) :
    ∃ x, rows_of peer [req.output_ids.getLastD 0] req = some x ∧ x.len = 1 ∧
      req.is_prefill = false ∧ inputs.h_or_tokens[i]? = some x := by
  obtain ⟨x, hx, hinput, hkind⟩ :=
    forall₂_getElem? (prepare_decode_batch.h_or_tokens hprep) hreq
  obtain ⟨x', hinput', hlength⟩ := batch.single req (List.mem_of_getElem? hreq)
  rw [hinput] at hinput'
  cases hinput'
  exact ⟨x, hinput, hlength, hkind, hx⟩

/-- A decode that is prepared puts each request where the manager has its last position. -/
theorem decode_placed (hb : m₀.needs_blocks = true) (hm : BlocksOwned m₀) (hs : SlotsOwned m₀)
    (hprep : prepare_decode_batch peer batch.requests m₀ = .ok (some inputs) m) :
    Placed m (decode_spans m batch.requests)
      (ShardedModel.layer_call w inputs m.block_size none) := by
  obtain ⟨hrect, htables⟩ := decode_batch_tables hb hm hs batch.distinct hprep
  obtain ⟨hrun, slots, hslots, hlength, hentry⟩ := decode_slots_follow_slots hb hm hs hprep
  have hone := decode_padded_len hprep
  have hcount : batch.requests.length = inputs.h_or_tokens.length :=
    (prepare_decode_batch.h_or_tokens hprep).length_eq
  have hsize : m₀.block_size = m.block_size := by
    rw [hrun, CacheManager.block_size, CacheManager.block_size, run_config]
  have hspan : ∀ (i : Nat) (span : Span), (decode_spans m batch.requests)[i]? = some span →
      ∃ req p s, batch.requests[i]? = some req ∧ span = ⟨req.request_id, p, 1⟩ ∧
        inputs.context_lengths[i]? = some (p + 1) ∧ slot_of m req.request_id p = some s ∧
        slots[i]? = some (s : Int) := by
    intro i span hi
    unfold decode_spans at hi
    rw [List.getElem?_map] at hi
    obtain ⟨req, hreq, rfl⟩ := Option.map_eq_some_iff.mp hi
    obtain ⟨p, s, hcontext, hmanager, hslot, hat⟩ := hentry i req hreq
    refine ⟨req, p, s, hreq, ?_, hcontext, hslot, hat⟩
    rw [get_context_length, hmanager batch.distinct]
    rfl
  refine
    { batch := by
        rw [decode_spans, List.length_map]
        exact hcount
      distinct := by
        rw [decode_spans, List.map_map]
        exact batch.distinct
      block_size := rfl
      fits := ?_
      slots := ⟨slots, Or.inr ⟨?_, hsize ▸ hslots⟩, ?_, ?_⟩
      rectangular := hrect
      tables := ?_
      contexts := ?_
      single := ?_
      several := fun hseveral => absurd hone hseveral }
  · intro span hmem
    obtain ⟨i, hi⟩ := List.getElem?_of_mem hmem
    obtain ⟨req, p, s, _, rfl, _⟩ := hspan i span hi
    exact le_of_eq hone.symm
  · obtain ⟨_, _, hnone, _⟩ := prepare_decode_batch.spec hprep
    exact hnone
  · show slots.length = inputs.h_or_tokens.length * padded_len inputs.h_or_tokens
    rw [hlength, hcount, hone, Nat.mul_one]
  · intro i span hi t ht
    obtain ⟨req, p, s, _, rfl, _, hslot, hat⟩ := hspan i span hi
    have ht : t < padded_len inputs.h_or_tokens := ht
    have ht0 : t = 0 := by omega
    subst ht0
    refine ⟨fun _ => ⟨s, hslot, ?_⟩, fun hlt => absurd Nat.one_pos hlt⟩
    show slots[i * padded_len inputs.h_or_tokens + 0]? = _
    rw [hone, Nat.mul_one, Nat.add_zero]
    exact hat
  · intro i span hi
    obtain ⟨req, p, s, hreq, rfl, _⟩ := hspan i span hi
    exact (htables i req hreq).1
  · intro i span hi
    obtain ⟨req, p, s, _, rfl, hcontext, _⟩ := hspan i span hi
    exact hcontext
  · intro _ span hmem
    obtain ⟨req, _, rfl⟩ := List.mem_map.mp hmem
    rfl

end decode

/-! ## What comes out for a request -/

section made

variable {v : Worker X K L} {inputs : BatchInputs} {out : Nat → Nat → X ⊕ L} {h : Nat → Nat → X}
  {i start : Nat} {req : Request} {past : List Rows} {x : Rows}

/-- The part of the outputs of the layers that belongs to a request is made into what the peer makes
in the last of its steps. -/
theorem made_of_eq (hpos : 0 < x.len) (hlength : true_length inputs i req = x.len)
    (hstart : start = (past.flatMap v.weights.read).length)
    (hout : ∀ b t, out b t = v.shard.output v.weights (h b t))
    (hrows : ∀ t < x.len, (outputs (stack v.lib v.exp (v.shard.layers v.weights))
      ((past ++ [x]).flatMap v.weights.read))[start + t]? = some (h i t)) :
    made_of v.weights v.pick inputs out i req = v.makes (past ++ [x]) := by
  have hall : ((past ++ [x]).flatMap v.weights.read).length = start + x.len := by
    rw [List.flatMap_append, List.length_append, List.flatMap_singleton, Weights.read_length, hstart]
  unfold made_of Worker.makes ShardedModel.output at *
  rw [hlength]
  dsimp only
  rw [hout]
  cases hlast : v.shard.is_last_shard with
  | true =>
    have hrow := hrows (x.len - 1) (by omega)
    rw [outputs_getElem? (by omega), List.take_of_length_le (by omega)] at hrow
    rw [if_pos rfl, if_pos rfl, ← Option.some.inj hrow]
    rfl
  | false =>
    rw [if_neg Bool.false_ne_true, if_neg Bool.false_ne_true]
    dsimp only
    congr 1
    show _ = ((outputs _ _).rtake ((past ++ [x]).getLastD (.tokens [])).len).map v.weights.store
    rw [List.getLastD_concat]
    apply List.ext_getElem?
    intro t
    rw [List.getElem?_map, List.getElem?_map, List.rtake, outputs_length, hall,
      Nat.add_sub_cancel, List.getElem?_drop]
    by_cases ht : t < x.len
    · rw [hrows t ht, List.getElem?_range ht, Option.map_some, Option.map_some, hout, hlast,
        if_neg Bool.false_ne_true]
      rfl
    · rw [List.getElem?_eq_none (by rw [List.length_range]; omega),
        List.getElem?_eq_none (by rw [outputs_length]; omega)]
      rfl

end made

end parallax.server.model
