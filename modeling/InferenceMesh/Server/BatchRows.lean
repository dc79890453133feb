-- One request in the preparation of a batch (mlx_executor.py): a prefill finds
-- the memory that it was admitted with, and a decode appends one slot. The rows
-- of others leave its memory alone.
import InferenceMesh.Cache.Holdings
import InferenceMesh.Server.LengthBudget

open ordered_dict python state_exn
open parallax.server.cache_manager parallax.server.request

namespace parallax.server.mlx_executor

open CacheManager

variable {peer : Peer} {reqs : List Request} {m m' : CacheManager} {rows : List Row} {id : String}
  {req : Request} {row : Row} {c P : Nat}

/-! ## Rows -/

section gather

variable {make_row : Request → CacheM Row}

/-- What each row keeps, the gathering keeps. -/
theorem gather_keeps {I : CacheManager → Prop}
    (hrow : ∀ req ∈ reqs, ∀ m row m', I m → make_row req m = .ok row m' → I m')
    (hm : I m) (h : gather make_row reqs m = .ok rows m') : I m' := by
  induction reqs generalizing m rows with
  | nil =>
    cases h
    exact hm
  | cons req rest ih =>
    obtain ⟨row, m₁, hone, h⟩ := bind_ok h
    obtain ⟨others, m₂, hrest, h⟩ := bind_ok h
    cases h
    exact ih (fun req' hreq' => hrow req' (List.mem_cons_of_mem req hreq'))
      (hrow req List.mem_cons_self m row m₁ hm hone) hrest

theorem gather_forall {R : Request → Row → Prop}
    (hrow : ∀ req m row m', make_row req m = .ok row m' → R req row)
    (h : gather make_row reqs m = .ok rows m') : List.Forall₂ R reqs rows := by
  induction reqs generalizing m rows with
  | nil =>
    cases h
    exact .nil
  | cons req rest ih =>
    obtain ⟨row, m₁, hone, h⟩ := bind_ok h
    obtain ⟨others, m₂, hrest, h⟩ := bind_ok h
    cases h
    exact .cons (hrow req m row m₁ hone) (ih hrest)

end gather

theorem prefill_row_allocates (h : prefill_row peer req m = .ok row m') :
    m' = (m.allocate_request req.request_id req.total_length).2 := (prefill_row.spec h).1

theorem prefill_row_kind (h : prefill_row peer req m = .ok row m') : req.is_prefill = true := by
  unfold prefill_row at h
  simp only at h
  split at h
  · cases h
  · rename_i hkind
    simpa using hkind

theorem decode_row_kind (h : decode_row peer req m = .ok row m') : req.is_prefill = false := by
  unfold decode_row at h
  simp only at h
  split at h
  · cases h
  · rename_i hkind
    have hdecoding : req.is_decoding = true := by simpa using hkind
    unfold Request.is_decoding at hdecoding
    unfold Request.is_prefill
    rw [of_decide_eq_true hdecoding]
    rfl

/-- A row of another request. -/
theorem prefill_row_leaves (hne : id ≠ req.request_id) (h : prefill_row peer req m = .ok row m') :
    Leaves id m m' := by
  rw [prefill_row_allocates h]
  exact m.allocate_request_leaves _ hne

theorem decode_row_leaves (hne : id ≠ req.request_id) (h : decode_row peer req m = .ok row m') :
    Leaves id m m' := append_slot_leaves hne (decode_row.spec h).1

theorem prefill_row_tidy (hm : Tidy m) (h : prefill_row peer req m = .ok row m') : Tidy m' := by
  rw [prefill_row_allocates h]
  exact hm.allocate_request _ _

theorem decode_row_tidy (hm : Tidy m) (h : decode_row peer req m = .ok row m') : Tidy m' :=
  hm.append_slot (decode_row.spec h).1

/-- A request that is admitted stays in the cache, with the context that it has. -/
theorem booked_allocate (h : Booked id P m) (n : Nat) : Booked id P (m.allocate_request id n).2 := by
  refine ⟨allocate_request_keeps n h.has, ?_⟩
  intro hb
  rw [(allocate_request_only_for m id n).needs_blocks] at hb
  rw [(h.kept hb).allocate_request]
  exact h.kept hb

theorem prefill_row_booked (hm : Booked id P m) (h : prefill_row peer req m = .ok row m') :
    Booked id P m' := by
  by_cases hid : id = req.request_id
  · rw [prefill_row_allocates h, ← hid]
    exact booked_allocate hm _
  · exact hm.leaves (prefill_row_leaves hid h)

/-- The row of a decode has the context with its new slot. -/
theorem decode_row_kept (hm : Kept req.request_id c m) (h : decode_row peer req m = .ok row m') :
    Kept req.request_id (c + 1) m' ∧ row.context_length = c + 1 := by
  obtain ⟨happ, _, hcontext, _⟩ := decode_row.spec h
  rcases hm.append_slot happ with ⟨hfalse, _⟩ | ⟨_, hkept⟩
  · cases hfalse
  · refine ⟨hkept, ?_⟩
    rw [hcontext]
    unfold get_context_length
    rw [hkept.context]
    rfl

theorem gather_leaves {make_row : Request → CacheM Row}
    (hrow : ∀ req m row m', id ≠ req.request_id → make_row req m = .ok row m' → Leaves id m m')
    (hid : id ∉ reqs.map Request.request_id) (h : gather make_row reqs m = .ok rows m') :
    Leaves id m m' := by
  refine gather_keeps (I := fun m₁ => Leaves id m m₁) ?_ (.refl id m) h
  intro req hreq m₁ row m₂ hl hone
  exact hl.trans (hrow req m₁ row m₂ (fun heq => hid (heq ▸ List.mem_map_of_mem hreq)) hone)

/-- A request that comes new into the cache has the context that it was let in with. -/
theorem allocated_context {id : String} {n : Nat} (hb : m.needs_blocks = true)
    (hnew : m.block_tables.get? id = none) (h : (m.allocate_request id n).1 = true) :
    (m.allocate_request id n).2.context_lengths.get? id = some n := by
  unfold allocate_request Dict.has at *
  rw [hnew, if_neg (by decide)] at h ⊢
  split at h
  · cases h
  · split at h
    · cases h
    · unfold commit
      dsimp only
      rw [if_pos hb]
      exact Dict.get?_insert_self _ _ _

/-- In a batch of distinct requests each row has the block table that its request ends the batch
with, and a request that is new has its whole length as its context. -/
theorem gather_prefill_final {m₀ : CacheManager} (hb : m.needs_blocks = true)
    (hids : (reqs.map Request.request_id).Nodup)
    (hsame : ∀ req ∈ reqs, m.block_tables.get? req.request_id =
      m₀.block_tables.get? req.request_id)
    (h : gather (prefill_row peer) reqs m = .ok rows m') :
    List.Forall₂ (fun req row => row.block_table = m'.get_block_table req.request_id ∧
      (m₀.block_tables.get? req.request_id = none →
        m'.context_lengths.get? req.request_id = some req.total_length)) reqs rows := by
  induction reqs generalizing m rows with
  | nil =>
    cases h
    exact .nil
  | cons req rest ih =>
    obtain ⟨hnot, hrest_ids⟩ := List.nodup_cons.mp hids
    obtain ⟨row, m₁, hrow, h₁⟩ := bind_ok h
    obtain ⟨others, m₂, hrest, h₂⟩ := bind_ok h₁
    cases h₂
    obtain ⟨hafter, hok, htable, -, -⟩ := prefill_row.spec hrow
    have hb₁ : m₁.needs_blocks = true := by
      rw [hafter, after_needs_blocks, hb]
    have hleaves := gather_leaves (fun _ _ _ _ hne hone => prefill_row_leaves hne hone) hnot hrest
    refine .cons ⟨?_, fun hnew => ?_⟩ (ih hb₁ hrest_ids (fun req' hreq' => ?_) hrest)
    · rw [htable, get_block_table, get_block_table, hleaves.table]
    · rw [hleaves.context, prefill_row_allocates hrow]
      exact allocated_context hb ((hsame req List.mem_cons_self).trans hnew) hok
    · have hne : req'.request_id ≠ req.request_id :=
        fun heq => hnot (heq ▸ List.mem_map_of_mem hreq')
      rw [(prefill_row_leaves hne hrow).table]
      exact hsame req' (List.mem_cons_of_mem _ hreq')

/-- In a batch of distinct requests a decode appends one slot. -/
theorem gather_decode_kept (hids : (reqs.map Request.request_id).Nodup)
    (hid : id ∈ reqs.map Request.request_id) (hm : Kept id c m)
    (h : gather (decode_row peer) reqs m = .ok rows m') :
    Kept id (c + 1) m' ∧
      List.Forall₂ (fun req row => req.request_id = id → row.context_length = c + 1) reqs rows := by
  induction reqs generalizing m rows with
  | nil => cases hid
  | cons req rest ih =>
    obtain ⟨hnot, hrest_ids⟩ := List.nodup_cons.mp hids
    obtain ⟨row, m₁, hone, h⟩ := bind_ok h
    obtain ⟨others, m₂, hrest, h⟩ := bind_ok h
    cases h
    by_cases heq : req.request_id = id
    · subst heq
      obtain ⟨hkept, hlength⟩ := decode_row_kept hm hone
      have hl := gather_leaves (fun _ _ _ _ hne hrow => decode_row_leaves hne hrow) hnot hrest
      refine ⟨hkept.leaves hl, .cons (fun _ => hlength) ?_⟩
      have hlengths := gather_forall (R := fun _ _ => True) (fun _ _ _ _ _ => trivial) hrest
      refine (List.forall₂_iff_get.mpr ⟨hlengths.length_eq, ?_⟩)
      intro j hj hj' hsame
      exact absurd (List.mem_map_of_mem (List.get_mem rest ⟨j, hj⟩)) (hsame ▸ hnot)
    · obtain ⟨hkept, hall⟩ := ih hrest_ids (by simpa [Ne.symm heq] using hid)
        (hm.leaves (decode_row_leaves (Ne.symm heq) hone)) hrest
      exact ⟨hkept, .cons (fun hsame => absurd hsame heq) hall⟩

/-! ## Batches -/

theorem prepare_prefill_batch_rows {inputs : Option BatchInputs}
    (h : prepare_prefill_batch peer reqs m = .ok inputs m') :
    inputs = none ∧ reqs = [] ∧ m' = m ∨
      ∃ rows hs slots v b, inputs = some b ∧ b.requests = reqs ∧
        b.context_lengths = rows.map Row.context_length ∧
        gather (prefill_row peer) reqs m = .ok rows m' ∧ batch_rows rows m' = .ok hs m' ∧
        slot_mapping_flat m'.block_size (padded_len (pad_inputs v hs)) rows = .ok slots ∧
        b.h_or_tokens = pad_inputs v hs := by
  unfold prepare_prefill_batch at h
  simp only at h
  split at h
  · rename_i hempty
    cases h
    exact Or.inl ⟨rfl, by simpa using hempty, rfl⟩
  · obtain ⟨rows, m₁, hrows, h₁⟩ := bind_ok h
    obtain ⟨hs, m₂, hhs, h₂⟩ := bind_ok h₁
    obtain ⟨rfl, _⟩ := batch_rows_state hhs
    obtain ⟨m₃, m₄, hget, h₃⟩ := bind_ok h₂
    cases hget
    rcases hslots : slot_mapping_flat m₂.block_size (padded_len (pad_inputs
      (if peer.is_first_peer then peer.pad_token_id else 0) hs)) rows with e | slots
    · simp only [hslots] at h₃
      cases h₃
    · simp only [hslots] at h₃
      cases h₃
      exact Or.inr ⟨rows, hs, slots, _, _, rfl, rfl, rfl, hrows, hhs, hslots, rfl⟩

theorem prepare_decode_batch_rows {inputs : Option BatchInputs}
    (h : prepare_decode_batch peer reqs m = .ok inputs m') :
    inputs = none ∧ reqs = [] ∧ m' = m ∨
      ∃ rows b, inputs = some b ∧ b.requests = reqs ∧
        b.context_lengths = rows.map Row.context_length ∧
        gather (decode_row peer) reqs m = .ok rows m' ∧
        batch_rows rows m' = .ok b.h_or_tokens m' := by
  unfold prepare_decode_batch at h
  split at h
  · rename_i hempty
    cases h
    exact Or.inl ⟨rfl, by simpa using hempty, rfl⟩
  · obtain ⟨rows, m₁, hrows, h₁⟩ := bind_ok h
    obtain ⟨hs, m₂, hhs, h₂⟩ := bind_ok h₁
    obtain ⟨rfl, _⟩ := batch_rows_state hhs
    obtain ⟨m₃, m₄, hget, h₃⟩ := bind_ok h₂
    cases hget
    cases h₃
    exact Or.inr ⟨rows, _, rfl, rfl, rfl, hrows, hhs⟩

/-- Each request has an input. -/
theorem batch_rows_forall {hs : List Rows} (h : batch_rows rows m = .ok hs m') :
    List.Forall₂ (fun row x => row.rows = some x) rows hs := by
  induction rows generalizing m hs with
  | nil =>
    cases h
    exact .nil
  | cons first rest ih =>
    unfold batch_rows at h
    cases hfirst : first.rows with
    | none =>
      rw [hfirst] at h
      cases h
    | some x =>
      rw [hfirst] at h
      obtain ⟨xs, m₁, hrest, h⟩ := bind_ok h
      cases h
      exact .cons hfirst (ih hrest)

theorem batch_rows_mem {hs : List Rows} (h : batch_rows rows m = .ok hs m') (hrow : row ∈ rows) :
    ∃ x ∈ hs, row.rows = some x := by
  obtain ⟨i, hi⟩ := List.getElem?_of_mem hrow
  obtain ⟨x, hx, hrows⟩ := forall₂_getElem? (batch_rows_forall h) hi
  exact ⟨x, List.mem_of_getElem? hx, hrows⟩

theorem gathered_inputs {input : Request → Option Rows} {P : Request → Prop} {hs : List Rows}
    (hrows : List.Forall₂ (fun req row => row.rows = input req ∧ P req) reqs rows)
    (h : batch_rows rows m = .ok hs m') :
    List.Forall₂ (fun req x => input req = some x ∧ P req) reqs hs := by
  have hall := batch_rows_forall h
  refine List.forall₂_iff_get.mpr ⟨hrows.length_eq.trans hall.length_eq, fun i hi hi' => ?_⟩
  obtain ⟨row, hrow, hinput, hP⟩ := forall₂_getElem? hrows (List.getElem?_eq_getElem hi)
  obtain ⟨x, hx, hsome⟩ := forall₂_getElem? hall hrow
  rw [List.getElem?_eq_getElem hi'] at hx
  cases hx
  exact ⟨hinput ▸ hsome, hP⟩

/-- The inputs of a prefill are those of its requests, padded to one length. -/
theorem prepare_prefill_batch.h_or_tokens {inputs : BatchInputs}
    (h : prepare_prefill_batch peer reqs m = .ok (some inputs) m') :
    ∃ value hs, inputs.h_or_tokens = pad_inputs value hs ∧ List.Forall₂ (fun req x =>
      rows_of peer req.input_ids req = some x ∧ req.is_prefill = true) reqs hs := by
  obtain ⟨hnone, _⟩ | ⟨rows, hs, _, value, _, heq, _, _, hgather, hbatch, _, hpadded⟩ :=
    prepare_prefill_batch_rows h
  · cases hnone
  · cases heq
    exact ⟨value, hs, hpadded, gathered_inputs (gather_forall (fun req m row m' hone =>
      ⟨(prefill_row.spec hone).2.2.2.2, prefill_row_kind hone⟩) hgather) hbatch⟩

/-- The inputs of a decode are those of its requests. -/
theorem prepare_decode_batch.h_or_tokens {inputs : BatchInputs}
    (h : prepare_decode_batch peer reqs m = .ok (some inputs) m') :
    List.Forall₂ (fun req x => rows_of peer [req.output_ids.getLastD 0] req = some x ∧
      req.is_prefill = false) reqs inputs.h_or_tokens := by
  obtain ⟨hnone, _⟩ | ⟨rows, _, heq, _, _, hgather, hbatch⟩ := prepare_decode_batch_rows h
  · cases hnone
  · cases heq
    exact gathered_inputs (gather_forall (fun req m row m' hone =>
      ⟨(decode_row.spec hone).2.2.2, decode_row_kind hone⟩) hgather) hbatch

/-- Without blocks the rows have empty block tables. -/
theorem gather_prefill_bare (hm : Tidy m) (hb : m.needs_blocks = false)
    (h : gather (prefill_row peer) reqs m = .ok rows m') :
    List.Forall₂ (fun req row => row.context_length = req.total_length ∧ row.block_table = [] ∧
      row.rows = rows_of peer req.input_ids req) reqs rows := by
  induction reqs generalizing m rows with
  | nil =>
    cases h
    exact .nil
  | cons req rest ih =>
    obtain ⟨row, m₁, hone, h⟩ := bind_ok h
    obtain ⟨others, m₂, hrest, h⟩ := bind_ok h
    cases h
    have htidy := prefill_row_tidy hm hone
    have hb₁ : m₁.needs_blocks = false := by
      rw [prefill_row_allocates hone, (allocate_request_only_for m _ _).needs_blocks, hb]
    obtain ⟨_, _, htable, hlength, hrows⟩ := prefill_row.spec hone
    refine .cons ⟨hlength, ?_, hrows⟩ (ih htidy hb₁ hrest)
    rw [htable]
    unfold get_block_table
    rw [htidy.tables hb₁]
    rfl

/-- A prefill of at least one token takes a block table. -/
theorem prefill_needs_blocks {inputs : BatchInputs} (hm : Tidy m)
    (h : prepare_prefill_batch peer reqs m = .ok (some inputs) m') (hreq : req ∈ reqs)
    (hlength : 0 < req.total_length)
    (hrows : ∀ x, rows_of peer req.input_ids req = some x → 0 < x.len) : m.needs_blocks = true := by
  obtain ⟨hnone, _⟩ | ⟨rows, hs, slots, v, _, _, _, _, hgather, hbatch, hslots, _⟩ :=
    prepare_prefill_batch_rows h
  · cases hnone
  by_contra hno
  have hall := gather_prefill_bare hm (by simpa using hno) hgather
  obtain ⟨i, hi, rfl⟩ := List.getElem_of_mem hreq
  obtain ⟨row, hrow, hcontext, htable, hinput⟩ := forall₂_getElem? hall (List.getElem?_eq_getElem hi)
  obtain ⟨x, hx, hinput'⟩ := batch_rows_mem hbatch (List.mem_of_getElem? hrow)
  have hne : hs ≠ [] := List.ne_nil_of_mem hx
  have hpos : 0 < padded_len (pad_inputs v hs) := by
    rw [padded_len, maxLen_pad_inputs v hs hne]
    exact lt_of_lt_of_le (hrows x (hinput ▸ hinput')) (le_maxLen (List.mem_map_of_mem hx))
  obtain ⟨slot, hslot, _⟩ := (slot_mapping_flat.spec hslots).2 i row hrow 0 hpos
  unfold token_slot at hslot
  rw [htable, hcontext, if_pos hlength] at hslot
  cases hslot

theorem prepare_prefill_keeps {I : CacheManager → Prop} {inputs : Option BatchInputs}
    (hrow : ∀ req ∈ reqs, ∀ m row m', I m → prefill_row peer req m = .ok row m' → I m')
    (hm : I m) (h : prepare_prefill_batch peer reqs m = .ok inputs m') : I m' := by
  obtain ⟨_, _, rfl⟩ | ⟨rows, _, _, _, _, _, _, _, hgather, _⟩ := prepare_prefill_batch_rows h
  · exact hm
  · exact gather_keeps hrow hm hgather

theorem prepare_decode_keeps {I : CacheManager → Prop} {inputs : Option BatchInputs}
    (hrow : ∀ req ∈ reqs, ∀ m row m', I m → decode_row peer req m = .ok row m' → I m')
    (hm : I m) (h : prepare_decode_batch peer reqs m = .ok inputs m') : I m' := by
  obtain ⟨_, _, rfl⟩ | ⟨rows, _, _, _, _, hgather, _⟩ := prepare_decode_batch_rows h
  · exact hm
  · exact gather_keeps hrow hm hgather

end parallax.server.mlx_executor

namespace parallax.server.executor

open mlx_executor CacheManager

variable {peer : Peer} {batch : List Request} {m m' : CacheManager} {id : String} {r : Request}
  {inputs : Option BatchInputs × Option BatchInputs} {c P : Nat}

/-! ## Both parts of a batch -/

/-- The decodes of a batch. -/
theorem decodes_eq (batch : List Request) :
    batch.filter (fun req => !req.is_prefill && req.is_decoding) =
      batch.filter Request.is_decoding := by
  apply List.filter_congr
  intro req _
  unfold Request.is_prefill Request.is_decoding
  cases req.status <;> rfl

theorem prepare_batch_inputs_parts
    (h : prepare_batch_inputs peer batch m = .ok inputs m') :
    ∃ m₁, prepare_prefill_batch peer (batch.filter Request.is_prefill) m = .ok inputs.1 m₁ ∧
      prepare_decode_batch peer (batch.filter Request.is_decoding) m₁ = .ok inputs.2 m' := by
  unfold prepare_batch_inputs at h
  rw [decodes_eq] at h
  obtain ⟨prefill, m₁, hprefill, h⟩ := bind_ok h
  obtain ⟨decode, m₂, hdecode, h⟩ := bind_ok h
  cases h
  exact ⟨m₁, hprefill, hdecode⟩

theorem prepare_batch_inputs_tidy (hm : Tidy m)
    (h : prepare_batch_inputs peer batch m = .ok inputs m') : Tidy m' := by
  obtain ⟨m₁, hprefill, hdecode⟩ := prepare_batch_inputs_parts h
  exact prepare_decode_keeps (fun _ _ _ _ _ hm hone => decode_row_tidy hm hone)
    (prepare_prefill_keeps (fun _ _ _ _ _ hm hone => prefill_row_tidy hm hone) hm hprefill) hdecode

theorem filter_ids_not_mem (p : Request → Bool) (hid : id ∉ batch.map Request.request_id) :
    id ∉ (batch.filter p).map Request.request_id :=
  fun hmem => hid ((List.filter_sublist.map Request.request_id).mem hmem)

/-- A part without the request. -/
theorem prefill_part_leaves {b : Option BatchInputs} {reqs : List Request}
    (hid : id ∉ reqs.map Request.request_id)
    (h : prepare_prefill_batch peer reqs m = .ok b m') : Leaves id m m' :=
  prepare_prefill_keeps (I := Leaves id m) (fun _ hreq _ _ _ hl hone => hl.trans
    (prefill_row_leaves (fun heq => hid (heq ▸ List.mem_map_of_mem hreq)) hone)) (.refl id m) h

theorem decode_part_leaves {b : Option BatchInputs} {reqs : List Request}
    (hid : id ∉ reqs.map Request.request_id)
    (h : prepare_decode_batch peer reqs m = .ok b m') : Leaves id m m' :=
  prepare_decode_keeps (I := Leaves id m) (fun _ hreq _ _ _ hl hone => hl.trans
    (decode_row_leaves (fun heq => hid (heq ▸ List.mem_map_of_mem hreq)) hone)) (.refl id m) h

theorem prepare_batch_inputs_leaves (hid : id ∉ batch.map Request.request_id)
    (h : prepare_batch_inputs peer batch m = .ok inputs m') : Leaves id m m' := by
  obtain ⟨m₁, hprefill, hdecode⟩ := prepare_batch_inputs_parts h
  exact (prefill_part_leaves (filter_ids_not_mem _ hid) hprefill).trans
    (decode_part_leaves (filter_ids_not_mem _ hid) hdecode)

/-- The inputs of a part of a batch: its requests, each with a context length. -/
structure InputsOf (reqs : List Request) (R : Request → Nat → Prop) (b : Option BatchInputs) :
    Prop where
  empty : b = none → reqs = []
  filled : ∀ inputs, b = some inputs → inputs.requests = reqs ∧
    List.Forall₂ R reqs inputs.context_lengths

theorem prefill_inputs {b : Option BatchInputs} {reqs : List Request}
    (h : prepare_prefill_batch peer reqs m = .ok b m') :
    InputsOf reqs (fun req length => length = req.total_length) b := by
  obtain ⟨rfl, rfl, _⟩ | ⟨rows, _, _, _, inputs, rfl, hreqs, hlengths, hgather, _⟩ :=
    prepare_prefill_batch_rows h
  · exact ⟨fun _ => rfl, fun _ hb => (by cases hb)⟩
  · refine ⟨fun hb => (by cases hb), ?_⟩
    rintro _ ⟨rfl⟩
    refine ⟨hreqs, ?_⟩
    rw [hlengths, List.forall₂_map_right_iff]
    exact gather_forall (fun _ _ _ _ hone => (prefill_row.spec hone).2.2.2.1) hgather

theorem decode_inputs {b : Option BatchInputs} {reqs : List Request}
    (hids : (reqs.map Request.request_id).Nodup)
    (hm : id ∈ reqs.map Request.request_id → Kept id c m)
    (h : prepare_decode_batch peer reqs m = .ok b m') :
    InputsOf reqs (fun req length => req.request_id = id → length = c + 1) b ∧
      (id ∈ reqs.map Request.request_id → Kept id (c + 1) m') := by
  obtain ⟨rfl, rfl, _⟩ | ⟨rows, inputs, rfl, hreqs, hlengths, hgather, _⟩ :=
    prepare_decode_batch_rows h
  · exact ⟨⟨fun _ => rfl, fun _ hb => (by cases hb)⟩, fun hid => (by cases hid)⟩
  · by_cases hid : id ∈ reqs.map Request.request_id
    · obtain ⟨hkept, hall⟩ := gather_decode_kept hids hid (hm hid) hgather
      refine ⟨⟨fun hb => (by cases hb), ?_⟩, fun _ => hkept⟩
      rintro _ ⟨rfl⟩
      refine ⟨hreqs, ?_⟩
      rw [hlengths, List.forall₂_map_right_iff]
      exact hall
    · refine ⟨⟨fun hb => (by cases hb), ?_⟩, fun hid' => absurd hid' hid⟩
      rintro _ ⟨rfl⟩
      refine ⟨hreqs, ?_⟩
      rw [hlengths, List.forall₂_map_right_iff]
      have hall := gather_forall (R := fun _ _ => True) (fun _ _ _ _ _ => trivial) hgather
      refine List.forall₂_iff_get.mpr ⟨hall.length_eq, ?_⟩
      intro j hj _ hsame
      exact absurd (List.mem_map_of_mem (List.get_mem reqs ⟨j, hj⟩)) (hsame ▸ hid)

end parallax.server.executor
