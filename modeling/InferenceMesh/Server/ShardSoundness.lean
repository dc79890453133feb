-- The caches of a shard hold what its requests were fed, over whole runs. So what
-- comes out for a request is what the plain layers in a row make of it, and the other
-- requests, the padding, the blocks and the threads do not matter.
import InferenceMesh.Server.ShardBatches

open ordered_dict python state_exn online_softmax causal_stages parallax.metal.paged_attention mlx
open parallax.models.dense parallax.utils parallax.server.cache_manager
open parallax.server.mlx_executor parallax.server.request
open CacheManager
open parallax.server.executor (request_of)

namespace parallax.server.model

set_option linter.unusedSectionVars false

variable {X K L : Type} [Field K] [LinearOrder K] [Add X] [Inhabited X]

/-! ## The invariant -/

section sound

variable {v : Worker X K L} {c : Config} {s : Memory K} {m : CacheManager} {batch : Batch}

/-- The rows that a request was fed, as the layers get them. -/
def Worker.hist (v : Worker X K L) (s : Memory K) (id : String) : List X :=
  (s.fed id).flatMap v.weights.read

/-- The caches hold what the requests with a log were fed, their contexts are as long as that, and
what came out for them is what the peer makes of it. -/
structure Worker.Sound (v : Worker X K L) (c : Config) (s : Memory K) : Prop where
  config : s.manager.config = c
  blocks : BlocksOwned s.manager
  slots : SlotsOwned s.manager
  held : Held v.lib v.exp c.block_size s.manager (v.shard.layers v.weights) s.caches (v.hist s)
  contexts : ∀ id, s.log id ≠ [] → s.manager.context_lengths.get? id = some (v.hist s id).length
  made : ∀ id, s.made id = outputs v.makes (s.fed id)

/-- The manager after the preparation of a batch, on either exit: nothing was freed, and the
requests of others are as they were. -/
structure Prepared (batch : Batch) (m m' : CacheManager) : Prop where
  clean : Clean m m'
  others : ∀ id, id ∉ batch.requests.map Request.request_id → Leaves id m m'

theorem prefill_prepared (peer : Peer) (batch : Batch) (m : CacheManager) :
    Prepared batch m (stateOf (prepare_prefill_batch peer batch.requests m)) where
  clean := (prepare_prefill_batch_clean m peer _).state (.refl m)
  others id hid := by
    refine (prepare_prefill_either (I := fun m' => Leaves id m m') fun req hreq =>
      prefill_row_either fun m' hl => ?_).state (.refl id m)
    exact hl.trans (m'.allocate_request_leaves _ fun heq => hid (heq ▸ List.mem_map_of_mem hreq))

theorem decode_prepared (peer : Peer) (batch : Batch) (m : CacheManager) :
    Prepared batch m (stateOf (prepare_decode_batch peer batch.requests m)) where
  clean := (prepare_decode_batch_clean m peer _).state (.refl m)
  others id hid := by
    refine (prepare_decode_either (I := fun m' => Leaves id m m') fun req hreq =>
      decode_row_either fun m' m'' hl happ => ?_).state (.refl id m)
    exact hl.trans (append_slot_leaves (fun heq => hid (heq ▸ List.mem_map_of_mem hreq)) happ)

/-- A call leaves other requests alone. -/
theorem call_leaves (m : CacheManager) (call : parallax.server.cache_manager.Call) {id : String}
    (hne : id ≠ request_of call) : Leaves id m (m.after call) := by
  cases call with
  | allocate_request rid n => exact m.allocate_request_leaves n hne
  | append_slot rid =>
    unfold CacheManager.after
    dsimp only
    cases happ : m.append_slot rid with
    | error err => exact .refl id m
    | ok result => exact append_slot_leaves hne happ
  | free_request rid => exact m.release_request_leaves hne

namespace Worker

theorem Sound.needs_blocks (h : v.Sound c s) (hb : c.needs_blocks = true) :
    s.manager.needs_blocks = true := by
  rw [CacheManager.needs_blocks, h.config]
  exact hb

/-- The manager changes, and requests are forgotten or stay. -/
theorem Sound.moves {log : String → List (Rows × Made)} (h : v.Sound c s)
    (hconfig : m.config = c) (hblocks : BlocksOwned m) (hslots : SlotsOwned m)
    (hkeep : ∀ id, log id = [] ∨ log id = s.log id ∧ Grows id s.manager m ∧
      m.context_lengths.get? id = s.manager.context_lengths.get? id) :
    v.Sound c ⟨m, s.caches, log⟩ where
  config := hconfig
  blocks := hblocks
  slots := hslots
  held := by
    refine h.held.keeps fun id => ?_
    unfold hist Memory.fed
    dsimp only
    rcases hkeep id with hnil | ⟨hsame, hgrows, _⟩
    · exact Or.inl (by rw [hnil]; rfl)
    · exact Or.inr ⟨by rw [hsame], hgrows⟩
  contexts := by
    intro id hne
    have hne : log id ≠ [] := hne
    rcases hkeep id with hnil | ⟨hsame, _, hcontext⟩
    · exact absurd hnil hne
    · have hold := h.contexts id (hsame ▸ hne)
      unfold hist Memory.fed at hold ⊢
      dsimp only
      rw [hcontext, hold, hsame]
  made := by
    intro id
    have hold := h.made id
    unfold Memory.made Memory.fed at hold ⊢
    rcases hkeep id with hnil | ⟨hsame, _⟩
    · dsimp only
      rw [hnil]
      rfl
    · dsimp only
      rw [hsame]
      exact hold

theorem Sound.prepared (h : v.Sound c s) (hb : c.needs_blocks = true)
    (hprepared : Prepared batch s.manager m) :
    m.config = c ∧ BlocksOwned m ∧ SlotsOwned m := by
  obtain ⟨calls, _, rfl⟩ := hprepared.clean
  obtain ⟨hblocks, hslots⟩ := owned_run s.manager calls (h.needs_blocks hb) h.blocks h.slots
  exact ⟨(run_config s.manager calls).trans h.config, hblocks, hslots⟩

/-- A batch that is not prepared is forgotten. -/
theorem Sound.forgets (h : v.Sound c s) (hb : c.needs_blocks = true)
    (hprepared : Prepared batch s.manager m) : v.Sound c ⟨m, s.caches, s.forget batch⟩ := by
  obtain ⟨hconfig, hblocks, hslots⟩ := h.prepared hb hprepared
  refine h.moves hconfig hblocks hslots fun id => ?_
  unfold Memory.forget
  split
  · exact Or.inl rfl
  · rename_i hid
    exact Or.inr ⟨rfl, hprepared.clean.grows id, (hprepared.others id hid).context⟩

theorem Sound.call (h : v.Sound c s) (hb : c.needs_blocks = true)
    (call : parallax.server.cache_manager.Call) : v.Sound c (s.step v (.call call)) := by
  obtain ⟨hblocks, hslots⟩ := owned_after s.manager call (h.needs_blocks hb) h.blocks h.slots
  refine h.moves ((after_config s.manager call).trans h.config) hblocks hslots fun id => ?_
  by_cases hid : id = request_of call
  · subst hid
    exact Or.inl (Function.update_self ..)
  · refine Or.inr ⟨Function.update_of_ne hid .., after_grows s.manager id call ?_,
      (call_leaves s.manager call hid).context⟩
    rintro rfl
    exact hid rfl

/-! ## A batch -/

/-- A request of a batch gets one entry behind its log, or it starts one. -/
structure Continues (v : Worker X K L) (s : Memory K) (m : CacheManager) (inputs : BatchInputs)
    (i : Nat) (req : Request) (span : Span) (x : Rows) (past : List (Rows × Made)) : Prop where
  start : span.start = ((past.map Prod.fst).flatMap v.weights.read).length
  past : past = [] ∨ past = s.log req.request_id
  len : span.len = x.len
  pos : 0 < x.len
  true_length : true_length inputs i req = x.len
  rows : ∀ t < x.len, (v.weights.read x)[t]? = some (v.weights.input inputs.h_or_tokens i t)
  context : m.context_lengths.get? req.request_id = some (span.start + x.len)

section after_call

variable [IsStrictOrderedRing K] {spans : List Span} {mask : Option (Nat → Nat → Nat → K)}
  {inputs : BatchInputs} {threads : Nat → Threads K} {i : Nat} {req : Request} {span : Span}
  {entries : (Nat → Nat → X ⊕ L) → Nat → Request → List (Rows × Made)}

/-- What a batch does to the logs of its requests. -/
def LogsOf (v : Worker X K L) (s : Memory K) (m : CacheManager) (batch : Batch) (spans : List Span)
    (inputs : BatchInputs)
    (entries : (Nat → Nat → X ⊕ L) → Nat → Request → List (Rows × Made)) : Prop :=
  ∀ (i : Nat) (req : Request) (span : Span), batch.requests[i]? = some req → spans[i]? = some span →
    (∀ out, entries out i req = []) ∨ ∃ x past, Continues v s m inputs i req span x past ∧
      ∀ out, entries out i req = past ++ [(x, made_of v.weights v.pick inputs out i req)]

theorem not_mem_of_place {id : String} (hplace : Machine.place batch id = none) :
    id ∉ batch.requests.map Request.request_id := by
  intro hmem
  obtain ⟨req, hreq, rfl⟩ := List.mem_map.mp hmem
  obtain ⟨i, hi⟩ := List.getElem?_of_mem hreq
  rw [place_eq_some.mpr ⟨hi, rfl⟩] at hplace
  cases hplace

/-- What the requests of a batch are fed does not depend on what comes out. -/
theorem LogsOf.fed (hlogs : LogsOf v s m batch spans inputs entries)
    (hreq : batch.requests[i]? = some req) (hspan : spans[i]? = some span)
    (out out' : Nat → Nat → X ⊕ L) :
    (entries out i req).map Prod.fst = (entries out' i req).map Prod.fst := by
  rcases hlogs i req span hreq hspan with hnil | ⟨x, past, _, hentry⟩
  · rw [hnil, hnil]
  · rw [hentry, hentry, List.map_append, List.map_append]
    rfl

/-- The rows of the requests after a batch. -/
def next_hist (v : Worker X K L) (s : Memory K) (batch : Batch)
    (entries : (Nat → Nat → X ⊕ L) → Nat → Request → List (Rows × Made)) (id : String) : List X :=
  match Machine.place batch id with
  | none => v.hist s id
  | some (i, req) =>
    ((entries (fun _ _ => .inl default) i req).map Prod.fst).flatMap v.weights.read

theorem span_of (hids : spans.map Span.id = batch.requests.map Request.request_id)
    (hreq : batch.requests[i]? = some req) :
    ∃ span, spans[i]? = some span ∧ span.id = req.request_id := by
  have hat := congrArg (fun ids => ids[i]?) hids
  simp only [List.getElem?_map, hreq, Option.map_some] at hat
  obtain ⟨span, hspan, hid⟩ := Option.map_eq_some_iff.mp hat
  exact ⟨span, hspan, hid⟩

theorem request_of_span (hids : spans.map Span.id = batch.requests.map Request.request_id)
    (hspan : spans[i]? = some span) :
    ∃ req, batch.requests[i]? = some req ∧ req.request_id = span.id := by
  have hat := congrArg (fun ids => ids[i]?) hids
  simp only [List.getElem?_map, hspan, Option.map_some] at hat
  obtain ⟨req, hreq, hid⟩ := Option.map_eq_some_iff.mp hat.symm
  exact ⟨req, hreq, hid⟩

theorem LogsOf.grown (hlogs : LogsOf v s m batch spans inputs entries)
    (hids : spans.map Span.id = batch.requests.map Request.request_id) :
    Grown spans (v.hist s) (next_hist v s batch entries) (v.weights.input inputs.h_or_tokens) where
  others := by
    intro id hne
    unfold next_hist
    cases hplace : Machine.place batch id with
    | none => rfl
    | some place =>
      obtain ⟨hreq, rfl⟩ := place_eq_some.mp hplace
      obtain ⟨span, hspan, hid⟩ := span_of hids hreq
      exact absurd hid (hne span (List.mem_of_getElem? hspan))
  rows := by
    intro i span hspan
    obtain ⟨req, hreq, hid⟩ := request_of_span hids hspan
    unfold next_hist
    rw [place_eq_some.mpr ⟨hreq, hid⟩]
    dsimp only
    rcases hlogs i req span hreq hspan with hnil | ⟨x, past, hcont, hentry⟩
    · left
      rw [hnil]
      rfl
    · right
      rw [hentry, List.map_append, List.flatMap_append]
      simp only [List.map_cons, List.map_nil, List.flatMap_singleton]
      refine ⟨?_, ?_, fun t ht => ?_⟩
      · rw [List.length_append, v.weights.read_length, hcont.start, hcont.len]
      · rw [List.take_append_of_le_length (le_of_eq hcont.start),
          List.take_of_length_le (le_of_eq hcont.start.symm)]
        rcases hcont.past with rfl | rfl
        · have hstart : span.start = 0 := hcont.start
          rw [hstart]
          rfl
        · have hstart := hcont.start
          unfold hist Memory.fed
          rw [← hid, List.take_of_length_le (le_of_eq hstart.symm)]
      · rw [hcont.len] at ht
        rw [List.getElem?_append_right (by rw [hcont.start]; exact Nat.le_add_right ..), hcont.start,
          Nat.add_sub_cancel_left]
        exact hcont.rows t ht

theorem log_of_place {id : String} {caches : List (Caches K)} {out : Nat → Nat → X ⊕ L}
    (hplace : Machine.place batch id = some (i, req)) :
    (s.after_call m batch (caches, .ok out) entries).log id = entries out i req := by
  unfold Memory.after_call
  dsimp only
  rw [hplace]

theorem log_of_no_place {id : String} {caches : List (Caches K)} {out : Nat → Nat → X ⊕ L}
    (hplace : Machine.place batch id = none) :
    (s.after_call m batch (caches, .ok out) entries).log id = s.log id := by
  unfold Memory.after_call
  dsimp only
  rw [hplace]

theorem LogsOf.hist (hlogs : LogsOf v s m batch spans inputs entries)
    (hids : spans.map Span.id = batch.requests.map Request.request_id)
    (caches : List (Caches K)) (out : Nat → Nat → X ⊕ L) :
    v.hist (s.after_call m batch (caches, .ok out) entries) = next_hist v s batch entries := by
  funext id
  unfold Worker.hist Memory.fed next_hist
  cases hplace : Machine.place batch id with
  | none =>
    rw [log_of_no_place hplace]
    rfl
  | some place =>
    obtain ⟨hreq, rfl⟩ := place_eq_some.mp hplace
    obtain ⟨span, hspan, _⟩ := span_of hids hreq
    rw [log_of_place hplace]
    dsimp only
    rw [hlogs.fed hreq hspan]

/-- The context of a request of a batch is as long as what it was fed. -/
theorem LogsOf.context (hlogs : LogsOf v s m batch spans inputs entries)
    (hids : spans.map Span.id = batch.requests.map Request.request_id)
    (hplace : Machine.place batch req.request_id = some (i, req)) {out : Nat → Nat → X ⊕ L}
    (hne : entries out i req ≠ []) :
    m.context_lengths.get? req.request_id =
      some (next_hist v s batch entries req.request_id).length := by
  obtain ⟨hreq, _⟩ := place_eq_some.mp hplace
  obtain ⟨span, hspan, _⟩ := span_of hids hreq
  unfold next_hist
  rw [hplace]
  dsimp only
  rcases hlogs i req span hreq hspan with hnil | ⟨x, past, hcont, hentry⟩
  · exact absurd (hnil _) hne
  · rw [hcont.context, hentry, List.map_append, List.flatMap_append, List.length_append,
      hcont.start]
    simp only [List.map_cons, List.map_nil, List.flatMap_singleton, v.weights.read_length]

/-- What comes out for a request of a batch is what the peer makes of its log. -/
theorem LogsOf.made (hlogs : LogsOf v s m batch spans inputs entries)
    (hids : spans.map Span.id = batch.requests.map Request.request_id)
    (hold : ∀ id, s.made id = outputs v.makes (s.fed id)) {rows : Nat → Nat → X}
    (hgrown : Grown spans
      (fun id => outputs (stack v.lib v.exp (v.shard.layers v.weights)) (v.hist s id))
      (fun id => outputs (stack v.lib v.exp (v.shard.layers v.weights))
        (next_hist v s batch entries id)) rows)
    (hplace : Machine.place batch req.request_id = some (i, req)) :
    let out := fun b t => v.shard.output v.weights (rows b t)
    (entries out i req).map Prod.snd = outputs v.makes ((entries out i req).map Prod.fst) := by
  intro out
  obtain ⟨hreq, _⟩ := place_eq_some.mp hplace
  obtain ⟨span, hspan, hid⟩ := span_of hids hreq
  rcases hlogs i req span hreq hspan with hnil | ⟨x, past, hcont, hentry⟩
  · rw [hnil]
    rfl
  · have hpast : past.map Prod.snd = outputs v.makes (past.map Prod.fst) := by
      rcases hcont.past with rfl | rfl
      · rfl
      · exact hold _
    have hnext : next_hist v s batch entries span.id =
        (past.map Prod.fst ++ [x]).flatMap v.weights.read := by
      unfold next_hist
      rw [hid, hplace]
      dsimp only
      rw [hentry, List.map_append]
      rfl
    have hlength : (next_hist v s batch entries span.id).length = span.start + x.len := by
      rw [hnext, List.flatMap_append, List.length_append, List.flatMap_singleton,
        v.weights.read_length, hcont.start]
    have hrows : ∀ t < x.len, (outputs (stack v.lib v.exp (v.shard.layers v.weights))
        ((past.map Prod.fst ++ [x]).flatMap v.weights.read))[span.start + t]? =
          some (rows i t) := by
      intro t ht
      rw [← hnext]
      rcases hgrown.rows i span hspan with hnil | ⟨_, _, hall⟩
      · have hzero := congrArg List.length hnil
        rw [outputs_length, hlength, List.length_nil] at hzero
        omega
      · exact hall t (by rw [hcont.len]; exact ht)
    rw [hentry, List.map_append, List.map_append, hpast]
    simp only [List.map_cons, List.map_nil]
    rw [outputs_concat, made_of_eq hcont.pos hcont.true_length hcont.start (fun _ _ => rfl) hrows]

/-- The call of the model for a batch returns, and the logs of its requests go on. -/
theorem Sound.after_call (h : v.Sound c s) (hb : c.needs_blocks = true) (hlawful : v.Lawful)
    (hprepared : Prepared batch s.manager m)
    (hplaced : Placed m spans (ShardedModel.layer_call v.weights inputs m.block_size mask))
    (hmask : ¬ (padded_len inputs.h_or_tokens > 1 ∧ mask.isNone))
    (hids : spans.map Span.id = batch.requests.map Request.request_id)
    (hlogs : LogsOf v s m batch spans inputs entries) :
    let result := v.shard.call v.weights v.lib v.exp threads inputs m.block_size mask s.caches
    (∃ caches out, result = (caches, .ok out)) ∧ v.Sound c (s.after_call m batch result entries) := by
  intro result
  obtain ⟨hconfig, hblocks, hslots⟩ := h.prepared hb hprepared
  have hsize : m.block_size = c.block_size := by rw [CacheManager.block_size, hconfig]
  have hheld : Held v.lib v.exp m.block_size m (v.shard.layers v.weights) s.caches (v.hist s) := by
    rw [hsize]
    exact h.held.keeps fun id => Or.inr ⟨rfl, hprepared.clean.grows id⟩
  obtain ⟨caches, rows, hrun, hheld', hgrown⟩ := run_layers.spec threads hplaced hblocks
    hlawful.rotates hlawful.attends hlawful.head_dim hlawful.groups hheld (hlogs.grown hids)
  have hresult : result = (caches, .ok fun b t => v.shard.output v.weights (rows b t)) := by
    show v.shard.call v.weights v.lib v.exp threads inputs m.block_size mask s.caches = _
    unfold ShardedModel.call
    rw [if_neg hmask, hrun]
    rfl
  refine ⟨⟨caches, _, hresult⟩, ?_⟩
  rw [hresult]
  refine ⟨hconfig, hblocks, hslots, ?_, ?_, ?_⟩
  · rw [hlogs.hist hids, ← hsize]
    exact hheld'
  · intro id hne
    rw [hlogs.hist hids]
    cases hplace : Machine.place batch id with
    | none =>
      rw [log_of_no_place hplace] at hne
      unfold next_hist
      rw [hplace]
      show m.context_lengths.get? id = _
      rw [(hprepared.others id (not_mem_of_place hplace)).context]
      exact h.contexts id hne
    | some place =>
      obtain ⟨_, rfl⟩ := place_eq_some.mp hplace
      rw [log_of_place hplace] at hne
      exact hlogs.context hids hplace hne
  · intro id
    unfold Memory.made Memory.fed
    cases hplace : Machine.place batch id with
    | none =>
      rw [log_of_no_place hplace]
      exact h.made id
    | some place =>
      obtain ⟨_, rfl⟩ := place_eq_some.mp hplace
      rw [log_of_place hplace]
      exact hlogs.made hids h.made hgrown hplace

/-- The logs of a prefill. -/
theorem Sound.prefill_logs (h : v.Sound c s) (hb : c.needs_blocks = true)
    {batch : PrefillBatch v.peer}
    (hprep : prepare_prefill_batch v.peer batch.requests s.manager = .ok (some inputs) m) :
    LogsOf v s m batch.toBatch (prefill_spans batch.requests) inputs
      (s.prefill_entries v inputs) := by
  intro i req span hreq hspan
  have hplaced := prefill_placed (w := v.weights) (h.needs_blocks hb) hprep v.dtype
  obtain ⟨x, y, value, n, hinput, hlen, hpos, hkind, hy, rfl, _⟩ := prefill_row_of hprep hreq
  have hlength := hplaced.contexts i span hspan
  unfold prefill_spans at hspan
  rw [List.getElem?_map, hreq] at hspan
  cases hspan
  unfold Memory.prefill_entries
  rw [hinput]
  cases hcontext : s.manager.context_lengths.get? req.request_id with
  | some _ => exact Or.inl fun _ => rfl
  | none =>
    refine Or.inr ⟨x, [], ⟨rfl, Or.inl rfl, hlen.symm, hpos, ?_, fun t ht => ?_, ?_⟩, fun _ => rfl⟩
    · unfold model.true_length
      rw [if_pos hkind]
      have hlength : inputs.context_lengths[i]? = some (0 + req.total_length) := hlength
      rw [hlength, hlen, Nat.zero_add]
      rfl
    · exact Weights.input_at hy (Weights.read_pad ht) ht
    · obtain ⟨rows, _, hgather, _⟩ := prepare_prefill_batch.spec hprep
      obtain ⟨_, _, _, hnew⟩ := forall₂_getElem?
        (gather_prefill_final (h.needs_blocks hb) batch.distinct (fun _ _ => rfl) hgather) hreq
      have htable : s.manager.block_tables.get? req.request_id = none := by
        cases htable : s.manager.block_tables.get? req.request_id with
        | none => rfl
        | some table =>
          obtain ⟨n, hn⟩ := (h.blocks.live req.request_id).mp ⟨table, htable⟩
          rw [hcontext] at hn
          cases hn
      dsimp only
      rw [hnew htable, hlen, Nat.zero_add]

/-- The logs of a decode. -/
theorem Sound.decode_logs (h : v.Sound c s) (hb : c.needs_blocks = true)
    {batch : DecodeBatch v.peer}
    (hprep : prepare_decode_batch v.peer batch.requests s.manager = .ok (some inputs) m) :
    LogsOf v s m batch.toBatch (decode_spans m batch.requests) inputs
      (s.decode_entries v inputs) := by
  intro i req span hreq hspan
  obtain ⟨x, hinput, hlen, hkind, hx⟩ := decode_row_of hprep hreq
  unfold decode_spans at hspan
  rw [List.getElem?_map, hreq] at hspan
  cases hspan
  unfold Memory.decode_entries
  rw [hinput]
  cases hlog : s.log req.request_id with
  | nil => exact Or.inl fun _ => rfl
  | cons entry rest =>
    have hcontext := h.contexts req.request_id (by rw [hlog]; exact List.cons_ne_nil _ _)
    have hkept : Kept req.request_id (v.hist s req.request_id).length s.manager :=
      ⟨h.needs_blocks hb, Dict.has_iff.mpr ((h.blocks.live _).mpr ⟨_, hcontext⟩), hcontext⟩
    obtain ⟨rows, hgather, _⟩ := prepare_decode_batch.spec hprep
    have hcontext' := (gather_decode_kept batch.distinct
      (List.mem_map_of_mem (List.mem_of_getElem? hreq)) hkept hgather).1.context
    have hstart : m.get_context_length req.request_id - 1 = (v.hist s req.request_id).length := by
      rw [get_context_length, hcontext']
      rfl
    refine Or.inr ⟨x, s.log req.request_id, ⟨hstart, Or.inr rfl, hlen.symm, ?_, ?_, fun t ht => ?_,
      ?_⟩, fun _ => by rw [hlog]⟩
    · omega
    · unfold model.true_length
      rw [if_neg (by rw [hkind]; exact Bool.false_ne_true), hlen]
    · exact Weights.input_at hx rfl ht
    · dsimp only
      rw [hcontext', hstart, hlen]

theorem Sound.prefill (h : v.Sound c s) (hb : c.needs_blocks = true) (hlawful : v.Lawful)
    {batch : PrefillBatch v.peer} (threads : Nat → Threads K)
    (hprep : prepare_prefill_batch v.peer batch.requests s.manager = .ok (some inputs) m) :
    let result := s.prefill_call v batch.toBatch threads m inputs
    (∃ caches out, result = (caches, .ok out)) ∧
      v.Sound c (s.after_call m batch.toBatch result (s.prefill_entries v inputs)) := by
  have hprepared := prefill_prepared v.peer batch.toBatch s.manager
  rw [hprep] at hprepared
  refine h.after_call hb hlawful hprepared (prefill_placed (h.needs_blocks hb) hprep v.dtype)
    (fun hnone => Bool.false_ne_true hnone.2) ?_ (h.prefill_logs hb hprep)
  rw [prefill_spans, List.map_map]
  rfl

theorem Sound.decode (h : v.Sound c s) (hb : c.needs_blocks = true) (hlawful : v.Lawful)
    {batch : DecodeBatch v.peer} (threads : Nat → Threads K)
    (hprep : prepare_decode_batch v.peer batch.requests s.manager = .ok (some inputs) m) :
    let result := s.decode_call v threads m inputs
    (∃ caches out, result = (caches, .ok out)) ∧
      v.Sound c (s.after_call m batch.toBatch result (s.decode_entries v inputs)) := by
  have hprepared := decode_prepared v.peer batch.toBatch s.manager
  rw [hprep] at hprepared
  refine h.after_call hb hlawful hprepared
    (decode_placed (h.needs_blocks hb) h.blocks h.slots hprep)
    (fun hnone => absurd hnone.1 (by rw [decode_padded_len hprep]; decide)) ?_
    (h.decode_logs hb hprep)
  rw [decode_spans, List.map_map]
  rfl

/-- A step keeps the invariant. -/
theorem Sound.step (h : v.Sound c s) (hb : c.needs_blocks = true) (hlawful : v.Lawful)
    (turn : Turn K v.peer) : v.Sound c (s.step v turn) := by
  cases turn with
  | call call => exact h.call hb call
  | prefill batch threads =>
    have hprepared := prefill_prepared v.peer batch.toBatch s.manager
    unfold Memory.step
    dsimp only
    cases hprep : prepare_prefill_batch v.peer batch.requests s.manager with
    | error err m =>
      rw [hprep] at hprepared
      exact h.forgets hb hprepared
    | ok inputs m =>
      cases inputs with
      | some inputs => exact (h.prefill hb hlawful threads hprep).2
      | none =>
        obtain ⟨_, _, rfl⟩ | ⟨_, _, _, _, _, hsome, _⟩ := prepare_prefill_batch_rows hprep
        · exact h
        · cases hsome
  | decode batch threads =>
    have hprepared := decode_prepared v.peer batch.toBatch s.manager
    unfold Memory.step
    dsimp only
    cases hprep : prepare_decode_batch v.peer batch.requests s.manager with
    | error err m =>
      rw [hprep] at hprepared
      exact h.forgets hb hprepared
    | ok inputs m =>
      cases inputs with
      | some inputs => exact (h.decode hb hlawful threads hprep).2
      | none =>
        obtain ⟨_, _, rfl⟩ | ⟨_, _, hsome, _⟩ := prepare_decode_batch_rows hprep
        · exact h
        · cases hsome

theorem Sound.run (h : v.Sound c s) (hb : c.needs_blocks = true) (hlawful : v.Lawful)
    (turns : List (Turn K v.peer)) : v.Sound c (s.run v turns) := by
  induction turns generalizing s with
  | nil => exact h
  | cons turn rest ih => exact ih (h.step hb hlawful turn)

theorem Sound.start {caches : List (Caches K)} (hb : c.needs_blocks = true)
    (hcaches : caches.length = (v.shard.layers v.weights).length) :
    v.Sound c (Memory.init c caches) where
  config := rfl
  blocks := blocksOwned_init c hb
  slots := slotsOwned_init c
  held := .start hcaches
  contexts _ hne := absurd rfl hne
  made _ := rfl

end after_call

/-- Two heads of two dimensions, for one number a token. -/
noncomputable def small_projections : Projections ℚ ℝ where
  n_heads := 2
  n_kv_heads := 1
  head_dim := 2
  scale := 1
  q_proj x _ := x
  k_proj x i := x + i
  v_proj x _ := x
  o_proj row := ⌊row.sum⌋

noncomputable def small_block : Block ℚ ℝ where
  self_attn := small_projections.llama_attention
  input_layernorm x := x
  post_attention_layernorm x := x
  mlp x := 2 * x

noncomputable def small_weights : Weights ℚ ℝ ℚ where
  embed_tokens token_id := token_id
  layers := [small_block, small_block]
  norm x := x
  lm_head x := x
  load row := row.headD 0
  store x := [x]

/-- A peer with both layers. -/
noncomputable def small_worker : Worker ℚ ℝ ℚ where
  shard := .init 2 0 2
  weights := small_weights
  lib := real_library
  exp := real_exp
  pick logits := ⌊logits⌋
  dtype := .float32
  pad_token_id := 0

theorem small_worker_lawful : small_worker.Lawful where
  rotates := real_library_rotates
  attends := real_library_attends
  head_dim block hblock := by
    obtain rfl : block = small_block := by simpa [small_worker, ShardedModel.layers,
      ShardedModel.init, small_weights] using hblock
    decide
  groups block hblock := by
    obtain rfl : block = small_block := by simpa [small_worker, ShardedModel.layers,
      ShardedModel.init, small_weights] using hblock
    decide

def two_prefills : PrefillBatch small_worker.peer where
  toBatch := two_prompts
  whole := by
    intro req hreq
    rcases List.mem_pair.mp hreq with rfl | rfl
    · exact ⟨.tokens [5, 6], rfl, rfl, by decide⟩
    · exact ⟨.tokens [7], rfl, rfl, by decide⟩

/-- The first of the prompts has got its first token. -/
def one_decode : DecodeBatch small_worker.peer where
  requests := [
    { request_id := "a", prompt_len := 2, input_ids := [5, 6], output_ids := [9],
      status := .DECODING, kind := .initial 4 8 }]
  distinct := by decide
  single := by
    intro req hreq
    obtain rfl := List.mem_singleton.mp hreq
    exact ⟨.tokens [9], rfl, rfl⟩

def in_order (_ : Nat) : Threads ℝ :=
  ⟨.in_grid, .in_grid, fun _ => 0⟩

def empty_caches : List (Caches ℝ) := [⟨fun _ => 0, fun _ => 0⟩, ⟨fun _ => 0, fun _ => 0⟩]

end Worker

end sound

end parallax.server.model
