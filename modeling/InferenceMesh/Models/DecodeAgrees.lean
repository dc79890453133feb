-- GPT-OSS in prefill and in decode: what the two paths compute for the last
-- token of a context, and for which layers they agree.
import InferenceMesh.Lib.ExceptList
import InferenceMesh.Models.GptOss

open python online_softmax scatter_memory state_exn parallax.metal.paged_attention parallax.utils mlx
open parallax.server.cache_manager parallax.server.mlx_executor parallax.server.request
open CacheManager

namespace parallax.models.gpt_oss

set_option linter.unusedSectionVars false

variable {K : Type} [Field K] [LinearOrder K]

/-! ## Contexts and calls -/

/-- The projections of the tokens of a context, by position, head and dimension. -/
structure Context (K : Type) where
  queries : Nat → Nat → Nat → K
  keys : Nat → Nat → Nat → K
  values : Nat → Nat → Nat → K

/-- The slot of a position of a row, by the block tables. -/
def Call.slot (x : Call K) (b p : Nat) : Nat :=
  (x.block_tables[b]?.getD [])[p / x.block_size]?.getD 0 * x.block_size + p % x.block_size

/-- Row `b` of a decode call is the last token of `n`: its block tables lead to the slots of the
earlier positions, which no row of the call writes to, and the cache holds their keys and
values. -/
structure DecodeRow (attn : Attention K) (lib : Library K) (ctx : Context K) (n : Nat)
    (x : Call K) (b : Nat) : Prop where
  one_token : x.target_len = 1
  in_batch : b < x.batch
  blocks : 0 < x.block_size
  rectangular : ∀ row ∈ x.block_tables, row.length = (x.block_tables.headD []).length
  context : x.context_lengths[b]? = some n
  covered : ∃ row, x.block_tables[b]? = some row ∧ (n - 1) / x.block_size < row.length
  no_mapping : x.slot_mapping = none
  slots : ∃ slots, decode_slots x.block_size x.block_tables x.context_lengths = .ok slots ∧
    slots.length = x.batch ∧ slots[b]? = some (x.slot b (n - 1) : Int) ∧
    (∀ t t' s : Nat, slots[t]? = some (s : Int) → slots[t']? = some (s : Int) → t = t') ∧
    ∀ p, p + 1 < n → (x.slot b p : Int) ∉ slots
  queries_new : ∀ head, x.queries_new b head 0 = ctx.queries (n - 1) head
  keys_new : ∀ head, x.keys_new b head 0 = ctx.keys (n - 1) head
  values_new : ∀ head, x.values_new b head 0 = ctx.values (n - 1) head
  held : ∀ p, p + 1 < n → ∀ head, head < attn.num_key_value_heads → ∀ i, i < attn.head_dim →
    x.caches.key_cache (slot_cell (attn.shape x.block_size) attn.head_dim (x.slot b p) head i) =
        lib.rope p (fun _ => ctx.keys p head) 0 i ∧
      x.caches.value_cache (slot_cell (attn.shape x.block_size) attn.head_dim (x.slot b p) head i) =
        ctx.values p head i

/-- Row `b` of a prefill call holds `n` tokens, and padding after them. -/
structure PrefillRow (ctx : Context K) (n : Nat) (x : Call K) (b : Nat) : Prop where
  several : x.target_len ≠ 1
  fits : n ≤ x.target_len
  mask : ∃ dtype lengths, lengths[b]? = some n ∧ x.mask = some (prefill_mask dtype lengths)
  queries_new : ∀ t, t < n → ∀ head, x.queries_new b head t = ctx.queries t head
  keys_new : ∀ t, t < n → ∀ head, x.keys_new b head t = ctx.keys t head
  values_new : ∀ t, t < n → ∀ head, x.values_new b head t = ctx.values t head

/-- In one head the decode path gives the last token of every context of `n` tokens what the
prefill path gives it. -/
def PathsAgree (block : Block K) (lib : Library K) (e : Exp K) (head n : Nat) : Prop :=
  ∀ (ctx : Context K) (x x' : Call K) (b b' : Nat),
    DecodeRow block.self_attn lib ctx n x b → PrefillRow ctx n x' b' →
    ∀ caches out caches' out', block.forward lib e x = .ok (caches, out) →
      block.forward lib e x' = .ok (caches', out') →
      ∀ i, i < block.self_attn.head_dim → out b head 0 i = out' b' head (n - 1) i

/-! ## What decode computes -/

/-- The key of a position of a context, in one dimension. -/
def Context.rotated_key (ctx : Context K) (lib : Library K) (p head i : Nat) : K :=
  lib.rope p (fun _ => ctx.keys p head) 0 i

/-- The score of the last query of a context with the key of a position. -/
def Context.score (ctx : Context K) (attn : Attention K) (lib : Library K) (n head p : Nat) : K :=
  (∑ j ∈ Finset.range attn.head_dim, lib.rope (n - 1) (fun _ => ctx.queries (n - 1) head) 0 j *
    ctx.rotated_key lib p (head / (attn.num_attention_heads / attn.num_key_value_heads)) j) *
      attn.sm_scale

/-- The value of a position of a context for one head. -/
def Context.value (ctx : Context K) (attn : Attention K) (head i p : Nat) : K :=
  ctx.values p (head / (attn.num_attention_heads / attn.num_key_value_heads)) i

theorem Call.rotated_eq {lib : Library K} (hrope : RotatesByPosition lib) (offset t : Nat)
    {rows : Nat → Nat → K} {v : Nat → K} (h : rows t = v) :
    lib.rope offset rows t = lib.rope (offset + t) (fun _ => v) 0 := by
  rw [hrope offset rows t, h]

/-- After the store of a decode call the cache holds the keys and the values of the whole
context. -/
theorem DecodeRow.held_all {attn : Attention K} {lib : Library K} {ctx : Context K} {n : Nat}
    {x : Call K} {b : Nat} (h : DecodeRow attn lib ctx n x b) (hrope : RotatesByPosition lib)
    (hn : 0 < n) {caches : Caches K}
    (hstore : reshape_and_cache (attn.shape x.block_size) x.store_order (attn.tokens lib x)
      x.caches x.block_tables x.context_lengths x.slot_mapping = .ok caches)
    {p head i : Nat} (hp : p < n) (hh : head < attn.num_key_value_heads) (hi : i < attn.head_dim) :
    caches.key_cache (slot_cell (attn.shape x.block_size) attn.head_dim (x.slot b p) head i) =
        ctx.rotated_key lib p head i ∧
      caches.value_cache (slot_cell (attn.shape x.block_size) attn.head_dim (x.slot b p) head i) =
        ctx.values p head i := by
  obtain ⟨slots, hslots, hlen, hlast, happart, hkept⟩ := h.slots
  rw [h.no_mapping] at hstore
  obtain ⟨hnum, rfl⟩ := reshape_and_cache_decode (c := attn.shape x.block_size) hslots hstore
  by_cases hlt : p + 1 < n
  · obtain ⟨hk, hv⟩ := h.held p hlt head hh i hi
    exact ⟨((kernel.spec (Or.inl rfl) h.blocks hnum happart hh hi).2 _ (hkept p hlt)).trans hk,
      ((kernel.spec (Or.inr rfl) h.blocks hnum happart hh hi).2 _ (hkept p hlt)).trans hv⟩
  · -- the position of the new token
    obtain rfl : p = n - 1 := by omega
    have hpos : x.current_pos b = n - 1 := by simp [Call.current_pos, h.one_token, h.context]
    refine ⟨((kernel.spec (Or.inl rfl) h.blocks hnum happart hh hi).1 b _ hlast).trans ?_,
      ((kernel.spec (Or.inr rfl) h.blocks hnum happart hh hi).1 b _ hlast).trans ?_⟩
    · refine (flat_rows_at x.target_len (x.keys_rotated lib) b hh hi).trans ?_
      rw [h.one_token, Nat.div_one, Nat.mod_one, Call.keys_rotated, hpos]
      exact congrFun (Call.rotated_eq hrope (n - 1) 0 (h.keys_new head)) i
    · refine (flat_rows_at x.target_len x.values_new b hh hi).trans ?_
      rw [h.one_token, Nat.div_one, Nat.mod_one]
      exact congrFun (h.values_new head) i

/-- The sink that the decode path takes in. -/
def Block.decode_sink (block : Block K) (head : Nat) : WithBot K :=
  match block.window_size with
  | some _ => gpt_oss.kernel_sink (block.self_attn.sinks head)
  | none => ⊥

/-- The positions that a layer attends to from the end of a context. -/
def Block.positions (block : Block K) (n : Nat) : List Nat :=
  match block.window_size with
  | some window_size => gpt_oss.window_positions window_size n
  | none => List.range n

/-- The call of the kernels, on the cache that the store has left. -/
def Call.launch (x : Call K) (attn : Attention K) : Launch K :=
  ⟨attn.shape x.block_size, x.batch, attn.num_attention_heads, (x.block_tables.headD []).length,
    attn.sm_scale⟩

def Call.inputs (x : Call K) (attn : Attention K) (lib : Library K) (caches : Caches K) : Inputs K :=
  ⟨flat_rows attn.num_attention_heads attn.head_dim 1 (x.queries_rotated lib), caches,
    row_major x.block_tables, fun b => x.context_lengths[b]?.getD 0⟩

/-- The kernel finds a position of the context in the slot that the block tables give it. -/
theorem DecodeRow.position_slot_eq {attn : Attention K} {lib : Library K} {ctx : Context K}
    {n : Nat} {x : Call K} {b : Nat} (h : DecodeRow attn lib ctx n x b) (caches : Caches K) {p : Nat}
    (hp : p < n) : position_slot (x.launch attn) (x.inputs attn lib caches) b p = x.slot b p := by
  obtain ⟨row, hrow, hcovered⟩ := h.covered
  have hlt : p / x.block_size < row.length :=
    lt_of_le_of_lt (Nat.div_le_div_right (by omega)) hcovered
  have hentry := row_major_eq h.rectangular hrow (List.getElem?_eq_getElem hlt)
  have hslot : x.slot b p = row[p / x.block_size] * x.block_size + p % x.block_size := by
    simp [Call.slot, hrow, hlt]
  rw [hslot, ← hentry]
  rfl

/-- The scores and the values that the kernel reads are those of the context. -/
theorem DecodeRow.cells {attn : Attention K} {lib : Library K} {ctx : Context K} {n : Nat}
    {x : Call K} {b : Nat} (h : DecodeRow attn lib ctx n x b) (hrope : RotatesByPosition lib)
    (hgroup : attn.num_key_value_heads ∣ attn.num_attention_heads) {caches : Caches K}
    (hstore : reshape_and_cache (attn.shape x.block_size) x.store_order (attn.tokens lib x)
      x.caches x.block_tables x.context_lengths x.slot_mapping = .ok caches)
    {head i p : Nat} (hh : head < attn.num_attention_heads) (hi : i < attn.head_dim) (hp : p < n) :
    score_at (x.launch attn) (x.inputs attn lib caches) b head p = ctx.score attn lib n head p ∧
      value_at (x.launch attn) (x.inputs attn lib caches) b head i p = ctx.value attn head i p := by
  have hkv : kv_head_idx (x.launch attn) head < attn.num_key_value_heads := by
    obtain ⟨g, hg⟩ := hgroup
    have hpos : 0 < attn.num_key_value_heads := by
      rcases Nat.eq_zero_or_pos attn.num_key_value_heads with h0 | h0
      · rw [h0, Nat.zero_mul] at hg
        omega
      · exact h0
    show head / (attn.num_attention_heads / attn.num_key_value_heads) < attn.num_key_value_heads
    rw [hg, Nat.mul_div_cancel_left g hpos]
    exact Nat.div_lt_of_lt_mul (by rw [Nat.mul_comm, ← hg]; exact hh)
  have hslot := h.position_slot_eq caches hp
  have hpos : x.current_pos b = n - 1 := by simp [Call.current_pos, h.one_token, h.context]
  refine ⟨?_, ?_⟩
  · rw [score_at, hslot, Context.score]
    congr 1
    apply Finset.sum_congr rfl
    intro j hj
    have hj := Finset.mem_range.mp hj
    have hkey := (h.held_all hrope (by omega) hstore hp hkv hj).1
    have hquery : query (x.launch attn) (x.inputs attn lib caches) b head j =
        lib.rope (n - 1) (fun _ => ctx.queries (n - 1) head) 0 j := by
      refine (flat_rows_at 1 (x.queries_rotated lib) b hh hj).trans ?_
      rw [Nat.div_one, Nat.mod_one, Call.queries_rotated, hpos]
      exact congrFun (Call.rotated_eq hrope (n - 1) 0 (h.queries_new head)) j
    rw [hquery]
    exact congrArg _ hkey
  · rw [value_at, hslot]
    exact (h.held_all hrope (by omega) hstore hp hkv hi).2

/-- The decode path computes the average over the positions of the layer, with its sink. -/
theorem DecodeRow.output {block : Block K} {lib : Library K} {e : Exp K} {ctx : Context K} {n : Nat}
    {x : Call K} {b : Nat} (h : DecodeRow block.self_attn lib ctx n x b)
    (hrope : RotatesByPosition lib) (hn : 0 < n) (hd : block.self_attn.head_dim ≤ 256)
    (hgroup : block.self_attn.num_key_value_heads ∣ block.self_attn.num_attention_heads)
    {caches : Caches K} {out : Nat → Nat → Nat → Nat → K}
    (hforward : block.forward lib e x = .ok (caches, out)) {head i : Nat}
    (hh : head < block.self_attn.num_attention_heads) (hi : i < block.self_attn.head_dim) :
    out b head 0 i = attend e (block.decode_sink head) (block.positions n)
      (ctx.score block.self_attn lib n head) (ctx.value block.self_attn head i) := by
  obtain ⟨caches', hstore, hrest⟩ := except_list.bind_eq_ok.mp hforward
  rw [if_pos h.one_token] at hrest
  obtain ⟨rfl, rfl⟩ := Prod.mk.inj (Except.ok.inj hrest)
  have hcells := fun p hp => h.cells hrope hgroup hstore (p := p) hh hi hp
  have hlen : (x.inputs block.self_attn lib caches').context_lengths b = n := by
    simp [Call.inputs, h.context]
  unfold Block.decode_sink Block.positions
  rcases hwindow : block.window_size with _ | window_size
  · refine (paged_attention_kernel_eq_attend (x.launch block.self_attn) x.attend_order
      (x.inputs block.self_attn lib caches') x.unwritten h.blocks hd hd
      h.in_batch hh hi (by omega)).trans ?_
    rw [hlen]
    apply attend_congr
    · exact fun p hp => (hcells p (List.mem_range.mp hp)).1
    · exact fun p hp => (hcells p (List.mem_range.mp hp)).2
  · refine (gpt_oss.paged_attention_gpt_oss_kernel.spec (x.launch block.self_attn) x.attend_order
      (x.inputs block.self_attn lib caches') x.unwritten h.blocks hd hd
      h.in_batch hh hi (by omega)).trans ?_
    rw [hlen]
    apply attend_congr
    · exact fun p hp => (hcells p (gpt_oss.mem_window_positions.mp hp).1).1
    · exact fun p hp => (hcells p (gpt_oss.mem_window_positions.mp hp).1).2

/-! ## What prefill computes -/

theorem Block.mem_positions (block : Block K) (n p : Nat) : p ∈ block.positions n ↔ p < n ∧
    ∀ window_size, block.window_size = some window_size →
      gpt_oss.token_out window_size n p = false := by
  unfold Block.positions
  rcases block.window_size with _ | window_size
  · simp
  · simp [gpt_oss.mem_window_positions]

/-- The positions of a layer, as a filter of any range that is long enough. -/
theorem Block.positions_eq_filter {block : Block K} {n target_len : Nat} (hfit : n ≤ target_len)
    (keep : Nat → Bool) (hkeep : ∀ p, p < target_len → (keep p = true ↔ p ∈ block.positions n)) :
    (List.range target_len).filter keep = block.positions n := by
  obtain ⟨d, rfl⟩ : ∃ d, target_len = n + d := ⟨target_len - n, by omega⟩
  have hlate : ((List.range d).map (n + ·)).filter keep = [] := by
    rw [List.filter_eq_nil_iff]
    intro p hp hk
    obtain ⟨q, hq, rfl⟩ := List.mem_map.mp hp
    have hq := List.mem_range.mp hq
    have hmem := ((block.mem_positions n (n + q)).mp ((hkeep (n + q) (by omega)).mp hk)).1
    omega
  rw [List.range_add, List.filter_append, hlate, List.append_nil]
  have hsame : (List.range n).filter keep = (List.range n).filter (fun p => p ∈ block.positions n) := by
    apply List.filter_congr
    intro p hp
    have hp := List.mem_range.mp hp
    rw [Bool.eq_iff_iff, hkeep p (by omega), decide_eq_true_iff]
  rw [hsame]
  unfold Block.positions
  rcases block.window_size with _ | window_size
  · exact List.filter_eq_self.mpr (fun p hp => by simpa using hp)
  · apply List.filter_congr
    intro p hp
    have hp := List.mem_range.mp hp
    simp [gpt_oss.mem_window_positions, hp]

/-! ## The decode batches of a run -/

/-- After any run of a layer's cache, a request of a prepared decode batch is a row as above, when
the keys and values that were last written for its earlier positions are those of the context. -/
theorem decode_row_of_run (attn : Attention K) (lib : Library K) (c : Config)
    (hneeds : c.needs_blocks = true) (caches : Caches K) (steps : List (Step K)) (ctx : Context K)
    (peer : Peer) (batch : Batch)
    (inputs : BatchInputs) (m : CacheManager) (x : Call K) (b n : Nat)
    (req : Request) :
    let s := (Machine.init c caches).run
      ⟨attn.num_key_value_heads, attn.head_dim, attn.head_dim⟩ steps
    prepare_decode_batch peer batch.requests s.manager =
      .ok (some inputs) m →
    batch.requests[b]? = some req → inputs.context_lengths[b]? = some n → x.target_len = 1 →
    x.batch = batch.requests.length → x.block_size = m.block_size → x.caches = s.caches →
    x.block_tables = inputs.block_tables → x.context_lengths = inputs.context_lengths →
    x.slot_mapping = inputs.slot_mapping →
    (∀ head, x.queries_new b head 0 = ctx.queries (n - 1) head ∧
      x.keys_new b head 0 = ctx.keys (n - 1) head ∧ x.values_new b head 0 = ctx.values (n - 1) head) →
    (∀ p, p + 1 < n → s.last req.request_id p =
      some ⟨fun head i => ctx.rotated_key lib p head i, ctx.values p⟩) →
    DecodeRow attn lib ctx n x b := by
  intro s hprep hreq hctx hone hbatch hbs hcaches htables hctxs hmapping hnew hlast
  have hs : Sound _ c s := run_sound caches hneeds steps
  have hnb : s.manager.needs_blocks = true := by
    rw [CacheManager.needs_blocks, hs.config]
    exact hneeds
  have hclean := Keeps.ok (prepare_decode_batch_clean _ _ _) (Clean.refl _) hprep
  have hm := hs.clean hneeds hclean
  obtain ⟨hrect, hrows⟩ := decode_batch_tables hnb hs.blocks hs.slots batch.distinct hprep
  obtain ⟨hrun, slots, hslots, hlen, hentry⟩ :=
    decode_slots_follow_slots hnb hs.blocks hs.slots hprep
  have hsize : s.manager.block_size = m.block_size := by
    rw [hrun, CacheManager.block_size, CacheManager.block_size, run_config]
  obtain ⟨⟨pad, hrow⟩, hcontext⟩ := hrows b req hreq
  -- The row of the block tables leads to the slot that the manager gives a position.
  have hslot : ∀ p slot, slot_of m req.request_id p = some slot → x.slot b p = slot := by
    intro p slot hslot
    obtain ⟨t, block, ht, hblock, rfl⟩ := slot_of_eq_some.mp hslot
    have htable : m.get_block_table req.request_id = t := by rw [get_block_table, ht]; rfl
    have hget : (t ++ pad)[p / m.block_size]? = some block := by
      rw [List.getElem?_append_left (List.getElem?_eq_some_iff.mp hblock).1, hblock]
    rw [htable] at hrow
    simp only [Call.slot, hbs, htables, hrow, Option.getD_some, hget]
  obtain ⟨p₀, slot₀, hctx₀, hlen₀, hslot₀, hentry₀⟩ := hentry b req hreq
  obtain rfl : n = p₀ + 1 := Option.some.inj (hctx.symm.trans hctx₀)
  refine
    { one_token := hone
      in_batch := by rw [hbatch]; exact (List.getElem?_eq_some_iff.mp hreq).1
      blocks := by rw [hbs]; exact m.config.block_size_pos
      rectangular := by rw [htables]; exact hrect
      context := by rw [hctxs]; exact hctx
      covered := ⟨_, by rw [htables]; exact hrow, ?_⟩
      no_mapping := by
        obtain ⟨_, _, hnone, _⟩ := prepare_decode_batch.spec hprep
        rw [hmapping, hnone]
      slots := ⟨slots, by rw [hbs, htables, hctxs, ← hsize]; exact hslots, by rw [hlen, hbatch],
        by rw [Nat.add_sub_cancel, hslot p₀ slot₀ hslot₀]; exact hentry₀, ?_, ?_⟩
      queries_new := fun head => (hnew head).1
      keys_new := fun head => (hnew head).2.1
      values_new := fun head => (hnew head).2.2
      held := ?_ }
  · obtain ⟨t, block, ht, hblock, -⟩ := slot_of_eq_some.mp hslot₀
    have htable : m.get_block_table req.request_id = t := by rw [get_block_table, ht]; rfl
    have hlt := (List.getElem?_eq_some_iff.mp hblock).1
    rw [Nat.add_sub_cancel, hbs, htable, List.length_append]
    omega
  · intro t t' slot ht ht'
    have hlt := (List.getElem?_eq_some_iff.mp ht).1
    have hlt' := (List.getElem?_eq_some_iff.mp ht').1
    rw [hlen] at hlt hlt'
    obtain ⟨p, s₁, -, -, hs₁, he⟩ := hentry t _ (List.getElem?_eq_getElem hlt)
    obtain ⟨p', s₂, -, -, hs₂, he'⟩ := hentry t' _ (List.getElem?_eq_getElem hlt')
    obtain rfl : slot = s₁ := Int.ofNat.inj (Option.some.inj (ht.symm.trans he))
    obtain rfl : slot = s₂ := Int.ofNat.inj (Option.some.inj (ht'.symm.trans he'))
    obtain ⟨hid, -⟩ := slot_of_inj hm.blocks hs₁ hs₂
    refine (@List.Nodup.getElem_inj_iff _ _ batch.distinct t (by rwa [List.length_map]) t'
      (by rwa [List.length_map])).mp ?_
    simpa using hid
  · intro p hp hmem
    obtain ⟨t, ht⟩ := List.getElem?_of_mem hmem
    have hlt := (List.getElem?_eq_some_iff.mp ht).1
    rw [hlen] at hlt
    obtain ⟨slot, hslot', -⟩ := hs.coherent _ p _ (hlast p hp)
    have hgrown := (hclean.grows req.request_id).slot_of hslot'
    obtain ⟨p₁, slot₁, -, hlen₁, hslot₁, hentry₁⟩ := hentry t _ (List.getElem?_eq_getElem hlt)
    rw [hslot p slot hgrown] at ht
    obtain rfl : slot = slot₁ := Int.ofNat.inj (Option.some.inj (ht.symm.trans hentry₁))
    obtain ⟨hid, rfl⟩ := slot_of_inj hm.blocks hslot₁ hgrown
    have hsame := hlen₁ batch.distinct
    rw [hid, hlen₀ batch.distinct] at hsame
    have := Option.some.inj hsame
    omega
  · intro p hp head hh i hi
    obtain ⟨slot, hslot', hcells⟩ := hs.coherent _ p _ (hlast p hp)
    have hgrown := (hclean.grows req.request_id).slot_of hslot'
    obtain ⟨hkey, hvalue⟩ := hcells head hh
    rw [hslot p slot hgrown, hcaches, hbs, ← hsize]
    exact ⟨hkey i hi, hvalue i hi⟩

section masks

variable [IsStrictOrderedRing K]

/-- The mask of the last token of a row is zero at the positions of the layer, and minus infinity
elsewhere. -/
theorem window_mask_last (block : Block K) {lib : Library K} {lengths : List Nat} {b n : Nat}
    (dtype : Dtype) (hwindow : WindowsLikeKernel lib) (hn : 0 < n) (hlen : lengths[b]? = some n)
    (target_len p : Nat) :
    let m := window_mask lib target_len block.window_size (prefill_mask dtype lengths) b (n - 1) p
    (p ∈ block.positions n → m = 0) ∧ (p ∉ block.positions n → m ≤ -least_infinite) := by
  have hkept := fun hp : p < n => prefill_mask_kept (K := K) dtype hlen (i := n - 1) (j := p)
    (by omega) hp
  have hmasked := fun hp : ¬ p < n => prefill_mask_masked (K := K) dtype hlen (i := n - 1) (j := p)
    (by omega)
  have hmem := block.mem_positions n p
  unfold window_mask
  rcases hw : block.window_size with _ | window_size
  · simp only [hw, reduceCtorEq, false_implies, implies_true, and_true] at hmem ⊢
    exact ⟨fun h => hkept (hmem.mp h), fun h => hmasked (fun hlt => h (hmem.mpr hlt))⟩
  · have hkeeps := hwindow target_len window_size (n - 1) p
    rw [Nat.sub_add_cancel hn] at hkeeps
    simp only [hw, Option.some.injEq, forall_eq'] at hmem ⊢
    by_cases hin : lib.create_causal_mask target_len window_size (n - 1) p = true
    · obtain ⟨hle, hout⟩ := hkeeps.mp hin
      have hlt : p < n := by omega
      refine ⟨fun _ => ?_, fun h => absurd (hmem.mpr ⟨hlt, hout⟩) h⟩
      rw [if_pos hin, hkept hlt, sub_self, zero_mul, add_zero]
    · rw [if_neg hin, sub_zero, one_mul]
      refine ⟨fun h => absurd (hkeeps.mpr ⟨by have := (hmem.mp h).1; omega, (hmem.mp h).2⟩) hin, ?_⟩
      intro _
      have hbig : (least_infinite : K) ≤ ((10 ^ 9 : Nat) : K) := by norm_num [least_infinite]
      by_cases hlt : p < n
      · rw [hkept hlt, zero_add]
        exact neg_le_neg hbig
      · have hneg := hmasked hlt
        have hpos : (0 : K) ≤ ((10 ^ 9 : Nat) : K) := Nat.cast_nonneg _
        linarith

/-- The mask of a prefill call keeps the positions of the layer for the last token of a row. -/
theorem kept_eq (block : Block K) {lib : Library K} {lengths : List Nat} (x : Call K) {b n : Nat}
    (dtype : Dtype) (hwindow : WindowsLikeKernel lib) (hn : 0 < n) (hlen : lengths[b]? = some n)
    (hfit : n ≤ x.target_len) :
    let s := block.self_attn.attention_input lib x
      (window_mask lib x.target_len block.window_size (prefill_mask dtype lengths)) b
    s.kept (n - 1) = block.positions n ∧
      ∀ p, p < x.target_len → s.mask (n - 1) p = 0 ∨ s.mask (n - 1) p ≤ -least_infinite := by
  intro s
  have hlast := window_mask_last block dtype hwindow hn hlen x.target_len
  have hneg : -(least_infinite : K) < 0 := by norm_num [least_infinite]
  refine ⟨Block.positions_eq_filter hfit _ ?_, ?_⟩
  · intro p _
    rw [decide_eq_true_iff]
    constructor
    · intro hzero
      by_contra hnot
      have hle := (hlast p).2 hnot
      exact absurd hzero (lt_of_le_of_lt hle hneg).ne
    · exact (hlast p).1
  · intro p _
    by_cases hmem : p ∈ block.positions n
    · exact Or.inl ((hlast p).1 hmem)
    · exact Or.inr ((hlast p).2 hmem)

/-- The last position of a context is among the positions of the layer. -/
theorem Block.positions_ne_nil (block : Block K) {n : Nat} (hn : 0 < n) :
    block.positions n ≠ [] := by
  unfold Block.positions
  rcases block.window_size with _ | window_size
  · simp only [ne_eq, List.range_eq_nil]
    omega
  · exact gpt_oss.window_positions_ne_nil hn

/-- The prefill path computes the average over the positions of the layer, with the sink. -/
theorem PrefillRow.output {block : Block K} {lib : Library K} {e : Exp K} {ctx : Context K} {n : Nat}
    {x : Call K} {b : Nat} (h : PrefillRow ctx n x b) (hrope : RotatesByPosition lib)
    (hwindow : WindowsLikeKernel lib) (hattend : AttendsWithMask lib e) (hn : 0 < n)
    {caches : Caches K} {out : Nat → Nat → Nat → Nat → K}
    (hforward : block.forward lib e x = .ok (caches, out)) {head : Nat} (i : Nat)
    (hh : head < block.self_attn.num_attention_heads) :
    out b head (n - 1) i = attend e (block.self_attn.sinks head) (block.positions n)
      (ctx.score block.self_attn lib n head) (ctx.value block.self_attn head i) := by
  obtain ⟨caches', _, hrest⟩ := except_list.bind_eq_ok.mp hforward
  rw [if_neg h.several] at hrest
  obtain ⟨dtype, lengths, hlen, hmask⟩ := h.mask
  rw [hmask] at hrest
  obtain ⟨rfl, rfl⟩ := Prod.mk.inj (Except.ok.inj hrest)
  obtain ⟨hkept, hvalues⟩ := kept_eq block x dtype hwindow hn hlen h.fits
  have hfit := h.fits
  have hzero : ∀ b, x.current_pos b = 0 := fun b => by simp [Call.current_pos, h.several]
  have hrotated : ∀ (rows : Nat → Nat → K) (t : Nat) (v : Nat → K), rows t = v →
      lib.rope (x.current_pos b) rows t = lib.rope t (fun _ => v) 0 := by
    intro rows t v hv
    rw [hzero, Call.rotated_eq hrope 0 t hv, Nat.zero_add]
  refine (hattend _ head (n - 1) i hh (by show n - 1 < x.target_len; omega)
    (by rw [hkept]; exact block.positions_ne_nil hn) hvalues).trans ?_
  rw [hkept]
  apply attend_congr
  · intro p hp
    have hp := ((block.mem_positions n p).mp hp).1
    have hq := hrotated (x.queries_new b head) (n - 1) _ (h.queries_new (n - 1) (by omega) head)
    have hk := fun kv_head => hrotated (x.keys_new b kv_head) p _ (h.keys_new p hp kv_head)
    simp only [AttentionInput.score, Attention.attention_input, Call.queries_rotated,
      Call.keys_rotated, hq, hk]
    rfl
  · intro p hp
    have hp := ((block.mem_positions n p).mp hp).1
    exact congrFun (h.values_new p hp _) i

/-! ## The layers that agree -/

/-- Where the decode path takes in the sink of a head just as the prefill path does. -/
theorem decode_sink_eq_iff {block : Block K} {e : Exp K} {head : Nat} :
    e.ofBot (block.decode_sink head) = e.ofBot (block.self_attn.sinks head) ↔
      block.self_attn.sinks head = ⊥ ∨ (block.layer_type = .sliding_attention ∧
        block.self_attn.sinks head > (gpt_oss.least_sink : K)) := by
  have hbot : e.ofBot (⊥ : WithBot K) = 0 := rfl
  unfold Block.decode_sink Block.window_size gpt_oss.kernel_sink
  by_cases hlayer : block.layer_type = .sliding_attention
  · by_cases hsink : block.self_attn.sinks head > (gpt_oss.least_sink : K)
    · simp [hlayer, hsink]
    · simp only [hlayer, hsink, if_true, if_false, hbot, and_false, or_false]
      exact ⟨fun h => Exp.ofBot_eq_zero h.symm, fun h => by rw [h, hbot]⟩
  · simp only [hlayer, if_false, hbot, false_and, or_false]
    exact ⟨fun h => Exp.ofBot_eq_zero h.symm, fun h => by rw [h, hbot]⟩

/-- The paths agree where they take in the same sink. -/
theorem paths_agree_of_sink {block : Block K} {lib : Library K} {e : Exp K} {head n : Nat}
    (hrope : RotatesByPosition lib) (hwindow : WindowsLikeKernel lib) (hattend : AttendsWithMask lib e)
    (hd : block.self_attn.head_dim ≤ 256)
    (hgroup : block.self_attn.num_key_value_heads ∣ block.self_attn.num_attention_heads)
    (hh : head < block.self_attn.num_attention_heads) (hn : 0 < n)
    (hsink : e.ofBot (block.decode_sink head) = e.ofBot (block.self_attn.sinks head)) :
    PathsAgree block lib e head n := by
  intro ctx x x' b b' hx hx' caches out caches' out' hout hout' i hi
  rw [hx.output hrope hn hd hgroup hout hh hi, hx'.output hrope hwindow hattend hn hout' i hh,
    attend, attend, hsink]

/-- A context whose values are all one. -/
def Context.ones : Context K := ⟨fun _ _ _ => 0, fun _ _ _ => 0, fun _ _ _ => 1⟩

/-- The last token of a context, alone in a decode batch, with the whole context in block 0. -/
def one_block_decode (attn : Attention K) (lib : Library K) (ctx : Context K) (n : Nat) : Call K where
  batch := 1
  target_len := 1
  queries_new := fun _ head _ => ctx.queries (n - 1) head
  keys_new := fun _ head _ => ctx.keys (n - 1) head
  values_new := fun _ head _ => ctx.values (n - 1) head
  mask := none
  block_size := n
  caches :=
    { key_cache := fun cell => ctx.rotated_key lib (cell / attn.head_dim % n)
        (cell / attn.head_dim / n) (cell % attn.head_dim)
      value_cache := fun cell => ctx.values (cell / attn.head_dim % n)
        (cell / attn.head_dim / n) (cell % attn.head_dim) }
  block_tables := [[0]]
  context_lengths := [n]
  slot_mapping := none
  store_order := .in_grid
  attend_order := .in_grid
  unwritten := fun _ => 0

/-- A context, alone in a prefill batch. -/
def one_row_prefill (ctx : Context K) (n : Nat) : Call K where
  batch := 1
  target_len := n
  queries_new := fun _ head t => ctx.queries t head
  keys_new := fun _ head t => ctx.keys t head
  values_new := fun _ head t => ctx.values t head
  mask := some (prefill_mask .float32 [n])
  block_size := n
  caches := ⟨fun _ => 0, fun _ => 0⟩
  block_tables := [[0]]
  context_lengths := [n]
  slot_mapping := some ((List.range n).map (fun t : Nat => (t : Int)))
  store_order := .in_grid
  attend_order := .in_grid
  unwritten := fun _ => 0

theorem one_block_slots {n : Nat} (hn : 0 < n) :
    decode_slots n [[0]] [n] = .ok [((n - 1 : Nat) : Int)] := by
  have hpred : (n : Int) - 1 = ((n - 1 : Nat) : Int) := by omega
  have hdiv : ((n - 1 : Nat) : Int) / (n : Int) = 0 := Int.ediv_eq_zero_of_lt (by omega) (by omega)
  have hmod : ((n - 1 : Nat) : Int) % (n : Int) = ((n - 1 : Nat) : Int) :=
    Int.emod_eq_of_lt (by omega) (by omega)
  have hslot : decode_slot n [0] n = .ok ((n - 1 : Nat) : Int) := by
    simp [decode_slot, at_index, hpred, hdiv, hmod]
  simp only [decode_slots, hslot]
  rfl

theorem one_block_slot (attn : Attention K) (lib : Library K) (ctx : Context K) {n p : Nat}
    (hp : p < n) : (one_block_decode attn lib ctx n).slot 0 p = p := by
  simp [Call.slot, one_block_decode, Nat.div_eq_of_lt hp, Nat.mod_eq_of_lt hp]

theorem one_block_decode_row (attn : Attention K) (lib : Library K) (ctx : Context K) {n : Nat}
    (hn : 0 < n) : DecodeRow attn lib ctx n (one_block_decode attn lib ctx n) 0 := by
  have hlast : (n - 1) / n = 0 := Nat.div_eq_of_lt (by omega)
  refine
    { one_token := rfl
      in_batch := Nat.zero_lt_one
      blocks := hn
      rectangular := by simp [one_block_decode]
      context := rfl
      covered := ⟨[0], rfl, by show (n - 1) / n < 1; rw [hlast]; exact Nat.zero_lt_one⟩
      no_mapping := rfl
      slots := ⟨_, one_block_slots hn, rfl, ?_, ?_, ?_⟩
      queries_new := fun _ => rfl
      keys_new := fun _ => rfl
      values_new := fun _ => rfl
      held := ?_ }
  · rw [one_block_slot attn lib ctx (p := n - 1) (by omega)]
    rfl
  · intro t t' s ht ht'
    have h := (List.getElem?_eq_some_iff.mp ht).1
    have h' := (List.getElem?_eq_some_iff.mp ht').1
    simp only [List.length_singleton] at h h'
    omega
  · intro p hp
    rw [one_block_slot attn lib ctx (p := p) (by omega)]
    show (p : Int) ∉ [((n - 1 : Nat) : Int)]
    rw [List.mem_singleton]
    omega
  · intro p hp head _ i hi
    rw [one_block_slot attn lib ctx (by omega)]
    have hcell : slot_cell (attn.shape n) attn.head_dim p head i =
        attn.head_dim * (n * head + p) + i := by
      show p / n * _ + head * (n * attn.head_dim) + p % n * attn.head_dim + i = _
      rw [Nat.div_eq_of_lt (by omega), Nat.mod_eq_of_lt (by omega)]
      ring
    have hdiv : slot_cell (attn.shape n) attn.head_dim p head i / attn.head_dim = n * head + p := by
      rw [hcell, Nat.mul_add_div (by omega), Nat.div_eq_of_lt hi, Nat.add_zero]
    have hmod : slot_cell (attn.shape n) attn.head_dim p head i % attn.head_dim = i := by
      rw [hcell, Nat.mul_add_mod, Nat.mod_eq_of_lt hi]
    have hp' : (n * head + p) % n = p := by rw [Nat.mul_add_mod, Nat.mod_eq_of_lt (by omega)]
    have hh' : (n * head + p) / n = head := by
      rw [Nat.mul_add_div hn, Nat.div_eq_of_lt (by omega), Nat.add_zero]
    simp [one_block_decode, hdiv, hmod, hp', hh', Context.rotated_key]

theorem one_row_prefill_row (ctx : Context K) {n : Nat} (hn : 2 ≤ n) :
    PrefillRow ctx n (one_row_prefill ctx n) 0 where
  several := by show n ≠ 1; omega
  fits := Nat.le_refl n
  mask := ⟨.float32, [n], rfl, rfl⟩
  queries_new := fun _ _ _ => rfl
  keys_new := fun _ _ _ => rfl
  values_new := fun _ _ _ => rfl

theorem one_block_decode_returns (block : Block K) (lib : Library K) (e : Exp K) (ctx : Context K)
    {n : Nat} (hn : 0 < n) : ∃ caches out,
      block.forward lib e (one_block_decode block.self_attn lib ctx n) = .ok (caches, out) := by
  let x := one_block_decode block.self_attn lib ctx n
  have hstore : reshape_and_cache (block.self_attn.shape n) x.store_order
      (block.self_attn.tokens lib x) x.caches [[0]] [n] none =
        .ok (reshape_and_cache_kernel (block.self_attn.shape n) x.store_order
          (block.self_attn.tokens lib x) [((n - 1 : Nat) : Int)] x.caches) := by
    simp only [reshape_and_cache]
    rw [show decode_slots (block.self_attn.shape n).block_size [[0]] [n] = _ from one_block_slots hn]
    rfl
  exact ⟨_, _, except_list.bind_eq_ok.mpr ⟨_, hstore, rfl⟩⟩

theorem one_row_prefill_returns (block : Block K) (lib : Library K) (e : Exp K) (ctx : Context K)
    {n : Nat} (hn : 2 ≤ n) : ∃ caches out,
      block.forward lib e (one_row_prefill ctx n) = .ok (caches, out) := by
  let x := one_row_prefill ctx n
  have hlen : ((List.range n).map (fun t : Nat => (t : Int))).length =
      (block.self_attn.tokens lib x).num_tokens := by
    rw [List.length_map, List.length_range]
    exact (Nat.one_mul n).symm
  have hstore : reshape_and_cache (block.self_attn.shape n) x.store_order
      (block.self_attn.tokens lib x) x.caches [[0]] [n]
      (some ((List.range n).map (fun t : Nat => (t : Int)))) =
        .ok (reshape_and_cache_kernel (block.self_attn.shape n) x.store_order
          (block.self_attn.tokens lib x) ((List.range n).map (fun t : Nat => (t : Int))) x.caches) := by
    simp only [reshape_and_cache]
    rw [if_neg (not_not.mpr hlen)]
  have hseveral : ¬ x.target_len = 1 := by show ¬ n = 1; omega
  exact ⟨_, _, except_list.bind_eq_ok.mpr ⟨_, hstore, (if_neg hseveral).trans rfl⟩⟩

/-- Where the paths agree on all contexts, they take in the same sink: values of one show it. -/
theorem sink_of_paths_agree {block : Block K} {lib : Library K} {e : Exp K} {head n : Nat}
    (hrope : RotatesByPosition lib) (hwindow : WindowsLikeKernel lib) (hattend : AttendsWithMask lib e)
    (hd : block.self_attn.head_dim ≤ 256) (hpos : 0 < block.self_attn.head_dim)
    (hgroup : block.self_attn.num_key_value_heads ∣ block.self_attn.num_attention_heads)
    (hh : head < block.self_attn.num_attention_heads) (hn : 2 ≤ n)
    (h : PathsAgree block lib e head n) :
    e.ofBot (block.decode_sink head) = e.ofBot (block.self_attn.sinks head) := by
  have hx := one_block_decode_row block.self_attn lib Context.ones (n := n) (by omega)
  have hx' := one_row_prefill_row (Context.ones (K := K)) hn
  obtain ⟨caches, out, hout⟩ := one_block_decode_returns block lib e Context.ones (n := n) (by omega)
  obtain ⟨caches', out', hout'⟩ := one_row_prefill_returns block lib e Context.ones hn
  have heq := h _ _ _ 0 0 hx hx' _ _ _ _ hout hout' 0 hpos
  rw [hx.output hrope (by omega) hd hgroup hout hh hpos,
    hx'.output hrope hwindow hattend (by omega) hout' 0 hh] at heq
  exact attend_ones_inj (block.positions_ne_nil (by omega)) heq

/-- The decode path gives every context of `n` tokens what the prefill path gives it just when the
layer has a window and the sink of the head is no masked one, or the head has no sink. -/
theorem paths_agree_iff (block : Block K) (lib : Library K) (e : Exp K)
    (hrope : RotatesByPosition lib) (hwindow : WindowsLikeKernel lib) (hattend : AttendsWithMask lib e)
    (hd : block.self_attn.head_dim ≤ 256) (hpos : 0 < block.self_attn.head_dim)
    (hgroup : block.self_attn.num_key_value_heads ∣ block.self_attn.num_attention_heads)
    (head n : Nat) (hh : head < block.self_attn.num_attention_heads) (hn : 2 ≤ n) :
    PathsAgree block lib e head n ↔
      block.self_attn.sinks head = ⊥ ∨ (block.layer_type = .sliding_attention ∧
        block.self_attn.sinks head > (gpt_oss.least_sink : K)) := by
  rw [← decode_sink_eq_iff (e := e)]
  constructor
  · exact sink_of_paths_agree hrope hwindow hattend hd hpos hgroup hh hn
  · exact paths_agree_of_sink hrope hwindow hattend hd hgroup hh (by omega)

end masks

/-! ## A sliding layer and a full layer -/

/-- A layer with one head, its sink at 0. -/
def small_block (layer_type : LayerType) : Block ℝ where
  self_attn := ⟨1, 1, 2, 1, fun _ => ((0 : ℝ) : WithBot ℝ)⟩
  sliding_window := 128
  layer_type := layer_type

theorem small_sink : ((0 : ℝ) : WithBot ℝ) > ((gpt_oss.least_sink : ℝ) : WithBot ℝ) := by
  rw [gt_iff_lt, WithBot.coe_lt_coe]
  norm_num [gpt_oss.least_sink]

theorem sliding_layer_agrees : PathsAgree (small_block .sliding_attention) real_library real_exp 0 2 :=
  (paths_agree_iff (small_block .sliding_attention) real_library real_exp real_library_rotates
    real_library_windows real_library_attends (by decide) (by decide) (by decide) 0 2 (by decide)
    (by decide)).mpr (Or.inr ⟨rfl, small_sink⟩)

/-- A layer without a window leaves the sink out of the normaliser in decode. -/
theorem full_layer_disagrees :
    ¬ PathsAgree (small_block .full_attention) real_library real_exp 0 2 := by
  intro h
  have hsink := sink_of_paths_agree real_library_rotates real_library_windows
    real_library_attends (by decide) (by decide) (by decide) (by decide) (by decide) h
  rcases decode_sink_eq_iff.mp hsink with hbot | ⟨hlayer, _⟩
  · cases hbot
  · cases hlayer

end parallax.models.gpt_oss
