-- DeepSeek-V3.2: which positions the indexer selects for a token, in prefill
-- and in decode, against the positions with the largest scores.
import InferenceMesh.Lib.ExceptList
import InferenceMesh.Models.DeepSeekV32

open python online_softmax scatter_memory parallax.metal.paged_attention parallax.metal.indexer
open parallax.utils mlx

namespace parallax.models.deepseek_v32

set_option linter.unusedSectionVars false

variable {K : Type} [Field K] [LinearOrder K]

/-! ## The right selection -/

/-- `k` of the first `n` positions, with the largest scores. Positions of the same score may stand
for each other. -/
structure Largest (score : Nat → K) (n k : Nat) (chosen : List Nat) : Prop where
  nodup : chosen.Nodup
  length : chosen.length = k
  below : ∀ j ∈ chosen, j < n
  largest : ∀ c ∈ chosen, ∀ u, u < n → u ∉ chosen → score u ≤ score c

/-- The positions that the token at position `p` is to attend to. -/
def Selects (index_topk p : Nat) (score : Nat → K) (attended : List Nat) : Prop :=
  if p < index_topk then ∀ j, j ∈ attended ↔ j ≤ p else Largest score (p + 1) index_topk attended

/-- The slot of a position of a row, by the block tables. -/
def Call.slot (x : Call K) (b p : Nat) : Nat :=
  (x.block_tables[b]?.getD [])[p / x.block_size]?.getD 0 * x.block_size + p % x.block_size

/-- Row `b` of a decode call is the token at position `p`. The indexer's cache holds the keys of
the earlier positions, one after the other in each slot. -/
structure DecodeRow (ix : Indexer K) (keys : Nat → Nat → K) (p : Nat) (x : Call K) (b : Nat) :
    Prop where
  one_token : x.target_len = 1
  in_batch : b < x.batch
  blocks : 0 < x.block_size
  context : x.context_lengths[b]? = some (p + 1)
  no_mapping : x.slot_mapping = none
  slots : ∃ slots, decode_slots x.block_size x.block_tables x.context_lengths = .ok slots ∧
    slots.length = x.batch
  new_key : x.indexer_k b 0 = keys p
  held : ∀ j, j < p → ∀ d, d < ix.head_dim →
    x.indexer_cache (x.slot b j * ix.head_dim + d) = keys j d

/-- Token `p` of row `b` of a prefill call, with the mask of the executor. -/
structure PrefillRow (keys : Nat → Nat → K) (p : Nat) (x : Call K) (b : Nat) : Prop where
  several : x.target_len ≠ 1
  in_row : p < x.target_len
  in_batch : b < x.batch
  mask : ∃ dtype lengths len, lengths[b]? = some len ∧ p < len ∧
    x.mask = some ⟨[x.batch, 1, x.target_len, x.target_len], fun idx =>
      prefill_mask dtype lengths (idx.getD 0 0) (idx.getD 2 0) (idx.getD 3 0)⟩
  new_keys : ∀ j, j ≤ p → x.indexer_k b j = keys j

/-- Every call of rows of `target_len` tokens selects the right positions for position `p`. -/
def SelectsRight (attn : Attention K) (lib : Library K) (arrays : ArrayLibrary K) (e : Exp K)
    (target_len p : Nat) : Prop :=
  ∀ (keys : Nat → Nat → K) (x : Call K) (b t : Nat), x.target_len = target_len →
    (t = 0 ∧ DecodeRow attn.indexer keys p x b) ∨ (t = p ∧ PrefillRow keys p x b) →
    ∃ r, attn.forward lib arrays e x = .ok r ∧
      Selects attn.indexer.index_topk p
        (fun j => attn.indexer.weigh (x.weights b t) (fun h =>
          ∑ d ∈ Finset.range attn.indexer.head_dim, x.indexer_q b h t d * keys j d))
        (r.attended x b t)

/-! ## Prefill -/

theorem last_entries_ndim {α : Type} (a : NDArray α) (k : Nat) (h : a.ndim ≠ 0) :
    (a.last_entries k).ndim = a.ndim := by
  simp only [NDArray.ndim, NDArray.last_entries, List.length_append, List.length_dropLast,
    List.length_singleton] at h ⊢
  omega

/-- The indices of a prefill batch have two axes when the batch is short, and four otherwise: the
mask has an axis for the heads, which the scores do not have. -/
theorem prefill_indices_ndim (ix : Indexer K) {arrays : ArrayLibrary K} {x : Call K}
    {mask : NDArray K} (hwhere : BroadcastsAxes arrays) (hpart : PartitionsByScore arrays)
    (hmask : x.mask = some mask) (hndim : mask.ndim = 4) :
    (ix.prefill_indices arrays x).ndim = if x.target_len < ix.index_topk then 2 else 4 := by
  unfold Indexer.prefill_indices
  split
  · rfl
  · simp only [hmask]
    have hscores : ∀ scores : NDArray (WithBot K), scores.ndim = 3 →
        (arrays.argpartition (arrays.where_ mask scores ⊥) (-ix.index_topk)).ndim = 4 := by
      intro scores h
      rw [NDArray.ndim, (hpart _ _).1, ← NDArray.ndim, hwhere, hndim, h]
      rfl
    refine (last_entries_ndim _ _ ?_).trans (hscores _ rfl)
    rw [hscores _ rfl]
    decide

/-- A prefill call does not return: the indices do not have the axes of the mask that they are put
into. -/
theorem prefill_raises {attn : Attention K} {lib : Library K} {arrays : ArrayLibrary K} {e : Exp K}
    {keys : Nat → Nat → K} {p b : Nat} {x : Call K} (hwhere : BroadcastsAxes arrays)
    (hpart : PartitionsByScore arrays) (hput : ChecksAxes arrays) (h : PrefillRow keys p x b)
    (r : Result K) : attn.forward lib arrays e x ≠ .ok r := by
  intro hok
  obtain ⟨dtype, lengths, len, _, _, hmask⟩ := h.mask
  obtain ⟨caches, _, hok⟩ := except_list.bind_eq_ok.mp hok
  obtain ⟨indexer_cache, _, hok⟩ := except_list.bind_eq_ok.mp hok
  rw [if_neg h.several] at hok
  obtain ⟨selected, hselected, _⟩ := except_list.bind_eq_ok.mp hok
  have hndim := prefill_indices_ndim attn.indexer hwhere hpart hmask rfl
  obtain ⟨message, hraise⟩ := hput ⟨[x.batch, x.target_len, x.target_len], fun _ => false⟩
    (attn.indexer.prefill_indices arrays x) true (by
      rw [hndim, show NDArray.ndim ⟨[x.batch, x.target_len, x.target_len], fun _ => false⟩ = 3 from rfl]
      split <;> decide)
  rw [hraise] at hselected
  cases hselected

/-! ## Decode -/

/-- The arranged indices of a list of scores. -/
theorem arranged_spec {arrays : ArrayLibrary K} (hpart : PartitionsByScore arrays)
    (score : Nat → K) (n k : Nat) :
    ∃ order : List Nat, order.Perm (List.range n) ∧
      (((arrays.argpartition ⟨[n], fun idx => (score (idx.headD 0) : WithBot K)⟩
        (-(k : Int))).last_entries k).map Int.ofNat).entries =
          (order.drop (if k = 0 then 0 else n - k)).map Int.ofNat ∧
      (0 < k → k ≤ n → ∀ u ∈ order.take (n - k), ∀ c ∈ order.drop (n - k), score u ≤ score c) := by
  obtain ⟨hshape, hone⟩ := hpart ⟨[n], fun idx => (score (idx.headD 0) : WithBot K)⟩ (-(k : Int))
  obtain ⟨hperm, hle⟩ := hone n rfl
  refine ⟨_, hperm, ?_, ?_⟩
  · rw [← last_entries_entries hshape k]
    simp [NDArray.entries, NDArray.map]
  · intro hk hkn u hu c hc
    have h := hle k hk hkn rfl u hu c hc
    exact WithBot.coe_le_coe.mp h

/-- The indices of a decode row, as many as the kernel is told. -/
theorem decode_row_length {ix : Indexer K} {arrays : ArrayLibrary K}
    (hpart : PartitionsByScore arrays) (hk : 0 < ix.index_topk) (x : Call K) (b : Nat) :
    (ix.decode_row arrays x b).length = ix.index_topk := by
  unfold Indexer.decode_row
  simp only
  split
  · exact List.length_replicate
  · rename_i hlong
    obtain ⟨order, hperm, hentries, -⟩ := arranged_spec hpart (ix.decode_score x b)
      (x.context_lengths[b]?.getD 0) ix.index_topk
    have hlen := hperm.length_eq
    rw [List.length_range] at hlen
    rw [hentries, List.length_map, List.length_drop, if_neg (by omega)]
    omega

/-- A decode call returns when the rows of indices have one length. -/
theorem DecodeRow.returns {attn : Attention K} (lib : Library K) {arrays : ArrayLibrary K}
    (e : Exp K) {keys : Nat → Nat → K} {p b : Nat} {x : Call K}
    (h : DecodeRow attn.indexer keys p x b) {rows : List (List Int)}
    (hrows : attn.indexer.decode_indices arrays x = .ok rows) :
    ∃ r, attn.forward lib arrays e x = .ok r ∧ r.selection = .rows rows := by
  obtain ⟨slots, hslots, hlen⟩ := h.slots
  have hnum : slots.length = (attn.tokens x).num_tokens := by
    rw [hlen]
    show x.batch = x.batch * x.target_len
    rw [h.one_token, Nat.mul_one]
  have hstore : reshape_and_cache (attn.shape x.block_size) x.order (attn.tokens x) x.caches
      x.block_tables x.context_lengths x.slot_mapping =
        .ok (reshape_and_cache_kernel (attn.shape x.block_size) x.order (attn.tokens x) slots
          x.caches) := by
    rw [h.no_mapping]
    simp only [reshape_and_cache]
    rw [show decode_slots (attn.shape x.block_size).block_size _ _ = _ from hslots]
    simp only
    rw [if_neg (not_not.mpr hnum)]
  have hindexer : store_indexer_cache (attn.indexer.new_keys x) x.block_size x.order
      x.indexer_cache x.block_tables x.context_lengths x.slot_mapping =
        .ok (store_key_kernel (attn.indexer.new_keys x) x.block_size x.order slots
          x.indexer_cache) := by
    rw [h.no_mapping]
    simp only [store_indexer_cache, hslots]
  exact ⟨_, except_list.bind_eq_ok.mpr ⟨_, hstore, except_list.bind_eq_ok.mpr ⟨_, hindexer,
    (if_pos h.one_token).trans (except_list.bind_eq_ok.mpr ⟨_, hrows, rfl⟩)⟩⟩, rfl⟩

/-- A short context is attended to as a whole. -/
theorem decode_selects_all {attn : Attention K} (lib : Library K) {arrays : ArrayLibrary K}
    (e : Exp K) {keys : Nat → Nat → K} {p b : Nat} {x : Call K} (hpart : PartitionsByScore arrays)
    (h : DecodeRow attn.indexer keys p x b) (hp : p < attn.indexer.index_topk) :
    ∃ r, attn.forward lib arrays e x = .ok r ∧ ∀ j, j ∈ r.attended x b 0 ↔ j ≤ p := by
  let rows := (List.range x.batch).map (attn.indexer.decode_row arrays x)
  have hlen : ∀ row ∈ rows, row.length = attn.indexer.index_topk := by
    intro row hrow
    obtain ⟨b', _, rfl⟩ := List.mem_map.mp hrow
    exact decode_row_length hpart (by omega) x b'
  have hbatch := h.in_batch
  have hhead : (rows.headD []).length = attn.indexer.index_topk := by
    obtain ⟨row, rest, hcons⟩ := List.exists_cons_of_ne_nil (l := rows) (by
      simp only [rows, ne_eq, List.map_eq_nil_iff, List.range_eq_nil]
      omega)
    rw [hcons]
    exact hlen row (by rw [hcons]; exact List.mem_cons_self)
  have hrows : attn.indexer.decode_indices arrays x = .ok rows := by
    unfold Indexer.decode_indices
    rw [if_pos]
    rw [List.all_eq_true]
    intro row hrow
    exact decide_eq_true ((hlen row hrow).trans hhead.symm)
  obtain ⟨r, hr, hsel⟩ := h.returns lib e hrows
  refine ⟨r, hr, ?_⟩
  have hrow : rows[b]? = some (List.replicate attn.indexer.index_topk (-1)) := by
    have hdecode : attn.indexer.decode_row arrays x b =
        List.replicate attn.indexer.index_topk (-1) := by
      simp only [Indexer.decode_row, h.context, Option.getD_some]
      rw [if_pos (by omega)]
    simp [rows, hbatch, hdecode]
  have hfirst : rows.flatten[b * attn.indexer.index_topk + 0]? = some (-1) :=
    getElem?_flatten hlen hrow (by simp [List.getElem?_replicate]; omega)
  intro j
  simp only [Result.attended, hsel, hhead, deepseek_v32.attended, hfirst, Option.getD_some, if_true,
    h.context, List.mem_range]
  omega

/-- The positions of a long context: the last ones of an arrangement by the scores of the row. -/
theorem decode_selects_last {attn : Attention K} {lib : Library K} {arrays : ArrayLibrary K}
    {e : Exp K} {keys : Nat → Nat → K} {p : Nat} {x : Call K} (hpart : PartitionsByScore arrays)
    (h : DecodeRow attn.indexer keys p x 0) (halone : x.batch = 1)
    (hp : attn.indexer.index_topk ≤ p) {r : Result K} (hr : attn.forward lib arrays e x = .ok r) :
    ∃ order : List Nat, order.Perm (List.range (p + 1)) ∧
      r.attended x 0 0 = order.drop
        (if attn.indexer.index_topk = 0 then 0 else p + 1 - attn.indexer.index_topk) ∧
      (0 < attn.indexer.index_topk →
        ∀ u ∈ order.take (p + 1 - attn.indexer.index_topk),
        ∀ c ∈ order.drop (p + 1 - attn.indexer.index_topk),
          attn.indexer.decode_score x 0 u ≤ attn.indexer.decode_score x 0 c) := by
  obtain ⟨order, hperm, hentries, hle⟩ := arranged_spec hpart (attn.indexer.decode_score x 0) (p + 1)
    attn.indexer.index_topk
  refine ⟨order, hperm, ?_, fun hk => hle hk (by omega)⟩
  obtain ⟨chosen, hchosen⟩ : ∃ chosen, chosen = order.drop
    (if attn.indexer.index_topk = 0 then 0 else p + 1 - attn.indexer.index_topk) := ⟨_, rfl⟩
  rw [← hchosen] at hentries ⊢
  have hrow : attn.indexer.decode_row arrays x 0 = chosen.map Int.ofNat := by
    simp only [Indexer.decode_row, h.context, Option.getD_some]
    rw [if_neg (by omega)]
    exact hentries
  have hrows : attn.indexer.decode_indices arrays x = .ok [chosen.map Int.ofNat] := by
    simp [Indexer.decode_indices, halone, List.range_succ, hrow]
  obtain ⟨r', hr', hsel⟩ := h.returns lib e hrows
  obtain rfl : r = r' := Except.ok.inj (hr.symm.trans hr')
  have hpos : 0 < chosen.length := by
    have hlen := hperm.length_eq
    rw [List.length_range] at hlen
    rw [hchosen, List.length_drop]
    split <;> omega
  have hfirst : (chosen.map Int.ofNat)[0]?.getD 0 ≠ -1 := by simp [hpos]
  have hrange : (List.range chosen.length).map
      (fun k => ((chosen.map Int.ofNat)[k]?.getD 0).toNat) = chosen := by
    apply List.ext_getElem
    · simp
    · intro i hi hi'
      simp [hi']
  simp only [Result.attended, hsel, deepseek_v32.attended, List.headD_cons, List.flatten_singleton,
    Nat.zero_mul, Nat.zero_add, List.length_map]
  rw [if_neg hfirst]
  exact hrange

/-- The call of the kernel, on the caches that the call leaves. -/
def Call.launch (x : Call K) (attn : Attention K) : Launch K :=
  ⟨attn.shape x.block_size, x.batch, attn.num_heads, (x.block_tables.headD []).length, attn.scale⟩

def Call.inputs (x : Call K) (attn : Attention K) (caches : Caches K) : Inputs K :=
  ⟨flat_rows attn.num_heads attn.q_head_dim 1 x.queries, caches, row_major x.block_tables,
    fun b => x.context_lengths[b]?.getD 0⟩

/-- The output of a decode row is the average over the positions it attends to. -/
theorem DecodeRow.output {attn : Attention K} {lib : Library K} {arrays : ArrayLibrary K}
    {e : Exp K} {keys : Nat → Nat → K} {p b : Nat} {x : Call K}
    (h : DecodeRow attn.indexer keys p x b) (hk : attn.q_head_dim ≤ 256)
    (hv : attn.v_head_dim ≤ 256) {r : Result K} (hr : attn.forward lib arrays e x = .ok r)
    (hne : r.attended x b 0 ≠ []) {head i : Nat} (hh : head < attn.num_heads)
    (hi : i < attn.v_head_dim) :
    r.output b head 0 i = attend e ⊥ (r.attended x b 0)
      (score_at (x.launch attn) (x.inputs attn r.caches) b head)
      (value_at (x.launch attn) (x.inputs attn r.caches) b head i) := by
  obtain ⟨caches, _, hr⟩ := except_list.bind_eq_ok.mp hr
  obtain ⟨indexer_cache, _, hr⟩ := except_list.bind_eq_ok.mp hr
  rw [if_pos h.one_token] at hr
  obtain ⟨rows, _, hr⟩ := except_list.bind_eq_ok.mp hr
  obtain rfl := Except.ok.inj hr
  have hc : 0 < (x.inputs attn caches).context_lengths b := by
    simp [Call.inputs, h.context]
  exact deepseek_v32.paged_attention_deepseek_v32_kernel.spec (x.launch attn) x.order
    (x.inputs attn caches) x.unwritten h.blocks hk hv h.in_batch hh hi hc hne

/-! ## A context whose memory is reversed -/

/-- Keys that grow with the position. -/
def rising_keys (j _ : Nat) : K := (j : K)

/-- The token at position `p`, alone in a decode batch. The cache of the indexer holds rising keys
in block 1, and the memory after the key of the row falls with the position. -/
def falling_memory (ix : Indexer K) (p : Nat) : Call K where
  batch := 1
  target_len := 1
  queries := fun _ _ _ _ => 0
  keys := fun _ _ _ _ => 0
  values := fun _ _ _ _ => 0
  indexer_q := fun _ h _ d => if h = 0 ∧ d = 0 then 1 else 0
  indexer_k := fun _ _ => rising_keys p
  weights := fun _ _ _ => 1
  mask := none
  block_size := p + 1
  caches := ⟨fun _ => 0, fun _ => 0⟩
  indexer_cache := fun cell => rising_keys (cell / ix.head_dim % (p + 1)) (cell % ix.head_dim)
  block_tables := [[1]]
  context_lengths := [p + 1]
  slot_mapping := none
  order := .in_grid
  beyond := fun _ cell => ((p - cell / ix.head_dim % (p + 1) : Nat) : K)
  unwritten := fun _ => 0

theorem falling_slots (p : Nat) :
    decode_slots (p + 1) [[1]] [p + 1] = .ok [((p + 1 + p : Nat) : Int)] := by
  have hpred : ((p + 1 : Nat) : Int) - 1 = (p : Int) := by omega
  have hdiv : (p : Int) / ((p + 1 : Nat) : Int) = 0 := Int.ediv_eq_zero_of_lt (by omega) (by omega)
  have hmod : (p : Int) % ((p + 1 : Nat) : Int) = (p : Int) :=
    Int.emod_eq_of_lt (by omega) (by omega)
  have hslot : decode_slot (p + 1) [1] (p + 1) = .ok ((p + 1 + p : Nat) : Int) := by
    simp only [decode_slot, hpred, hdiv, hmod]
    simp [at_index]
  simp only [decode_slots, hslot]
  rfl

theorem falling_slot (ix : Indexer K) {p j : Nat} (hj : j ≤ p) :
    (falling_memory ix p).slot 0 j = p + 1 + j := by
  have hdiv : j / (p + 1) = 0 := Nat.div_eq_of_lt (by omega)
  have hmod : j % (p + 1) = j := Nat.mod_eq_of_lt (by omega)
  simp [Call.slot, falling_memory, hdiv, hmod]

theorem falling_memory_row (ix : Indexer K) (p : Nat) :
    DecodeRow ix rising_keys p (falling_memory ix p) 0 where
  one_token := rfl
  in_batch := Nat.zero_lt_one
  blocks := Nat.succ_pos p
  context := rfl
  no_mapping := rfl
  slots := ⟨_, falling_slots p, rfl⟩
  new_key := rfl
  held := by
    intro j hj d hd
    have hcell : ((p + 1 + j) * ix.head_dim + d) / ix.head_dim % (p + 1) = j := by
      rw [Nat.mul_comm, Nat.mul_add_div (by omega), Nat.div_eq_of_lt hd, Nat.add_zero,
        Nat.add_mod_left, Nat.mod_eq_of_lt (by omega)]
    rw [falling_slot ix (by omega)]
    simp only [falling_memory, hcell, rising_keys]

/-- With a query of one entry, only the first head counts. -/
theorem weigh_first {ix : Indexer K} {weights products : Nat → K}
    (hrest : ∀ h, h < ix.n_heads → h ≠ 0 → products h = 0) :
    ix.weigh weights products =
      max (products 0) 0 * (weights 0 * ix.head_scale * ix.softmax_scale) := by
  have hheads := ix.several_heads
  rw [Indexer.weigh, Finset.sum_eq_single 0]
  · intro h hh hne
    rw [hrest h (Finset.mem_range.mp hh) hne, max_self, zero_mul]
  · intro hnot
    exact absurd (Finset.mem_range.mpr (by omega)) hnot

section scores

variable [IsStrictOrderedRing K]

/-- The weight of the first head. -/
def first_weight (ix : Indexer K) : K := 1 * ix.head_scale * ix.softmax_scale

theorem first_weight_pos (ix : Indexer K) : 0 < first_weight ix := by
  have h := mul_pos ix.head_scale_pos ix.softmax_scale_pos
  rwa [first_weight, one_mul]

/-- The product of the query with a key is the first entry of the key. -/
theorem one_entry_product (D : Nat) (hD : 0 < D) (h : Nat) (key : Nat → K) :
    ∑ d ∈ Finset.range D, (if h = 0 ∧ d = 0 then (1 : K) else 0) * key d =
      if h = 0 then key 0 else 0 := by
  rw [Finset.sum_eq_single 0]
  · by_cases hh : h = 0 <;> simp [hh]
  · intro d _ hd
    simp [hd]
  · intro hnot
    exact absurd (Finset.mem_range.mpr hD) hnot

/-- The scores by the stored keys rise with the position. -/
theorem rising_score (ix : Indexer K) (p j : Nat) :
    ix.weigh ((falling_memory ix p).weights 0 0) (fun h => ∑ d ∈ Finset.range ix.head_dim,
      (falling_memory ix p).indexer_q 0 h 0 d * rising_keys j d) = (j : K) * first_weight ix := by
  have hdims := ix.several_dims
  have hproduct := fun h => one_entry_product ix.head_dim (by omega) h (rising_keys (K := K) j)
  simp only [falling_memory, hproduct]
  rw [weigh_first (fun h _ hh => if_neg hh), if_pos rfl, rising_keys, max_eq_left (Nat.cast_nonneg j),
    first_weight]

/-- The scores that the call computes fall with the position: all addresses that the block table
leads to are beyond the key of the row. -/
theorem falling_score (ix : Indexer K) {p j : Nat} (hj : j ≤ p) :
    ix.decode_score (falling_memory ix p) 0 j = ((p - j : Nat) : K) * first_weight ix := by
  have hdims := ix.several_dims
  have hheads := ix.several_heads
  have hdiv : j / (p + 1) = 0 := Nat.div_eq_of_lt (by omega)
  have hmod : j % (p + 1) = j := Nat.mod_eq_of_lt (by omega)
  let a : Product K :=
    { num_heads := ix.n_heads
      head_dim := ix.head_dim
      block_size := p + 1
      q := fun n => if n / ix.head_dim = 0 ∧ n % ix.head_dim = 0 then 1 else 0
      key_cache := fun cell => if cell < ix.head_dim then rising_keys p cell
        else ((p - cell / ix.head_dim % (p + 1) : Nat) : K)
      block_table := [1]
      context_len := p + 1 }
  have hproduct : ∀ h, h < ix.n_heads → q_dot_k a .in_grid (fun _ => 0)
      (h * (p + 1) + j) = if h = 0 then ((p - j : Nat) : K) else 0 := by
    intro h hh
    rw [q_dot_k.spec a _ _ (Nat.succ_pos p) hh (by show j < p + 1; omega)]
    show a.score h (j / (p + 1)) (j % (p + 1)) = _
    rw [hdiv, hmod, Product.score]
    have hq : ∀ d ∈ Finset.range ix.head_dim, a.q (h * ix.head_dim + d) *
        a.key_cache (a.k_base h 0 j + d) =
          (if h = 0 ∧ d = 0 then (1 : K) else 0) * a.key_cache (a.k_base h 0 j + d) := by
      intro d hd
      have hd := Finset.mem_range.mp hd
      have hhead : (h * ix.head_dim + d) / ix.head_dim = h := by
        rw [Nat.mul_comm, Nat.mul_add_div (by omega), Nat.div_eq_of_lt hd, Nat.add_zero]
      have hdim : (h * ix.head_dim + d) % ix.head_dim = d := by
        rw [Nat.mul_comm, Nat.mul_add_mod, Nat.mod_eq_of_lt hd]
      simp only [a, hhead, hdim]
    rw [show a.head_dim = ix.head_dim from rfl, Finset.sum_congr rfl hq,
      one_entry_product ix.head_dim (by omega) h (fun d => a.key_cache (a.k_base h 0 j + d))]
    by_cases hzero : h = 0
    · have hbase : a.k_base 0 0 j + 0 = ix.head_dim * (ix.n_heads * (p + 1) + j) := by
        show 1 * (ix.n_heads * (p + 1) * ix.head_dim) + 0 * ((p + 1) * ix.head_dim) +
          j * ix.head_dim + 0 = _
        ring
      have hbeyond : ¬ ix.head_dim * (ix.n_heads * (p + 1) + j) < ix.head_dim := by
        rw [not_lt]
        apply Nat.le_mul_of_pos_right
        have := Nat.mul_pos (by omega : 0 < ix.n_heads) (by omega : 0 < p + 1)
        omega
      have hoffset : (ix.n_heads * (p + 1) + j) % (p + 1) = j := by
        rw [Nat.mul_comm, Nat.mul_add_mod, Nat.mod_eq_of_lt (by omega)]
      rw [if_pos hzero, if_pos hzero, hzero, hbase]
      simp only [a, if_neg hbeyond, Nat.mul_div_cancel_left _ (by omega : 0 < ix.head_dim), hoffset]
    · rw [if_neg hzero, if_neg hzero]
  have hscore : ix.decode_score (falling_memory ix p) 0 j = ix.weigh (fun _ => 1)
      (fun h => q_dot_k a .in_grid (fun _ => 0) (h * (p + 1) + j)) := rfl
  rw [hscore, weigh_first (fun h hh hne => by rw [hproduct h hh, if_neg hne]),
    hproduct 0 (by omega), if_pos rfl, max_eq_left (Nat.cast_nonneg _), first_weight]

/-- A long context is attended to by the scores of the wrong memory: the positions with the
smallest scores, or all of them. -/
theorem falling_memory_selects_wrong {attn : Attention K} {lib : Library K}
    {arrays : ArrayLibrary K} {e : Exp K} {p : Nat} (hpart : PartitionsByScore arrays)
    (hp : attn.indexer.index_topk ≤ p) (h : SelectsRight attn lib arrays e 1 p) : False := by
  have hrow := falling_memory_row attn.indexer p
  obtain ⟨r, hr, hsel⟩ := h rising_keys (falling_memory attn.indexer p) 0 0 rfl (Or.inl ⟨rfl, hrow⟩)
  rw [Selects, if_neg (by omega)] at hsel
  obtain ⟨order, hperm, hattended, hle⟩ := decode_selects_last hpart hrow rfl hp hr
  have hlen := hperm.length_eq
  rw [List.length_range] at hlen
  rcases Nat.eq_zero_or_pos attn.indexer.index_topk with hzero | hpos
  · have hcount := hsel.length
    rw [hattended, if_pos hzero, List.drop_zero, hlen] at hcount
    omega
  · rw [hattended, if_neg (by omega)] at hsel
    have hle := hle hpos
    obtain ⟨u, hu⟩ := List.exists_mem_of_length_pos
      (l := order.take (p + 1 - attn.indexer.index_topk)) (by rw [List.length_take]; omega)
    obtain ⟨c, hc⟩ := List.exists_mem_of_length_pos
      (l := order.drop (p + 1 - attn.indexer.index_topk)) (by rw [List.length_drop]; omega)
    have hnodup := (List.take_append_drop (p + 1 - attn.indexer.index_topk) order).symm ▸
      hperm.symm.nodup List.nodup_range
    have hne : u ∉ order.drop (p + 1 - attn.indexer.index_topk) :=
      fun hmem => List.disjoint_of_nodup_append hnodup hu hmem
    have hup : u ≤ p := by
      have := List.mem_range.mp (hperm.mem_iff.mp (List.mem_of_mem_take hu))
      omega
    have hcp : c ≤ p := by
      have := List.mem_range.mp (hperm.mem_iff.mp (List.mem_of_mem_drop hc))
      omega
    have hwrong := hle u hu c hc
    rw [falling_score attn.indexer hup, falling_score attn.indexer hcp] at hwrong
    have hright := hsel.largest c hc u (by omega) hne
    simp only [rising_score] at hright
    have hwrong := Nat.cast_le.mp (le_of_mul_le_mul_right hwrong (first_weight_pos attn.indexer))
    have hright := Nat.cast_le.mp (le_of_mul_le_mul_right hright (first_weight_pos attn.indexer))
    obtain rfl : u = c := by omega
    exact hne hc

/-- A prompt, alone in a prefill batch. -/
def one_prompt (ix : Indexer K) (target_len : Nat) : Call K :=
  { falling_memory ix 0 with
    target_len
    indexer_k := fun _ _ _ => 0
    mask := some ⟨[1, 1, target_len, target_len], fun idx =>
      prefill_mask .float32 [target_len] (idx.getD 0 0) (idx.getD 2 0) (idx.getD 3 0)⟩
    slot_mapping := some ((List.range target_len).map (fun t : Nat => (t : Int))) }

theorem one_prompt_row (ix : Indexer K) (target_len p : Nat) (hseveral : target_len ≠ 1)
    (hp : p < target_len) : PrefillRow (fun _ _ => 0) p (one_prompt ix target_len) 0 where
  several := hseveral
  in_row := hp
  in_batch := Nat.zero_lt_one
  mask := ⟨.float32, [target_len], target_len, rfl, hp, rfl⟩
  new_keys := fun _ _ => rfl

/-- The right positions are selected just when the token is processed alone and its position is
below the number of positions to select. A prefill call never returns, and from that position on a
decode call takes its scores from other memory than the keys of the context. -/
theorem selects_right_iff (attn : Attention K) (lib : Library K) (arrays : ArrayLibrary K)
    (e : Exp K) (hwhere : BroadcastsAxes arrays) (hpart : PartitionsByScore arrays)
    (hput : ChecksAxes arrays) (target_len p : Nat) (hp : target_len ≠ 1 → p < target_len) :
    SelectsRight attn lib arrays e target_len p ↔
      target_len = 1 ∧ p < attn.indexer.index_topk := by
  constructor
  · intro h
    by_cases hone : target_len = 1
    · subst hone
      exact ⟨rfl, not_le.mp (fun hle => falling_memory_selects_wrong hpart hle h)⟩
    · have hrow := one_prompt_row attn.indexer target_len p hone (hp hone)
      obtain ⟨r, hr, -⟩ := h _ _ 0 p rfl (Or.inr ⟨rfl, hrow⟩)
      exact absurd hr (prefill_raises hwhere hpart hput hrow r)
  · rintro ⟨rfl, hshort⟩ keys x b t hlen (⟨rfl, hrow⟩ | ⟨-, hrow⟩)
    · obtain ⟨r, hr, hall⟩ := decode_selects_all lib e hpart hrow hshort
      refine ⟨r, hr, ?_⟩
      rw [Selects, if_pos hshort]
      exact hall
    · exact absurd hlen hrow.several

end scores

/-! ## Two positions to select -/

/-- An indexer with two heads that selects two positions. -/
noncomputable def small_attention : Attention ℝ where
  num_heads := 2
  q_head_dim := 2
  v_head_dim := 2
  scale := 1
  indexer :=
    { n_heads := 2
      head_dim := 2
      index_topk := 2
      head_scale := 1 / Real.sqrt 2
      softmax_scale := 1
      several_heads := Nat.le_refl 2
      several_dims := Nat.le_refl 2
      head_scale_pos := by positivity
      softmax_scale_pos := one_pos }

theorem second_token_selects_right :
    SelectsRight small_attention real_library real_arrays real_exp 1 1 :=
  (selects_right_iff small_attention real_library real_arrays real_exp real_arrays_broadcast
    real_arrays_partition real_arrays_axes 1 1 (by decide)).mpr ⟨rfl, by decide⟩

/-- A prompt of two tokens does not return, and a decode step at position 2 selects by the wrong
memory. -/
theorem long_contexts_select_wrong :
    ¬ SelectsRight small_attention real_library real_arrays real_exp 2 0 ∧
      ¬ SelectsRight small_attention real_library real_arrays real_exp 1 2 := by
  refine ⟨fun h => ?_, fun h => ?_⟩
  · have hrow := one_prompt_row small_attention.indexer 2 0 (by decide)
      (by decide)
    obtain ⟨r, hr, -⟩ := h _ _ 0 0 rfl (Or.inr ⟨rfl, hrow⟩)
    exact prefill_raises real_arrays_broadcast real_arrays_partition real_arrays_axes hrow r hr
  · exact falling_memory_selects_wrong real_arrays_partition (Nat.le_refl 2) h

end parallax.models.deepseek_v32
