-- What a block computes, in plain words: causal attention over the inputs of one
-- request, and then what works on one token. A call for a batch over the paged
-- cache gives each of its rows this, when the cache holds the keys and values of
-- the earlier positions of its request; and afterwards it holds those of the batch.
import InferenceMesh.Lib.CausalStages
import InferenceMesh.Models.DenseBlocks

open python online_softmax scatter_memory causal_stages parallax.metal.paged_attention
open parallax.utils mlx parallax.server.cache_manager parallax.server.mlx_executor
open CacheManager

namespace parallax.models.dense

set_option linter.unusedSectionVars false

variable {X K : Type} [Field K] [LinearOrder K]

/-! ## Causal attention -/

namespace Attention

variable (attn : Attention X K) (lib : Library K)

def kv_head (head : Nat) : Nat := head / (attn.n_heads / attn.n_kv_heads)

/-- The query of a token at position `p`. -/
def query (x : X) (p head : Nat) : Nat → K := lib.rope p (fun _ => attn.queries_new x head) 0

/-- The key and the value of a token at position `p`. -/
def kv (x : X) (p : Nat) : KV K where
  key := fun head => lib.rope p (fun _ => attn.keys_new x head) 0
  value := attn.values_new x

/-- The score of the token at position `t` with the one at position `p`. -/
def score (x : Nat → X) (t head p : Nat) : K :=
  (∑ j ∈ Finset.range attn.head_dim, attn.query lib (x t) t head j *
    (attn.kv lib (x p) p).key (attn.kv_head head) j) * attn.scale

/-- What attention makes of the token at position `t`: an average over the positions up to it. -/
def causal (e : Exp K) (x : Nat → X) (t : Nat) : X :=
  attn.o_proj (attn.flatten (fun head i => attend e ⊥ (List.range (t + 1))
    (attn.score lib x t head) (fun p => attn.values_new (x p) (attn.kv_head head) i)))

variable {attn lib}

/-- Only the heads and dimensions of the attention are looked at. -/
theorem flatten_congr {f g : Nat → Nat → K}
    (h : ∀ head < attn.n_heads, ∀ i < attn.head_dim, f head i = g head i) :
    attn.flatten f = attn.flatten g := by
  unfold flatten
  refine List.flatMap_congr fun head hhead => List.map_congr_left fun i hi => ?_
  exact h head (List.mem_range.mp hhead) i (List.mem_range.mp hi)

/-- Later tokens do not matter. -/
theorem causal_congr {e : Exp K} {x y : Nat → X} {t : Nat} (h : ∀ p ≤ t, x p = y p) :
    attn.causal lib e x t = attn.causal lib e y t := by
  unfold causal
  congr 1
  refine flatten_congr fun head _ i _ => ?_
  apply attend_congr
  · intro p hp
    have hp := List.mem_range.mp hp
    unfold score
    rw [h t (le_refl t), h p (by omega)]
  · intro p hp
    have hp := List.mem_range.mp hp
    rw [h p (by omega)]

theorem kv_head_lt (hgroup : attn.n_kv_heads ∣ attn.n_heads) {head : Nat} (hh : head < attn.n_heads) :
    attn.kv_head head < attn.n_kv_heads := by
  obtain ⟨g, hg⟩ := hgroup
  have hpos : 0 < attn.n_kv_heads := by
    rcases Nat.eq_zero_or_pos attn.n_kv_heads with h0 | h0
    · rw [h0, Nat.zero_mul] at hg
      omega
    · exact h0
  unfold kv_head
  rw [hg, Nat.mul_div_cancel_left g hpos]
  exact Nat.div_lt_of_lt_mul (by rw [Nat.mul_comm, ← hg]; exact hh)

end Attention

/-! ## A block as a stage -/

section stages

variable [Add X] [Inhabited X]

namespace Block

variable (block : Block X K) (lib : Library K) (e : Exp K)

/-- What a block makes of the token at position `t`. -/
def token_out (x : Nat → X) (t : Nat) : X :=
  block.residual (x t) (block.self_attn.causal lib e (fun p => block.input_layernorm (x p)) t)

/-- What a block makes of the last of its inputs. -/
def stage (xs : List X) : X := block.token_out lib e (fun p => xs[p]?.getD default) (xs.length - 1)

variable {block lib e}

theorem token_out_congr {x y : Nat → X} {t : Nat} (h : ∀ p ≤ t, x p = y p) :
    block.token_out lib e x t = block.token_out lib e y t := by
  unfold token_out
  rw [h t (le_refl t), Attention.causal_congr fun p hp => by rw [h p hp]]

theorem stage_outputs {xs : List X} {t : Nat} (ht : t < xs.length) :
    (outputs (block.stage lib e) xs)[t]? =
      some (block.token_out lib e (fun p => xs[p]?.getD default) t) := by
  have hlength : (xs.take (t + 1)).length - 1 = t := by
    rw [List.length_take]
    omega
  rw [outputs_getElem? ht]
  unfold stage
  rw [hlength]
  congr 1
  refine token_out_congr fun p hp => ?_
  rw [List.getElem?_take_of_lt (by omega)]

end Block

end stages

/-! ## The batch of a call -/

/-- The positions of a request that are in a row of a batch. -/
structure Span where
  id : String
  start : Nat
  len : Nat

/-- The tables, the lengths and the slots of a call are those of the positions of its rows. -/
structure Placed (m : CacheManager) (spans : List Span) (c : Call X K) : Prop where
  batch : spans.length = c.batch
  distinct : (spans.map Span.id).Nodup
  block_size : c.block_size = m.block_size
  fits : ∀ span ∈ spans, span.len ≤ c.target_len
  slots : ∃ slots, (c.slot_mapping = some slots ∨ c.slot_mapping = none ∧
      decode_slots c.block_size c.block_tables c.context_lengths = .ok slots) ∧
    slots.length = c.batch * c.target_len ∧
    ∀ (i : Nat) (span : Span), spans[i]? = some span → ∀ t < c.target_len,
      (t < span.len → ∃ s, slot_of m span.id (span.start + t) = some s ∧
        slots[i * c.target_len + t]? = some (s : Int)) ∧
      (¬ t < span.len → slots[i * c.target_len + t]? = some (-1))
  rectangular : ∀ row ∈ c.block_tables, row.length = (c.block_tables.headD []).length
  tables : ∀ (i : Nat) (span : Span), spans[i]? = some span →
    ∃ pad, c.block_tables[i]? = some (m.get_block_table span.id ++ pad)
  contexts : ∀ (i : Nat) (span : Span), spans[i]? = some span →
    c.context_lengths[i]? = some (span.start + span.len)
  single : c.target_len = 1 → ∀ span ∈ spans, span.len = 1
  several : c.target_len ≠ 1 → (∀ span ∈ spans, span.start = 0) ∧ ∃ dtype lengths,
    c.mask = some (prefill_mask dtype lengths) ∧
    ∀ (i : Nat) (span : Span), spans[i]? = some span → lengths[i]? = some span.len

namespace Placed

variable {m : CacheManager} {spans : List Span} {c : Call X K} {attn : Attention X K}
  {lib : Library K} {e : Exp K} {span : Span} {i t : Nat}

/-- The input, the cache and the threads of a launch may change. -/
theorem relaunch (h : Placed m spans c) (x : Nat → Nat → X) (caches : Caches K)
    (store_order attend_order : Order) (unwritten : Nat → K) :
    Placed m spans { c with
      x := x
      caches := caches
      store_order := store_order
      attend_order := attend_order
      unwritten := unwritten } :=
  ⟨h.batch, h.distinct, h.block_size, h.fits, h.slots, h.rectangular, h.tables, h.contexts,
    h.single, h.several⟩

/-- The position of the first token of a row. -/
theorem current_pos (h : Placed m spans c) (hspan : spans[i]? = some span) :
    c.current_pos i = span.start := by
  have hmem := List.mem_of_getElem? hspan
  unfold Call.current_pos
  by_cases hone : c.target_len = 1
  · rw [if_pos hone, h.contexts i span hspan, h.single hone span hmem]
    rfl
  · rw [if_neg hone, (h.several hone).1 span hmem]

/-- A rotated row, by the positions of its tokens. -/
theorem rotated (h : Placed m spans c) (hrope : RotatesByPosition lib)
    (hspan : spans[i]? = some span) (rows : Nat → Nat → K) (t : Nat) :
    lib.rope (c.current_pos i) rows t = lib.rope (span.start + t) (fun _ => rows t) 0 := by
  rw [hrope, h.current_pos hspan]

theorem row_of_token (ht : t < c.target_len) :
    (i * c.target_len + t) / c.target_len = i ∧ (i * c.target_len + t) % c.target_len = t := by
  have hpos : 0 < c.target_len := by omega
  refine ⟨?_, ?_⟩
  · rw [Nat.mul_comm, Nat.mul_add_div hpos, Nat.div_eq_of_lt ht, Nat.add_zero]
  · rw [Nat.mul_comm, Nat.mul_add_mod, Nat.mod_eq_of_lt ht]

/-- The new keys and values of a token are those of its position. -/
theorem tokens_kv (h : Placed m spans c) (hrope : RotatesByPosition lib)
    (hspan : spans[i]? = some span) (ht : t < span.len) {head j : Nat}
    (hh : head < attn.n_kv_heads) (hj : j < attn.head_dim) :
    ((attn.tokens lib c).kv (attn.shape c.block_size) (i * c.target_len + t)).key head j =
        (attn.kv lib (c.x i t) (span.start + t)).key head j ∧
      ((attn.tokens lib c).kv (attn.shape c.block_size) (i * c.target_len + t)).value head j =
        (attn.kv lib (c.x i t) (span.start + t)).value head j := by
  have hfit := h.fits span (List.mem_of_getElem? hspan)
  obtain ⟨hrow, htoken⟩ := row_of_token (i := i) (c := c) (t := t) (by omega)
  refine ⟨?_, ?_⟩
  · refine (flat_rows_at c.target_len (attn.keys_rotated lib c) _ hh hj).trans ?_
    rw [hrow, htoken]
    unfold Attention.keys_rotated
    rw [h.rotated hrope hspan]
    rfl
  · refine (flat_rows_at c.target_len (attn.values c) _ hh hj).trans ?_
    rw [hrow, htoken]
    rfl

/-- Each slot is the one of a position of the batch. -/
theorem slot_target (h : Placed m spans c) {slots : List Int}
    (hlen : slots.length = c.batch * c.target_len)
    (hentry : ∀ (i : Nat) (span : Span), spans[i]? = some span → ∀ t < c.target_len,
      (t < span.len → ∃ s, slot_of m span.id (span.start + t) = some s ∧
        slots[i * c.target_len + t]? = some (s : Int)) ∧
      (¬ t < span.len → slots[i * c.target_len + t]? = some (-1)))
    {n s : Nat} (hs : slots[n]? = some (s : Int)) :
    ∃ (i : Nat) (span : Span) (t : Nat), spans[i]? = some span ∧ t < span.len ∧
      n = i * c.target_len + t ∧ slot_of m span.id (span.start + t) = some s := by
  have hn := (List.getElem?_eq_some_iff.mp hs).1
  rw [hlen] at hn
  have hpos : 0 < c.target_len := Nat.pos_of_ne_zero (by rintro h0; simp [h0] at hn)
  have hi : n / c.target_len < spans.length := by
    rw [h.batch]
    exact (Nat.div_lt_iff_lt_mul hpos).mpr hn
  have hsplit : n / c.target_len * c.target_len + n % c.target_len = n := by
    rw [Nat.mul_comm]
    exact Nat.div_add_mod n c.target_len
  have hspan := List.getElem?_eq_getElem hi
  obtain ⟨hreal, hpad⟩ := hentry _ _ hspan (n % c.target_len) (Nat.mod_lt n hpos)
  rw [hsplit, hs] at hreal hpad
  by_cases ht : n % c.target_len < (spans[n / c.target_len]).len
  · obtain ⟨s', hs', he⟩ := hreal ht
    have hsame : s = s' := Int.ofNat.inj (Option.some.inj he)
    subst hsame
    exact ⟨_, _, _, hspan, ht, hsplit.symm, hs'⟩
  · have hneg := Option.some.inj (hpad ht)
    omega

/-- A request is in one row. -/
theorem row_unique (h : Placed m spans c) {i' : Nat} {span' : Span} (hspan : spans[i]? = some span)
    (hspan' : spans[i']? = some span') (hid : span.id = span'.id) : i = i' := by
  have hmap : (spans.map Span.id)[i]? = (spans.map Span.id)[i']? := by
    rw [List.getElem?_map, List.getElem?_map, hspan, hspan', Option.map_some, Option.map_some, hid]
  have hlt : i < (spans.map Span.id).length := by
    rw [List.length_map]
    exact (List.getElem?_eq_some_iff.mp hspan).1
  exact (List.getElem?_inj hlt h.distinct).mp hmap

/-- The caches after the store hold the keys and values of the batch, and elsewhere what they
held. -/
theorem store (h : Placed m spans c) (hm : BlocksOwned m) (hrope : RotatesByPosition lib)
    {last last' : String → Nat → Option (KV K)}
    (hcoherent : Coherent (attn.shape c.block_size) m c.caches last)
    (hlast : ∀ id p kv, last' id p = some kv →
      (∃ (i : Nat) (span : Span) (t : Nat), spans[i]? = some span ∧ span.id = id ∧ t < span.len ∧
        p = span.start + t ∧ kv = attn.kv lib (c.x i t) p) ∨
      (∀ span ∈ spans, span.id = id → p < span.start) ∧ last id p = some kv) :
    ∃ caches, reshape_and_cache (attn.shape c.block_size) c.store_order (attn.tokens lib c) c.caches
        c.block_tables c.context_lengths c.slot_mapping = .ok caches ∧
      Coherent (attn.shape c.block_size) m caches last' := by
  obtain ⟨slots, hmapping, hlen, hentry⟩ := h.slots
  have hnum : slots.length = (attn.tokens lib c).num_tokens := hlen
  have hstore : reshape_and_cache (attn.shape c.block_size) c.store_order (attn.tokens lib c)
      c.caches c.block_tables c.context_lengths c.slot_mapping =
        .ok (reshape_and_cache_kernel (attn.shape c.block_size) c.store_order (attn.tokens lib c)
          slots c.caches) := by
    unfold reshape_and_cache
    rcases hmapping with hsome | ⟨hnone, hslots⟩
    · rw [hsome]
      exact if_neg (not_not.mpr hnum)
    · have hslots' : decode_slots (attn.shape c.block_size).block_size c.block_tables
          c.context_lengths = .ok slots := hslots
      rw [hnone]
      dsimp only
      rw [hslots']
      exact if_neg (not_not.mpr hnum)
  have hb : 0 < (attn.shape c.block_size).block_size := by
    show 0 < c.block_size
    rw [h.block_size]
    exact m.config.block_size_pos
  have happart : ∀ n n' s : Nat, slots[n]? = some (s : Int) → slots[n']? = some (s : Int) →
      n = n' := by
    intro n n' s hs hs'
    obtain ⟨i, span, t, hspan, ht, rfl, hslot⟩ := h.slot_target hlen hentry hs
    obtain ⟨i', span', t', hspan', ht', rfl, hslot'⟩ := h.slot_target hlen hentry hs'
    obtain ⟨hid, hp⟩ := slot_of_inj hm hslot hslot'
    have hi := h.row_unique hspan hspan' hid
    subst hi
    rw [hspan] at hspan'
    cases hspan'
    omega
  refine ⟨_, hstore, fun id p kv hkv => ?_⟩
  rcases hlast id p kv hkv with ⟨i, span, t, hspan, rfl, ht, rfl, rfl⟩ | ⟨hbefore, hold⟩
  · have hfit := h.fits span (List.mem_of_getElem? hspan)
    obtain ⟨s, hs, hslot⟩ := (hentry i span hspan t (by omega)).1 ht
    refine ⟨s, hs, fun head hh => ⟨fun j hj => ?_, fun j hj => ?_⟩⟩
    · exact ((kernel.spec (Or.inl rfl) hb hnum happart hh hj).1 _ s hslot).trans
        (h.tokens_kv hrope hspan ht hh hj).1
    · exact ((kernel.spec (Or.inr rfl) hb hnum happart hh hj).1 _ s hslot).trans
        (h.tokens_kv hrope hspan ht hh hj).2
  · obtain ⟨s, hs, hcells⟩ := hcoherent id p kv hold
    have hnot : (s : Int) ∉ slots := by
      intro hmem
      obtain ⟨n, hn⟩ := List.getElem?_of_mem hmem
      obtain ⟨i, span, t, hspan, ht, rfl, hslot⟩ := h.slot_target hlen hentry hn
      obtain ⟨hid, hp⟩ := slot_of_inj hm hslot hs
      have hlt := hbefore span (List.mem_of_getElem? hspan) hid
      omega
    refine ⟨s, hs, fun head hh => ?_⟩
    obtain ⟨hkey, hvalue⟩ := hcells head hh
    exact ⟨fun j hj => ((kernel.spec (Or.inl rfl) hb hnum happart hh hj).2 s hnot).trans (hkey j hj),
      fun j hj => ((kernel.spec (Or.inr rfl) hb hnum happart hh hj).2 s hnot).trans (hvalue j hj)⟩

end Placed

/-! ## What a call gives -/

/-- The arguments of the paged kernel. -/
def Attention.launch (attn : Attention X K) (c : Call X K) : Launch K :=
  ⟨attn.shape c.block_size, c.batch, attn.n_heads, (c.block_tables.headD []).length, attn.scale⟩

def Attention.inputs (attn : Attention X K) (lib : Library K) (c : Call X K) (caches : Caches K) :
    Inputs K :=
  ⟨flat_rows attn.n_heads attn.head_dim 1 (attn.queries_rotated lib c), caches,
    row_major c.block_tables, fun b => c.context_lengths[b]?.getD 0⟩

namespace Placed

variable {m : CacheManager} {spans : List Span} {c : Call X K} {attn : Attention X K}
  {lib : Library K} {e : Exp K} {span : Span} {i t : Nat} {caches : Caches K}
  {last : String → Nat → Option (KV K)} {y : Nat → X}

/-- The block tables lead to the slot that the manager gives a position. -/
theorem position_slot_eq (h : Placed m spans c) (hspan : spans[i]? = some span) {p s : Nat}
    (hs : slot_of m span.id p = some s) :
    position_slot (attn.launch c) (attn.inputs lib c caches) i p = s := by
  obtain ⟨table, b, htable, hblock, rfl⟩ := slot_of_eq_some.mp hs
  obtain ⟨pad, hrow⟩ := h.tables i span hspan
  have hown : m.get_block_table span.id = table := by rw [get_block_table, htable]; rfl
  rw [hown] at hrow
  have hentry : (table ++ pad)[p / m.block_size]? = some b := by
    rw [List.getElem?_append_left (List.getElem?_eq_some_iff.mp hblock).1, hblock]
  show row_major c.block_tables (i * (c.block_tables.headD []).length + p / c.block_size) *
    c.block_size + p % c.block_size = _
  rw [h.block_size, row_major_eq h.rectangular hrow hentry]

/-- What the kernel reads for a position is what the cache holds for it. -/
theorem cells (h : Placed m spans c) (hrope : RotatesByPosition lib)
    (hgroup : attn.n_kv_heads ∣ attn.n_heads)
    (hcoherent : Coherent (attn.shape c.block_size) m caches last) (hspan : spans[i]? = some span)
    (hheld : ∀ p < span.start + span.len, last span.id p = some (attn.kv lib (y p) p))
    (hnew : y span.start = c.x i 0) {head j p : Nat} (hh : head < attn.n_heads)
    (hj : j < attn.head_dim) (hp : p < span.start + span.len) :
    score_at (attn.launch c) (attn.inputs lib c caches) i head p =
        attn.score lib y span.start head p ∧
      value_at (attn.launch c) (attn.inputs lib c caches) i head j p =
        attn.values_new (y p) (attn.kv_head head) j := by
  have hkv := Attention.kv_head_lt hgroup hh
  obtain ⟨s, hs, hcells⟩ := hcoherent span.id p _ (hheld p hp)
  obtain ⟨hkey, hvalue⟩ := hcells _ hkv
  have hslot : position_slot (attn.launch c) (attn.inputs lib c caches) i p = s :=
    h.position_slot_eq hspan hs
  refine ⟨?_, ?_⟩
  · rw [score_at, hslot, Attention.score]
    congr 1
    apply Finset.sum_congr rfl
    intro l hl
    have hl := Finset.mem_range.mp hl
    have hquery : query (attn.launch c) (attn.inputs lib c caches) i head l =
        attn.query lib (y span.start) span.start head l := by
      refine (flat_rows_at 1 (attn.queries_rotated lib c) i hh hl).trans ?_
      rw [Nat.div_one, Nat.mod_one, Attention.queries_rotated, h.rotated hrope hspan, Nat.add_zero,
        hnew]
      rfl
    rw [hquery]
    exact congrArg _ (hkey l hl)
  · rw [value_at, hslot]
    exact hvalue j hj

/-- The paged kernel gives each row causal attention. -/
theorem decodes (h : Placed m spans c) (hrope : RotatesByPosition lib)
    (hd : attn.head_dim ≤ 256) (hgroup : attn.n_kv_heads ∣ attn.n_heads)
    (hcoherent : Coherent (attn.shape c.block_size) m caches last) (hone : c.target_len = 1)
    (hspan : spans[i]? = some span)
    (hheld : ∀ p < span.start + span.len, last span.id p = some (attn.kv lib (y p) p))
    (hnew : y span.start = c.x i 0) :
    attn.flatten (fun head j =>
        paged_attention_call e (attn.shape c.block_size) c.attend_order c.batch attn.n_heads
          (flat_rows attn.n_heads attn.head_dim 1 (attn.queries_rotated lib c))
          caches c.block_tables c.context_lengths attn.scale {} c.unwritten
          (i * attn.n_heads * attn.head_dim + head * attn.head_dim + j)) =
      attn.flatten (fun head j => attend e ⊥ (List.range (span.start + 1))
        (attn.score lib y span.start head) (fun p => attn.values_new (y p) (attn.kv_head head) j)) := by
  have hlen := h.single hone span (List.mem_of_getElem? hspan)
  have hb : 0 < c.block_size := by
    rw [h.block_size]
    exact m.config.block_size_pos
  have hbatch : i < c.batch := by
    rw [← h.batch]
    exact (List.getElem?_eq_some_iff.mp hspan).1
  have hcontext : (attn.inputs lib c caches).context_lengths i = span.start + 1 := by
    show c.context_lengths[i]?.getD 0 = _
    rw [h.contexts i span hspan, hlen]
    rfl
  refine Attention.flatten_congr fun head hh j hj => ?_
  have hcells := fun p hp => h.cells hrope hgroup hcoherent hspan hheld hnew (p := p) hh hj hp
  rw [hlen] at hcells
  refine (paged_attention_kernel_eq_attend (attn.launch c) c.attend_order
    (attn.inputs lib c caches) c.unwritten hb hd hd hbatch hh hj (by rw [hcontext]; omega)).trans ?_
  rw [hcontext]
  apply attend_congr
  · exact fun p hp => (hcells p (List.mem_range.mp hp)).1
  · exact fun p hp => (hcells p (List.mem_range.mp hp)).2

section prefill

variable [IsStrictOrderedRing K]

/-- The mask of a prefill keeps the positions up to the token's own. -/
theorem kept (h : Placed m spans c) (hseveral : c.target_len ≠ 1) (hspan : spans[i]? = some span)
    (ht : t < span.len) :
    (attn.attention_input lib c i).kept t = List.range (t + 1) ∧
      ∀ p, p < c.target_len → (attn.attention_input lib c i).mask t p = 0 ∨
        (attn.attention_input lib c i).mask t p ≤ -least_infinite := by
  obtain ⟨_, dtype, lengths, hmask, hlengths⟩ := h.several hseveral
  have hlen := hlengths i span hspan
  have hfit := h.fits span (List.mem_of_getElem? hspan)
  have hvalue : ∀ p, (attn.attention_input lib c i).mask t p = prefill_mask dtype lengths i t p := by
    intro p
    show (c.mask.getD _) i t p = _
    rw [hmask]
    rfl
  have hneg : -(least_infinite : K) < 0 := by norm_num [least_infinite]
  have hzero : ∀ p, (attn.attention_input lib c i).mask t p = 0 ↔ p < t + 1 := by
    intro p
    rw [hvalue]
    constructor
    · intro h0
      by_contra hlt
      have hle := prefill_mask_masked (K := K) dtype hlen (i := t) (j := p) (by omega)
      exact absurd h0 (lt_of_le_of_lt hle hneg).ne
    · intro hlt
      exact prefill_mask_kept dtype hlen (by omega) (by omega)
  refine ⟨?_, fun p _ => ?_⟩
  · obtain ⟨more, hmore⟩ : ∃ more, c.target_len = t + 1 + more := ⟨c.target_len - (t + 1), by omega⟩
    unfold AttentionInput.kept
    show (List.range c.target_len).filter _ = _
    rw [hmore, List.range_add, List.filter_append,
      List.filter_eq_self.mpr fun p hp => decide_eq_true ((hzero p).mpr (List.mem_range.mp hp)),
      List.filter_eq_nil_iff.mpr, List.append_nil]
    intro p hp
    obtain ⟨q, _, rfl⟩ := List.mem_map.mp hp
    rw [decide_eq_true_iff, hzero]
    omega
  · by_cases hp : p < t + 1
    · exact Or.inl ((hzero p).mpr hp)
    · rw [hvalue]
      exact Or.inr (prefill_mask_masked dtype hlen (by omega))

/-- The fused attention gives each row causal attention. -/
theorem prefills (h : Placed m spans c) (hrope : RotatesByPosition lib)
    (hattend : AttendsWithMask lib e) (hseveral : c.target_len ≠ 1) (hspan : spans[i]? = some span)
    (hnew : ∀ t < span.len, y t = c.x i t) (ht : t < span.len) :
    attn.flatten (fun head j =>
        lib.scaled_dot_product_attention (attn.attention_input lib c i) head t j) =
      attn.flatten (fun head j => attend e ⊥ (List.range (t + 1)) (attn.score lib y t head)
        (fun p => attn.values_new (y p) (attn.kv_head head) j)) := by
  obtain ⟨hkept, hvalues⟩ : (attn.attention_input lib c i).kept t = List.range (t + 1) ∧
      ∀ p, p < c.target_len → (attn.attention_input lib c i).mask t p = 0 ∨
        (attn.attention_input lib c i).mask t p ≤ -least_infinite := h.kept hseveral hspan ht
  have hmem := List.mem_of_getElem? hspan
  have hstart := (h.several hseveral).1 span hmem
  have hfit := h.fits span hmem
  have hrotated : ∀ (rows : Nat → Nat → K) (p : Nat),
      lib.rope (c.current_pos i) rows p = lib.rope p (fun _ => rows p) 0 := by
    intro rows p
    rw [h.rotated hrope hspan, hstart, Nat.zero_add]
  refine Attention.flatten_congr fun head hh j _ => ?_
  refine (hattend _ head t j hh (by show t < c.target_len; omega)
    (by rw [hkept]; simp) hvalues).trans ?_
  rw [hkept]
  apply attend_congr
  · intro p hp
    have hp := List.mem_range.mp hp
    unfold AttentionInput.score Attention.score Attention.query Attention.kv
    rw [hnew t ht, hnew p (by omega)]
    simp only [Attention.attention_input, Attention.queries_rotated, Attention.keys_rotated,
      hrotated]
    rfl
  · intro p hp
    have hp := List.mem_range.mp hp
    rw [hnew p (by omega)]
    rfl

/-- One call of an attention for a batch. -/
theorem call_spec (h : Placed m spans c) (hm : BlocksOwned m) (hrope : RotatesByPosition lib)
    (hattend : AttendsWithMask lib e) (hd : attn.head_dim ≤ 256)
    (hgroup : attn.n_kv_heads ∣ attn.n_heads) {last' : String → Nat → Option (KV K)}
    (hcoherent : Coherent (attn.shape c.block_size) m c.caches last)
    (hlast : ∀ id p kv, last' id p = some kv →
      (∃ (i : Nat) (span : Span) (t : Nat), spans[i]? = some span ∧ span.id = id ∧ t < span.len ∧
        p = span.start + t ∧ kv = attn.kv lib (c.x i t) p) ∨
      (∀ span ∈ spans, span.id = id → p < span.start) ∧ last id p = some kv) :
    ∃ caches out, attn.call lib c e = .ok (caches, out) ∧
      Coherent (attn.shape c.block_size) m caches last' ∧
      ∀ (i : Nat) (span : Span) (y : Nat → X), spans[i]? = some span →
        (∀ p < span.start + span.len, last' span.id p = some (attn.kv lib (y p) p)) →
        (∀ t < span.len, y (span.start + t) = c.x i t) →
        ∀ t < span.len, out i t = attn.causal lib e y (span.start + t) := by
  obtain ⟨caches, hstore, hcoherent'⟩ := h.store hm hrope hcoherent hlast
  unfold Attention.call
  rw [hstore]
  by_cases hone : c.target_len = 1
  · refine ⟨caches, _, by simp only [if_pos hone]; rfl, hcoherent',
      fun i span y hspan hheld hnew t ht => ?_⟩
    have hlen := h.single hone span (List.mem_of_getElem? hspan)
    have ht0 : t = 0 := by omega
    subst ht0
    exact congrArg attn.o_proj
      (h.decodes hrope hd hgroup hcoherent' hone hspan hheld (hnew 0 (by omega)))
  · refine ⟨caches, _, by simp only [if_neg hone]; rfl, hcoherent',
      fun i span y hspan _ hnew t ht => ?_⟩
    have hstart := (h.several hone).1 span (List.mem_of_getElem? hspan)
    rw [hstart] at hnew ⊢
    simp only [Nat.zero_add] at hnew ⊢
    exact congrArg attn.o_proj (h.prefills hrope hattend hone hspan hnew ht)

end prefill

end Placed

/-! ## A block and the inputs of its requests -/

section histories

variable {block : Block X K} {lib : Library K} {e : Exp K} {m : CacheManager} {spans : List Span}
  {c : Call X K} {hist hist' : String → List X}

/-- The keys and values of the inputs of a request, position by position. -/
def Block.held (block : Block X K) (lib : Library K) (hist : String → List X) (id : String)
    (p : Nat) : Option (KV K) :=
  (hist id)[p]?.map (fun x => block.self_attn.kv lib (block.input_layernorm x) p)

/-- The inputs of the requests before a batch and after it, where `x` is the batch. Of some requests
nothing is known afterwards. -/
structure Grown (spans : List Span) (hist hist' : String → List X) (x : Nat → Nat → X) : Prop where
  others : ∀ id, (∀ span ∈ spans, span.id ≠ id) → hist' id = hist id
  rows : ∀ (i : Nat) (span : Span), spans[i]? = some span → hist' span.id = [] ∨
    (hist' span.id).length = span.start + span.len ∧
      (hist' span.id).take span.start = (hist span.id).take span.start ∧
      ∀ t < span.len, (hist' span.id)[span.start + t]? = some (x i t)

/-- What a block keeps of the requests after a batch is new, or it was there before. -/
theorem Grown.held (h : Grown spans hist hist' c.x) (id : String) (p : Nat) (kv : KV K)
    (hkv : block.held lib hist' id p = some kv) :
    (∃ (i : Nat) (span : Span) (t : Nat), spans[i]? = some span ∧ span.id = id ∧ t < span.len ∧
      p = span.start + t ∧ kv = block.self_attn.kv lib (block.input_layernorm (c.x i t)) p) ∨
    (∀ span ∈ spans, span.id = id → p < span.start) ∧ block.held lib hist id p = some kv := by
  unfold Block.held at hkv ⊢
  obtain ⟨x, hx, rfl⟩ := Option.map_eq_some_iff.mp hkv
  have hp := (List.getElem?_eq_some_iff.mp hx).1
  by_cases hout : ∀ span ∈ spans, span.id = id → p < span.start
  · refine Or.inr ⟨hout, ?_⟩
    by_cases hin : ∃ span ∈ spans, span.id = id
    · obtain ⟨span, hmem, rfl⟩ := hin
      obtain ⟨i, hi⟩ := List.getElem?_of_mem hmem
      have hlt := hout span hmem rfl
      rcases h.rows i span hi with hnil | ⟨_, htake, _⟩
      · rw [hnil] at hp
        exact absurd hp (Nat.not_lt_zero p)
      · have hsame := congrArg (fun xs => xs[p]?) htake
        simp only [List.getElem?_take_of_lt hlt] at hsame
        rw [← hsame, hx]
        rfl
    · rw [← h.others id fun span hmem hid => hin ⟨span, hmem, hid⟩, hx]
      rfl
  · push Not at hout
    obtain ⟨span, hmem, rfl, hle⟩ := hout
    obtain ⟨i, hi⟩ := List.getElem?_of_mem hmem
    rcases h.rows i span hi with hnil | ⟨hlength, _, hnew⟩
    · rw [hnil] at hp
      exact absurd hp (Nat.not_lt_zero p)
    · have ht : p - span.start < span.len := by omega
      have hplace : span.start + (p - span.start) = p := by omega
      have hval := hnew _ ht
      rw [hplace, hx] at hval
      cases hval
      exact Or.inl ⟨i, span, p - span.start, hi, rfl, ht, hplace.symm, rfl⟩

variable [Add X] [Inhabited X] [IsStrictOrderedRing K]

/-- The inputs of the next block are the outputs of this one. -/
theorem Grown.outputs {out : Nat → Nat → X} (h : Grown spans hist hist' c.x)
    (hout : ∀ (i : Nat) (span : Span), spans[i]? = some span → hist' span.id ≠ [] →
      ∀ t < span.len, (outputs (block.stage lib e) (hist' span.id))[span.start + t]? =
        some (out i t)) :
    Grown spans (fun id => causal_stages.outputs (block.stage lib e) (hist id))
      (fun id => causal_stages.outputs (block.stage lib e) (hist' id)) out where
  others := fun id hne => by rw [h.others id hne]
  rows := by
    intro i span hspan
    by_cases hnil : hist' span.id = []
    · left
      rw [hnil]
      rfl
    · rcases h.rows i span hspan with hnil' | ⟨hlength, htake, _⟩
      · exact absurd hnil' hnil
      · right
        refine ⟨?_, ?_, hout i span hspan hnil⟩
        · rw [outputs_length, hlength]
        · rw [← outputs_take, ← outputs_take, htake]

/-- A block that has the cache of its requests gives each row what the plain block gives it, and has
their cache afterwards. -/
theorem Block.forward_spec (h : Placed m spans c) (hm : BlocksOwned m)
    (hrope : RotatesByPosition lib) (hattend : AttendsWithMask lib e)
    (hd : block.self_attn.head_dim ≤ 256)
    (hgroup : block.self_attn.n_kv_heads ∣ block.self_attn.n_heads)
    (hgrown : Grown spans hist hist' c.x)
    (hcoherent : Coherent (block.self_attn.shape c.block_size) m c.caches (block.held lib hist)) :
    ∃ caches out, block.forward lib e c = .ok (caches, out) ∧
      Coherent (block.self_attn.shape c.block_size) m caches (block.held lib hist') ∧
      Grown spans (fun id => causal_stages.outputs (block.stage lib e) (hist id))
        (fun id => causal_stages.outputs (block.stage lib e) (hist' id)) out := by
  have hplaced : Placed m spans { c with x := fun b t => block.input_layernorm (c.x b t) } :=
    h.relaunch _ _ _ _ _
  obtain ⟨caches, r, hcall, hcoherent', hout⟩ :=
    hplaced.call_spec hm hrope hattend hd hgroup hcoherent hgrown.held
  refine ⟨caches, fun b t => block.residual (c.x b t) (r b t), ?_, hcoherent',
    hgrown.outputs fun i span hspan hnil t ht => ?_⟩
  · unfold Block.forward
    rw [hcall]
    rfl
  · rcases hgrown.rows i span hspan with hnil' | ⟨hlength, _, hnew⟩
    · exact absurd hnil' hnil
    · have hcausal := hout i span
        (fun p => block.input_layernorm ((hist' span.id)[p]?.getD default)) hspan
        (fun p hp => by
          unfold Block.held
          rw [List.getElem?_eq_getElem (by omega)]
          rfl)
        (fun t ht => by rw [hnew t ht]; rfl) t ht
      rw [stage_outputs (by omega)]
      unfold token_out
      rw [hcausal]
      dsimp only
      rw [hnew t ht]
      rfl

end histories

end parallax.models.dense
