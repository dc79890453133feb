-- The estimate of how many requests a KV cache holds at once
-- (parallax_utils/utils.py, and node.py, `max_requests`). The source tests the
-- number of tokens for its truth, so that a cache without room for one token
-- counts as one of unknown size, and the batch size is not clamped at all.
import InferenceMesh.Scheduling.Node
import Mathlib.Algebra.Order.Floor.Ring
import Mathlib.Tactic

open python

namespace scheduling.node

/-! ## Estimates -/

/-- What the callers fix: the limits, the share of the memory, and the shape of the heads. -/
structure CacheShape where
  requested_max_batch_size : Option Int
  max_sequence_len : Option Int
  kv_cache_memory_fraction : Rat
  num_key_value_heads : Int
  elem_bytes : Int
  head_dim_k : Int
  head_dim_v : Int
  fraction_nonneg : 0 ≤ kv_cache_memory_fraction
  heads_pos : 0 < num_key_value_heads
  elem_pos : 0 < elem_bytes
  dims_pos : 0 < head_dim_k + head_dim_v
  len_nonneg : ∀ len, max_sequence_len = some len → 0 ≤ len

namespace CacheShape

variable (x : CacheShape)

def estimate (memory_gb : Rat) (num_shard_layers : Int) : Except Exn Int :=
  compute_max_batch_size x.requested_max_batch_size x.max_sequence_len x.kv_cache_memory_fraction
    num_shard_layers x.num_key_value_heads x.elem_bytes memory_gb x.head_dim_k x.head_dim_v

/-- The bytes of the cache. -/
def cache_bytes (memory_gb : Rat) : Int :=
  truncate (memory_gb * 1024 ^ 3 * x.kv_cache_memory_fraction)

/-- The bytes of one token. -/
def token_bytes (num_shard_layers : Int) : Int :=
  num_shard_layers * x.num_key_value_heads * (x.head_dim_k + x.head_dim_v) * x.elem_bytes

/-- The tokens that the cache holds. -/
def cache_tokens (memory_gb : Rat) (num_shard_layers : Int) : Int :=
  max 0 (Int.fdiv (x.cache_bytes memory_gb) (x.token_bytes num_shard_layers))

/-- The batch size is not more than the sequences that the cache holds, or one. -/
def Within (memory_gb : Rat) (num_shard_layers batch_size : Int) : Prop :=
  ∀ len, x.max_sequence_len = some len → len ≠ 0 →
    batch_size ≤ max 1 (Int.fdiv (x.cache_tokens memory_gb num_shard_layers) len)

/-- The cache holds a token, or there is nothing to clamp: no sequence length is known, or one
request at most was asked for. -/
def Clamps (memory_gb : Rat) (num_shard_layers : Int) : Prop :=
  x.token_bytes num_shard_layers ≤ x.cache_bytes memory_gb ∨
    (∀ len, x.max_sequence_len = some len → len = 0) ∨
      ∃ requested, x.requested_max_batch_size = some requested ∧ requested ≤ 1

end CacheShape

theorem truncate_mono {p q : Rat} (hp : 0 ≤ p) (h : p ≤ q) : truncate p ≤ truncate q := by
  unfold truncate
  rw [if_pos hp, if_pos (hp.trans h)]
  exact Int.floor_mono h

theorem truncate_nonneg {p : Rat} (hp : 0 ≤ p) : 0 ≤ truncate p := by
  unfold truncate
  rw [if_pos hp]
  exact Int.floor_nonneg.mpr hp

/-! ### More memory, fewer layers -/

section tokens

variable {x : CacheShape} {memory_gb memory_gb' : Rat} {layers layers' : Int}

theorem cache_bytes_nonneg (hmemory : 0 ≤ memory_gb) : 0 ≤ x.cache_bytes memory_gb := by
  have hfraction := x.fraction_nonneg
  exact truncate_nonneg (by positivity)

theorem cache_bytes_mono (hmemory : 0 ≤ memory_gb) (h : memory_gb ≤ memory_gb') :
    x.cache_bytes memory_gb ≤ x.cache_bytes memory_gb' := by
  have hfraction := x.fraction_nonneg
  exact truncate_mono (by positivity) (by gcongr)

theorem token_bytes_pos (hlayers : 0 < layers) : 0 < x.token_bytes layers := by
  have hheads := x.heads_pos
  have helem := x.elem_pos
  have hdims := x.dims_pos
  unfold CacheShape.token_bytes
  positivity

theorem token_bytes_mono (h : layers' ≤ layers) : x.token_bytes layers' ≤ x.token_bytes layers := by
  have hheads := x.heads_pos.le
  have helem := x.elem_pos.le
  have hdims := x.dims_pos.le
  unfold CacheShape.token_bytes
  gcongr

theorem cache_tokens_eq (hmemory : 0 ≤ memory_gb) (hlayers : 0 < layers) :
    x.cache_tokens memory_gb layers = x.cache_bytes memory_gb / x.token_bytes layers := by
  have hpos := token_bytes_pos (x := x) hlayers
  unfold CacheShape.cache_tokens
  rw [Int.fdiv_eq_ediv_of_nonneg _ hpos.le]
  exact max_eq_right (Int.ediv_nonneg (cache_bytes_nonneg hmemory) hpos.le)

theorem cache_tokens_nonneg : 0 ≤ x.cache_tokens memory_gb layers := le_max_left _ _

theorem cache_tokens_mono (hmemory : 0 ≤ memory_gb) (hmemory' : memory_gb ≤ memory_gb')
    (hlayers' : 0 < layers') (hlayers : layers' ≤ layers) :
    x.cache_tokens memory_gb layers ≤ x.cache_tokens memory_gb' layers' := by
  have hpos := token_bytes_pos (x := x) (hlayers'.trans_le hlayers)
  rw [cache_tokens_eq hmemory (hlayers'.trans_le hlayers),
    cache_tokens_eq (hmemory.trans hmemory') hlayers',
    Int.le_ediv_iff_mul_le (token_bytes_pos hlayers')]
  have hquotient : 0 ≤ x.cache_bytes memory_gb / x.token_bytes layers :=
    Int.ediv_nonneg (cache_bytes_nonneg hmemory) hpos.le
  calc x.cache_bytes memory_gb / x.token_bytes layers * x.token_bytes layers'
      ≤ x.cache_bytes memory_gb / x.token_bytes layers * x.token_bytes layers :=
        mul_le_mul_of_nonneg_left (token_bytes_mono hlayers) hquotient
    _ ≤ x.cache_bytes memory_gb := Int.ediv_mul_le _ hpos.ne'
    _ ≤ x.cache_bytes memory_gb' := cache_bytes_mono hmemory hmemory'

theorem cache_tokens_ne_zero_iff (hmemory : 0 ≤ memory_gb) (hlayers : 0 < layers) :
    x.cache_tokens memory_gb layers ≠ 0 ↔ x.token_bytes layers ≤ x.cache_bytes memory_gb := by
  have hpos := token_bytes_pos (x := x) hlayers
  have hbytes := cache_bytes_nonneg (x := x) hmemory
  have hone := Int.le_ediv_iff_mul_le (a := 1) (b := x.cache_bytes memory_gb) hpos
  have hquotient := Int.ediv_nonneg hbytes hpos.le
  rw [cache_tokens_eq hmemory hlayers, ← one_mul (x.token_bytes layers), ← hone, one_mul]
  omega

end tokens

/-! ### Batch sizes -/

/-- The number of requests without a clamp. -/
def unclamped (requested_max_batch_size : Option Int) : Int := requested_max_batch_size.getD 16

theorem derive_unclamped {requested len : Option Int} {tokens : Int}
    (h : (∀ l, len = some l → l = 0) ∨ tokens = 0) :
    derive_max_batch_size requested len tokens = unclamped requested := by
  unfold derive_max_batch_size unclamped
  rcases len with _ | l
  · cases requested <;> rfl
  · have hnot : ¬ (l ≠ 0 ∧ tokens ≠ 0) := by
      rintro ⟨hl, htokens⟩
      exact h.elim (fun hlen => hl (hlen l rfl)) htokens
    dsimp only
    rw [if_neg hnot]
    cases requested <;> rfl

theorem derive_clamped (requested : Option Int) {l tokens : Int} (hl : l ≠ 0) (htokens : tokens ≠ 0) :
    derive_max_batch_size requested (some l) tokens =
      requested.elim (max 1 (Int.fdiv tokens l)) (fun r => min r (max 1 (Int.fdiv tokens l))) := by
  unfold derive_max_batch_size
  dsimp only
  rw [if_pos ⟨hl, htokens⟩]
  cases requested <;> rfl

theorem clamp_le (requested : Option Int) (capacity : Int) :
    requested.elim capacity (fun r => min r capacity) ≤ capacity := by
  cases requested with
  | none => exact le_rfl
  | some r => exact min_le_right r capacity

theorem clamp_mono (requested : Option Int) {capacity capacity' : Int} (h : capacity ≤ capacity') :
    requested.elim capacity (fun r => min r capacity) ≤
      requested.elim capacity' (fun r => min r capacity') := by
  cases requested with
  | none => exact h
  | some r => exact min_le_min_left r h

/-- A batch of at most one request is never clamped further. -/
theorem clamp_small {requested : Option Int} (h : ∃ r, requested = some r ∧ r ≤ 1) (capacity : Int) :
    requested.elim (max 1 capacity) (fun r => min r (max 1 capacity)) = unclamped requested := by
  obtain ⟨r, rfl, hr⟩ := h
  exact min_eq_left (hr.trans (le_max_left 1 capacity))

namespace CacheShape

variable {x : CacheShape} {memory_gb memory_gb' : Rat} {layers layers' : Int}

/-- The batch size for the tokens that the cache holds. -/
def batch_size (x : CacheShape) (memory_gb : Rat) (num_shard_layers : Int) : Int :=
  derive_max_batch_size x.requested_max_batch_size x.max_sequence_len
    (x.cache_tokens memory_gb num_shard_layers)

theorem estimate.spec (hlayers : 0 < layers) :
    x.estimate memory_gb layers = .ok (x.batch_size memory_gb layers) := by
  have hpos := token_bytes_pos (x := x) hlayers
  unfold token_bytes at hpos
  unfold estimate compute_max_batch_size compute_max_tokens_in_cache
  dsimp only
  rw [if_neg hpos.ne']
  rfl

/-- The two estimates grow with the memory and fall with the layers, and neither is too large. -/
structure MonotoneBounded (x : CacheShape) (memory_gb memory_gb' : Rat) (layers layers' size size' :
    Int) : Prop where
  mono : size ≤ size'
  within : x.Within memory_gb layers size
  within' : x.Within memory_gb' layers' size'

/-- A cache without a token, for sequences of a known length: the size is the one asked for. -/
theorem unclamped_not_within {l : Int} (hl : x.max_sequence_len = some l) (hne : l ≠ 0)
    (htokens : x.cache_tokens memory_gb layers = 0)
    (hmany : ¬ ∃ r, x.requested_max_batch_size = some r ∧ r ≤ 1) :
    ¬ x.Within memory_gb layers (x.batch_size memory_gb layers) := by
  intro hwithin
  have hle := hwithin l hl hne
  unfold batch_size at hle
  rw [derive_unclamped (Or.inr htokens), htokens, Int.zero_fdiv] at hle
  unfold unclamped at hle
  cases hr : x.requested_max_batch_size with
  | none =>
    rw [hr] at hle
    exact absurd hle (by decide)
  | some r =>
    rw [hr] at hle
    exact hmany ⟨r, hr, by simpa using hle⟩

theorem batch_size_within (h : x.cache_tokens memory_gb layers ≠ 0) :
    x.Within memory_gb layers (x.batch_size memory_gb layers) := by
  intro l hl hne
  unfold batch_size
  rw [hl, derive_clamped _ hne h]
  exact clamp_le _ _

theorem within_small (h : ∃ r, x.requested_max_batch_size = some r ∧ r ≤ 1) :
    x.Within memory_gb layers (unclamped x.requested_max_batch_size) := by
  obtain ⟨r, hr, hle⟩ := h
  intro l _ _
  rw [hr]
  exact hle.trans (le_max_left _ _)

theorem batch_size_small (h : ∃ r, x.requested_max_batch_size = some r ∧ r ≤ 1) :
    x.batch_size memory_gb layers = unclamped x.requested_max_batch_size := by
  unfold batch_size
  by_cases hfree : (∀ l, x.max_sequence_len = some l → l = 0) ∨ x.cache_tokens memory_gb layers = 0
  · exact derive_unclamped hfree
  · obtain ⟨hlen, htokens⟩ := not_or.mp hfree
    push_neg at hlen
    obtain ⟨l, hl, hne⟩ := hlen
    rw [hl, derive_clamped _ hne htokens]
    exact clamp_small h _

theorem monotoneBounded_iff (hmemory : 0 ≤ memory_gb) (hmemory' : memory_gb ≤ memory_gb')
    (hlayers' : 0 < layers') (hlayers : layers' ≤ layers) :
    x.MonotoneBounded memory_gb memory_gb' layers layers' (x.batch_size memory_gb layers)
      (x.batch_size memory_gb' layers') ↔ x.Clamps memory_gb layers := by
  have hpos : 0 < layers := hlayers'.trans_le hlayers
  have htokens := cache_tokens_ne_zero_iff (x := x) hmemory hpos
  have hgrow := cache_tokens_mono (x := x) hmemory hmemory' hlayers' hlayers
  have hnonneg : 0 ≤ x.cache_tokens memory_gb layers := cache_tokens_nonneg
  constructor
  · rintro ⟨_, hwithin, _⟩
    unfold Clamps
    by_contra hcon
    obtain ⟨hsmall, hrest⟩ := not_or.mp hcon
    obtain ⟨hlen, hmany⟩ := not_or.mp hrest
    push_neg at hlen
    obtain ⟨l, hl, hne⟩ := hlen
    have hzero : x.cache_tokens memory_gb layers = 0 := by
      by_contra hcache
      exact hsmall (htokens.mp hcache)
    exact unclamped_not_within hl hne hzero hmany hwithin
  · rintro (hholds | hlen | hfew)
    · have hcache := htokens.mpr hholds
      have hcache' : x.cache_tokens memory_gb' layers' ≠ 0 := by omega
      refine ⟨?_, batch_size_within hcache, batch_size_within hcache'⟩
      unfold batch_size
      by_cases hfree : ∀ l, x.max_sequence_len = some l → l = 0
      · rw [derive_unclamped (Or.inl hfree), derive_unclamped (Or.inl hfree)]
      · push_neg at hfree
        obtain ⟨l, hl, hne⟩ := hfree
        have hl0 := x.len_nonneg l hl
        rw [hl, derive_clamped _ hne hcache, derive_clamped _ hne hcache']
        refine clamp_mono _ (max_le_max_left 1 ?_)
        rw [Int.fdiv_eq_ediv_of_nonneg _ hl0, Int.fdiv_eq_ediv_of_nonneg _ hl0]
        exact Int.ediv_le_ediv (lt_of_le_of_ne hl0 (Ne.symm hne)) hgrow
    · refine ⟨?_, ?_, ?_⟩
      · unfold batch_size
        rw [derive_unclamped (Or.inl hlen), derive_unclamped (Or.inl hlen)]
      · exact fun l hl hne => absurd (hlen l hl) hne
      · exact fun l hl hne => absurd (hlen l hl) hne
    · rw [batch_size_small hfew, batch_size_small hfew]
      exact ⟨le_rfl, within_small hfew, within_small hfew⟩

end CacheShape

/-! ## Nodes -/

/-- The node's limit comes from an estimate: the node has layers, and its limit is not forced. -/
structure EstimatedBy (n : Node) (x : CacheShape) (memory_gb : Rat) (layers : Int) : Prop where
  unforced : n.force_max_concurrent_requests = false
  allocated : n.is_allocated = true
  requested : n.max_concurrent_requests = x.requested_max_batch_size
  sequence_len : n.max_sequence_length = x.max_sequence_len
  fraction : n.kvcache_mem_ratio = x.kv_cache_memory_fraction
  heads : n.model_info.num_kv_heads = x.num_key_value_heads
  dims : n.model_info.head_size_k = x.head_dim_k ∧ n.model_info.head_size_v = x.head_dim_v
  elem : x.elem_bytes = 2
  memory : n.hardware.memory_gb = memory_gb
  layers : n.num_current_layers = layers

theorem max_requests_estimated {n : Node} {x : CacheShape} {memory_gb : Rat} {layers limit : Int}
    (h : EstimatedBy n x memory_gb layers) (hlayers : 0 < layers)
    (hlimit : n.max_requests = .ok limit) : limit = x.batch_size memory_gb layers := by
  have hspec : x.estimate memory_gb layers = .ok (x.batch_size memory_gb layers) :=
    CacheShape.estimate.spec hlayers
  unfold CacheShape.estimate at hspec
  unfold Node.max_requests at hlimit
  rw [h.unforced, h.allocated, h.requested, h.sequence_len, h.fraction, h.heads, h.dims.1, h.dims.2,
    h.memory, h.layers, ← h.elem, hspec] at hlimit
  simp only [Bool.not_true, Bool.false_eq_true, if_false] at hlimit
  change (if x.batch_size memory_gb layers ≤ 0 then _ else _) = _ at hlimit
  split at hlimit
  · cases hlimit
  · cases hr : x.requested_max_batch_size with
    | none =>
      rw [hr] at hlimit
      cases hlimit
      rfl
    | some r =>
      rw [hr] at hlimit
      cases hlimit
      -- The estimate is clamped by the same number already.
      have hle : x.batch_size memory_gb layers ≤ r := by
        unfold CacheShape.batch_size derive_max_batch_size
        rw [hr]
        dsimp only
        split
        · cases ‹some r = none›
        · cases ‹some r = none›
        · rename_i heq _
          cases heq
          exact min_le_left _ _
        · rename_i heq _
          cases heq
          exact le_rfl
      exact min_eq_right hle

/-- For two caches of which the second has no less memory and no more layers, the estimates are
monotone and bounded just when the first one holds a token, or there is nothing to clamp. The
limits of nodes follow the estimates. -/
theorem estimates_monotone_bounded_iff (x : CacheShape) (memory_gb memory_gb' : Rat)
    (layers layers' : Int) (hmemory : 0 ≤ memory_gb) (hmemory' : memory_gb ≤ memory_gb')
    (hlayers' : 0 < layers') (hlayers : layers' ≤ layers) :
    (∃ size size', x.estimate memory_gb layers = .ok size ∧ x.estimate memory_gb' layers' = .ok size' ∧
      (x.MonotoneBounded memory_gb memory_gb' layers layers' size size' ↔ x.Clamps memory_gb layers)) ∧
    ∀ n n' limit limit', EstimatedBy n x memory_gb layers → EstimatedBy n' x memory_gb' layers' →
      n.max_requests = .ok limit → n'.max_requests = .ok limit' →
      (x.MonotoneBounded memory_gb memory_gb' layers layers' limit limit' ↔ x.Clamps memory_gb layers) := by
  have hpos : 0 < layers := hlayers'.trans_le hlayers
  have hiff := CacheShape.monotoneBounded_iff (x := x) hmemory hmemory' hlayers' hlayers
  refine ⟨⟨_, _, CacheShape.estimate.spec hpos, CacheShape.estimate.spec hlayers', hiff⟩, ?_⟩
  intro n n' limit limit' hn hn' hlimit hlimit'
  rw [max_requests_estimated hn hpos hlimit, max_requests_estimated hn' hlayers' hlimit']
  exact hiff

/-- Sixteen requests of 4096 tokens, with eight heads of 128. -/
def long_sequences : CacheShape where
  requested_max_batch_size := some 16
  max_sequence_len := some 4096
  kv_cache_memory_fraction := 3 / 10
  num_key_value_heads := 8
  elem_bytes := 2
  head_dim_k := 128
  head_dim_v := 128
  fraction_nonneg := by norm_num
  heads_pos := by decide
  elem_pos := by decide
  dims_pos := by decide
  len_nonneg := by rintro _ ⟨⟩; decide

/-- With 8 and 16 GB, and with 32 and 16 layers. -/
theorem gigabytes_are_monotone : ∃ size size', long_sequences.estimate 8 32 = .ok size ∧
    long_sequences.estimate 16 16 = .ok size' ∧
    long_sequences.MonotoneBounded 8 16 32 16 size size' := by
  obtain ⟨⟨size, size', hsize, hsize', hiff⟩, _⟩ := estimates_monotone_bounded_iff long_sequences
    8 16 32 16 (by norm_num) (by norm_num) (by decide) (by decide)
  refine ⟨size, size', hsize, hsize', hiff.mpr (Or.inl ?_)⟩
  decide +kernel

/-- Without memory the estimate is sixteen requests, and with a hundredth of a GB it is one. -/
theorem empty_cache_is_not_clamped :
    ¬ ∀ (x : CacheShape) (memory_gb memory_gb' : Rat) (layers layers' size size' : Int),
      0 ≤ memory_gb → memory_gb ≤ memory_gb' → 0 < layers' → layers' ≤ layers →
      x.estimate memory_gb layers = .ok size → x.estimate memory_gb' layers' = .ok size' →
      x.MonotoneBounded memory_gb memory_gb' layers layers' size size' := by
  intro hall
  have h := hall long_sequences 0 (1 / 100) 32 32 16 1 (by norm_num) (by norm_num) (by decide)
    (by decide) (by decide +kernel) (by decide +kernel)
  exact absurd h.mono (by decide)

end scheduling.node
