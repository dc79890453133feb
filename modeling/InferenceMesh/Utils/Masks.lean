-- The masks of a prefill batch (parallax/utils/utils.py, `create_causal_mask`,
-- `combine_padding_and_causal_masks` and the mask of `pad_inputs`).
import Mathlib

namespace parallax.utils

set_option linter.unusedSectionVars false

inductive Dtype where
  | bfloat16
  | float16
  | float32
  deriving DecidableEq

variable {K : Type} [Field K] [LinearOrder K] [IsStrictOrderedRing K]

def get_infinite_value_by_dtype (dtype : Dtype) : K :=
  match dtype with
  | .bfloat16 | .float32 => (10 ^ 9 : Nat)
  | .float16 => (60000 : Nat)

/-- The causal mask of a prefill batch: minus infinity above the diagonal. -/
def create_causal_mask (dtype : Dtype) (i j : Nat) : K :=
  if j ≥ i + 1 then -get_infinite_value_by_dtype dtype else 0

/-- The mask of the padded rows: one for each token, zero for the padding. -/
def padding_mask (lengths : List Nat) (b j : Nat) : K :=
  if j < lengths[b]?.getD 0 then 1 else 0

def combine_padding_and_causal_masks (dtype : Dtype) (padding_mask : Nat → Nat → K)
    (causal_mask : Nat → Nat → K) (b i j : Nat) : K :=
  causal_mask i j + (padding_mask b j - 1) * get_infinite_value_by_dtype dtype

/-- The mask that the executor gives a prefill batch. -/
def prefill_mask (dtype : Dtype) (lengths : List Nat) : Nat → Nat → Nat → K :=
  combine_padding_and_causal_masks dtype (padding_mask lengths) (create_causal_mask dtype)

/-! ## What the mask keeps -/

/-- The least of the values that stand for infinity. -/
def least_infinite : K := (60000 : Nat)

theorem least_infinite_le (dtype : Dtype) :
    (least_infinite : K) ≤ get_infinite_value_by_dtype dtype := by
  cases dtype <;> norm_num [least_infinite, get_infinite_value_by_dtype]

theorem infinite_pos (dtype : Dtype) : (0 : K) < get_infinite_value_by_dtype dtype :=
  lt_of_lt_of_le (by norm_num [least_infinite]) (least_infinite_le dtype)

/-- The mask is zero at the positions up to the row's own, padding left out. -/
theorem prefill_mask_kept (dtype : Dtype) {lengths : List Nat} {b i j len : Nat}
    (hlen : lengths[b]? = some len) (hj : j ≤ i) (hjl : j < len) :
    prefill_mask (K := K) dtype lengths b i j = 0 := by
  have hcausal : ¬ j ≥ i + 1 := by omega
  simp [prefill_mask, combine_padding_and_causal_masks, create_causal_mask, padding_mask, hlen,
    hjl, hcausal]

/-- Elsewhere it is minus infinity, or twice that. -/
theorem prefill_mask_masked (dtype : Dtype) {lengths : List Nat} {b i j len : Nat}
    (hlen : lengths[b]? = some len) (h : ¬ (j ≤ i ∧ j < len)) :
    prefill_mask (K := K) dtype lengths b i j ≤ -least_infinite := by
  have hle := least_infinite_le (K := K) dtype
  have hpos := infinite_pos (K := K) dtype
  simp only [prefill_mask, combine_padding_and_causal_masks, create_causal_mask, padding_mask,
    hlen, Option.getD_some]
  by_cases hj : j ≥ i + 1
  · by_cases hjl : j < len
    · simp only [hj, hjl, if_true, sub_self, zero_mul, add_zero]
      linarith
    · simp only [hj, hjl, if_true, if_false, zero_sub, neg_one_mul]
      linarith
  · have hjl : ¬ j < len := fun hlt => h ⟨by omega, hlt⟩
    simp only [hj, hjl, if_false, zero_sub, neg_one_mul, zero_add]
    linarith

end parallax.utils
