-- What the models take from MLX: the rotary embedding, the causal mask with a
-- window and the fused attention. They are functions that the models are given,
-- with what the models rely on.
import InferenceMesh.Kernel.GptOss
import InferenceMesh.Utils.Masks

open online_softmax parallax.metal.paged_attention parallax.utils

namespace mlx

set_option linter.unusedSectionVars false

variable {K : Type} [Field K] [LinearOrder K]

/-- An array of shape (batch, target_len, heads, dim) in row-major order, given by row, head, token
and dimension. -/
def flat_rows (heads dim target_len : Nat) (rows : Nat → Nat → Nat → Nat → K) (n : Nat) : K :=
  let token := n / dim / heads
  rows (token / target_len) (n / dim % heads) (token % target_len) (n % dim)

theorem flat_rows_at {heads dim head i : Nat} (target_len : Nat)
    (rows : Nat → Nat → Nat → Nat → K) (token : Nat) (hh : head < heads) (hi : i < dim) :
    flat_rows heads dim target_len rows (token * heads * dim + head * dim + i) =
      rows (token / target_len) head (token % target_len) i := by
  have hflat : token * heads * dim + head * dim + i = dim * (heads * token + head) + i := by ring
  have hdiv : (dim * (heads * token + head) + i) / dim = heads * token + head := by
    rw [Nat.mul_add_div (by omega), Nat.div_eq_of_lt hi, Nat.add_zero]
  have hmod : (dim * (heads * token + head) + i) % dim = i := by
    rw [Nat.mul_add_mod, Nat.mod_eq_of_lt hi]
  have hdiv' : (heads * token + head) / heads = token := by
    rw [Nat.mul_add_div (by omega), Nat.div_eq_of_lt hh, Nat.add_zero]
  have hmod' : (heads * token + head) % heads = head := by
    rw [Nat.mul_add_mod, Nat.mod_eq_of_lt hh]
  rw [flat_rows, hflat, hdiv, hmod, hdiv', hmod']

/-- The arguments of the attention for one row of a batch. Queries, keys and values are given by
head, token and dimension. -/
structure AttentionInput (K : Type) where
  num_heads : Nat
  num_kv_heads : Nat
  head_dim : Nat
  target_len : Nat
  queries : Nat → Nat → Nat → K
  keys : Nat → Nat → Nat → K
  values : Nat → Nat → Nat → K
  scale : K
  mask : Nat → Nat → K
  sinks : Option (Nat → WithBot K)

/-- The functions. The embedding takes the rows of a sequence, the first of them at `offset`. -/
structure Library (K : Type) where
  rope : (offset : Nat) → (rows : Nat → Nat → K) → Nat → Nat → K
  create_causal_mask : (target_len : Nat) → (window_size : Int) → Nat → Nat → Bool
  scaled_dot_product_attention : AttentionInput K → Nat → Nat → Nat → K

namespace AttentionInput

def kv_head (s : AttentionInput K) (head : Nat) : Nat := head / (s.num_heads / s.num_kv_heads)

def score (s : AttentionInput K) (head t p : Nat) : K :=
  (∑ j ∈ Finset.range s.head_dim, s.queries head t j * s.keys (s.kv_head head) p j) * s.scale

/-- The sink of a head, minus infinity without sinks. -/
def sink (s : AttentionInput K) (head : Nat) : WithBot K :=
  match s.sinks with
  | none => ⊥
  | some sinks => sinks head

/-- The positions that the mask lets a row attend to. -/
def kept (s : AttentionInput K) (t : Nat) : List Nat :=
  (List.range s.target_len).filter (fun p => s.mask t p = 0)

end AttentionInput

/-- The embedding of a row depends on its position only. -/
def RotatesByPosition (lib : Library K) : Prop :=
  ∀ offset rows t, lib.rope offset rows t = lib.rope (offset + t) (fun _ => rows t) 0

/-- The causal mask with a window keeps the positions that the kernel's window test keeps. -/
def WindowsLikeKernel (lib : Library K) : Prop :=
  ∀ target_len window_size i j, lib.create_causal_mask target_len window_size i j = true ↔
    j ≤ i ∧ gpt_oss.token_out window_size (i + 1) j = false

/-- The attention is the softmax average over the positions that the mask keeps, with the sink in
the normaliser. A position is masked out by a mask of minus infinity, for which the floats of the
masks stand. -/
def AttendsWithMask (lib : Library K) (e : Exp K) : Prop :=
  ∀ (s : AttentionInput K) (head t i : Nat), head < s.num_heads → t < s.target_len →
    s.kept t ≠ [] →
    (∀ p, p < s.target_len → s.mask t p = 0 ∨ s.mask t p ≤ -least_infinite) →
    lib.scaled_dot_product_attention s head t i =
      attend e (s.sink head) (s.kept t) (s.score head t) (fun p => s.values (s.kv_head head) p i)

/-! ## The functions, on real numbers -/

/-- The embedding in two dimensions turns a vector by the angle of its position. -/
noncomputable def turn (p : Nat) (v : Nat → ℝ) (i : Nat) : ℝ :=
  if i = 0 then Real.cos p * v 0 - Real.sin p * v 1 else Real.sin p * v 0 + Real.cos p * v 1

noncomputable def real_exp : Exp ℝ := ⟨Real.exp, Real.exp_add, Real.exp_pos⟩

noncomputable def real_library : Library ℝ where
  rope := fun offset rows t => turn (offset + t) (rows t)
  create_causal_mask := fun _ window_size i j =>
    j ≤ i && !gpt_oss.token_out window_size (i + 1) j
  scaled_dot_product_attention := fun s head t i =>
    attend real_exp (s.sink head) (s.kept t) (s.score head t)
      (fun p => s.values (s.kv_head head) p i)

theorem real_library_rotates : RotatesByPosition real_library := fun _ _ _ => rfl

theorem real_library_windows : WindowsLikeKernel real_library := by
  intro target_len window_size i j
  simp [real_library]

theorem real_library_attends : AttendsWithMask real_library real_exp := fun _ _ _ _ _ _ _ _ => rfl

end mlx
