-- Stages with a memory: each output of a stage depends on all inputs up to it.
-- Stages in a row are one stage, and a stage that feeds its outputs back to
-- itself makes one list, which is determined by its prefixes.
import Mathlib

namespace causal_stages

variable {α β γ : Type*}

/-! ## One stage -/

/-- What a stage makes of its inputs, one after the other. -/
def outputs (f : List α → β) (xs : List α) : List β :=
  (List.range xs.length).map (fun t => f (xs.take (t + 1)))

@[simp] theorem outputs_nil (f : List α → β) : outputs f [] = [] := rfl

@[simp] theorem outputs_length (f : List α → β) (xs : List α) :
    (outputs f xs).length = xs.length := by
  unfold outputs
  rw [List.length_map, List.length_range]

theorem outputs_getElem? {f : List α → β} {xs : List α} {t : Nat} (ht : t < xs.length) :
    (outputs f xs)[t]? = some (f (xs.take (t + 1))) := by
  unfold outputs
  rw [List.getElem?_map, List.getElem?_range ht, Option.map_some]

/-- The first outputs are those of the first inputs. -/
theorem outputs_take (f : List α → β) (xs : List α) (n : Nat) :
    outputs f (xs.take n) = (outputs f xs).take n := by
  apply List.ext_getElem?
  intro t
  by_cases ht : t < (xs.take n).length
  · have hlt : t < n ∧ t < xs.length := by
      rw [List.length_take] at ht
      omega
    rw [outputs_getElem? ht, List.getElem?_take_of_lt hlt.1, outputs_getElem? hlt.2, List.take_take,
      Nat.min_eq_left (by omega)]
  · rw [List.length_take] at ht
    rw [List.getElem?_eq_none (by rw [outputs_length, List.length_take]; omega),
      List.getElem?_eq_none (by rw [List.length_take, outputs_length]; omega)]

theorem outputs_concat (f : List α → β) (xs : List α) (x : α) :
    outputs f (xs ++ [x]) = outputs f xs ++ [f (xs ++ [x])] := by
  have hall : (xs ++ [x]).take (xs.length + 1) = xs ++ [x] :=
    List.take_of_length_le (by simp)
  unfold outputs
  rw [List.length_append, List.length_singleton, List.range_succ, List.map_append, List.map_singleton,
    hall]
  congr 1
  apply List.map_congr_left
  intro t ht
  rw [List.take_append_of_le_length (List.mem_range.mp ht)]

/-- The stage that passes its last input on. -/
theorem outputs_last (a : α) (xs : List α) : outputs (fun xs => xs.getLastD a) xs = xs := by
  induction xs using List.reverseRecOn with
  | nil => rfl
  | append_singleton xs x ih => rw [outputs_concat, ih, List.getLastD_concat]

theorem outputs_map (g : β → γ) (f : List α → β) (xs : List α) :
    outputs (fun xs => g (f xs)) xs = (outputs f xs).map g := by
  unfold outputs
  rw [List.map_map]
  rfl

/-! ## Stages in a row -/

/-- One stage after the other, as one stage. -/
def compose (g : List β → γ) (f : List α → β) (xs : List α) : γ := g (outputs f xs)

theorem outputs_compose (g : List β → γ) (f : List α → β) (xs : List α) :
    outputs (compose g f) xs = outputs g (outputs f xs) := by
  induction xs using List.reverseRecOn with
  | nil => rfl
  | append_singleton xs x ih =>
    rw [outputs_concat, outputs_concat, outputs_concat, ih]
    unfold compose
    rw [outputs_concat]

theorem compose_assoc {δ : Type*} (h : List γ → δ) (g : List β → γ) (f : List α → β) :
    compose (compose h g) f = compose h (compose g f) := by
  funext xs
  unfold compose
  rw [← outputs_compose]
  rfl

/-- The stage that passes its last input on, in front of another. -/
theorem compose_last (g : List α → β) (a : α) : compose g (fun xs => xs.getLastD a) = g := by
  funext xs
  unfold compose
  rw [outputs_last]

theorem outputs_inputs (g : α → β) (f : List β → γ) (xs : List α) :
    outputs f (xs.map g) = outputs (fun xs => f (xs.map g)) xs := by
  unfold outputs
  rw [List.length_map]
  apply List.map_congr_left
  intro t _
  exact congrArg f List.map_take.symm

/-! ## Chunks -/

/-- What a stage makes of the last of several chunks of inputs. -/
def last_chunk (f : List α → β) (chunks : List (List α)) : List β :=
  (outputs f chunks.flatten).rtake (chunks.getLastD []).length

/-- Chunk by chunk a stage makes what it makes of all inputs. -/
theorem outputs_chunks (f : List α → β) (chunks : List (List α)) :
    (outputs (last_chunk f) chunks).flatten = outputs f chunks.flatten := by
  induction chunks using List.reverseRecOn with
  | nil => rfl
  | append_singleton chunks chunk ih =>
    have hbefore : outputs f chunks.flatten =
        (outputs f (chunks.flatten ++ chunk)).take chunks.flatten.length := by
      rw [← outputs_take, List.take_left]
    have hlength : (outputs f (chunks.flatten ++ chunk)).length - chunk.length =
        chunks.flatten.length := by
      rw [outputs_length, List.length_append, Nat.add_sub_cancel]
    rw [outputs_concat, List.flatten_append, ih]
    unfold last_chunk
    rw [List.getLastD_concat, List.flatten_append, List.flatten_singleton, List.flatten_singleton,
      List.rtake, hlength, hbefore, List.take_append_drop]

/-! ## Feedback -/

/-- The first `n` items of a list in which each item is made of those before it. -/
def unroll (f : List α → α) : Nat → List α
  | 0 => []
  | n + 1 => unroll f n ++ [f (unroll f n)]

@[simp] theorem unroll_length (f : List α → α) (n : Nat) : (unroll f n).length = n := by
  induction n with
  | zero => rfl
  | succ n ih => rw [unroll, List.length_append, ih, List.length_singleton]

theorem unroll_starts (f : List α → α) {m n : Nat} (h : m ≤ n) : unroll f m <+: unroll f n := by
  induction n, h using Nat.le_induction with
  | base => exact List.prefix_rfl
  | succ n _ ih => exact ih.trans (List.prefix_append _ _)

/-- A list in which each item is made of those before it is the only one. -/
theorem eq_unroll {f : List α → α} {ys : List α}
    (h : ∀ (t : Nat) (y : α), ys[t]? = some y → y = f (ys.take t)) : ys = unroll f ys.length := by
  induction ys using List.reverseRecOn with
  | nil => rfl
  | append_singleton ys y ih =>
    have hys : ys = unroll f ys.length := by
      refine ih (fun t y' hy' => ?_)
      have hlt := (List.getElem?_eq_some_iff.mp hy').1
      have hitem := h t y' (by rw [List.getElem?_append_left hlt]; exact hy')
      rwa [List.take_append_of_le_length (le_of_lt hlt)] at hitem
    have hlast := h ys.length y List.getElem?_concat_length
    rw [List.take_left] at hlast
    rw [List.length_append, List.length_singleton, unroll, ← hys, ← hlast]

end causal_stages
