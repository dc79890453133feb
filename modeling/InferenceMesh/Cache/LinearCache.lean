-- The cache of a linear-attention layer (parallax/server/cache/linear_cache.py):
-- a convolution state and a recurrent state for each slot.
import Mathlib

namespace parallax.server.cache.linear_cache

universe u v

/-- The states of the slots: the last inputs of the convolution, and the recurrent state. -/
structure LinearCache (C : Type u) (S : Type v) where
  conv_state_cache : Nat → List C
  linear_state_cache : Nat → S

namespace LinearCache

variable {C : Type u} {S : Type v} (cache : LinearCache C S)

def read_states (slot_mapping : List Nat) : List (List C × S) :=
  slot_mapping.map (fun slot_idx =>
    (cache.conv_state_cache slot_idx, cache.linear_state_cache slot_idx))

def write_slot (slot_idx : Nat) (conv_state : List C) (linear_state : S) : LinearCache C S where
  conv_state_cache := Function.update cache.conv_state_cache slot_idx conv_state
  linear_state_cache := Function.update cache.linear_state_cache slot_idx linear_state

/-- Writes the states of a batch, one request after the other. -/
def write_states : List Nat → List (List C × S) → LinearCache C S → LinearCache C S
  | slot_idx :: slots, (conv_state, linear_state) :: states, cache =>
    write_states slots states (cache.write_slot slot_idx conv_state linear_state)
  | _, _, cache => cache

/-- What an allocation does to the slot of its request: all zeros. -/
def zero_slot (conv_state_len : Nat) (no_input : C) (no_state : S) (slot_idx : Nat) :
    LinearCache C S :=
  cache.write_slot slot_idx (List.replicate conv_state_len no_input) no_state

/-- What a slot holds. -/
def slot (slot_idx : Nat) : List C × S :=
  (cache.conv_state_cache slot_idx, cache.linear_state_cache slot_idx)

variable {cache}

theorem slot_write_self (slot_idx : Nat) (state : List C × S) :
    (cache.write_slot slot_idx state.1 state.2).slot slot_idx = state := by
  simp [slot, write_slot]

theorem slot_write_ne {slot_idx other : Nat} (h : other ≠ slot_idx) (state : List C × S) :
    (cache.write_slot slot_idx state.1 state.2).slot other = cache.slot other := by
  simp [slot, write_slot, h]

theorem write_states_other (slots : List Nat) (states : List (List C × S)) {other : Nat}
    (h : other ∉ slots) : (write_states slots states cache).slot other = cache.slot other := by
  induction slots generalizing states cache with
  | nil => rfl
  | cons slot_idx slots ih =>
    rw [List.mem_cons, not_or] at h
    rcases states with _ | ⟨state, states⟩
    · rfl
    · show (write_states slots states (cache.write_slot slot_idx state.1 state.2)).slot other = _
      rw [ih states h.2, slot_write_ne h.1]

/-- With a slot for each request, each slot holds the states of its request. -/
theorem write_states.spec {slots : List Nat} (hnodup : slots.Nodup) (states : List (List C × S))
    {i : Nat} (hi : i < slots.length) (hi' : i < states.length) :
    (write_states slots states cache).slot slots[i] = states[i] := by
  induction slots generalizing states cache i with
  | nil => simp at hi
  | cons slot_idx slots ih =>
    obtain ⟨hnot, hnodup⟩ := List.nodup_cons.mp hnodup
    rcases states with _ | ⟨state, states⟩
    · simp at hi'
    · show (write_states slots states (cache.write_slot slot_idx state.1 state.2)).slot _ = _
      cases i with
      | zero =>
        simp only [List.getElem_cons_zero]
        rw [write_states_other slots states hnot, slot_write_self]
      | succ i =>
        simp only [List.getElem_cons_succ]
        exact ih hnodup states (by simpa using hi) (by simpa using hi')

end LinearCache

end parallax.server.cache.linear_cache
