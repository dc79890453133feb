-- A pool of items split into a free list and a set of used items. Taking
-- from the free list and giving back keep the split, whatever the order.
import Mathlib

set_option linter.unusedSectionVars false

namespace free_list

variable {α : Type*} [DecidableEq α]

/-- Every item of the pool is free or used, and none is both. No item stands
twice in the free list. -/
structure Split (pool : Finset α) (free : List α) (used : Finset α) : Prop where
  nodup : free.Nodup
  disjoint : ∀ x ∈ free, x ∉ used
  cover : ∀ x, x ∈ pool ↔ x ∈ free ∨ x ∈ used

namespace Split

variable {pool : Finset α} {free : List α} {used : Finset α}

/-- With nothing used, the free list holds the pool. -/
theorem start {l : List α} (h : l.Nodup) : Split l.toFinset l ∅ :=
  ⟨h, fun _ _ hx => absurd hx (Finset.notMem_empty _), fun x => by simp⟩

theorem used_mem (h : Split pool free used) {x : α} (hx : x ∈ used) : x ∈ pool :=
  (h.cover x).mpr (Or.inr hx)

/-- The used set after the items of a list went into it, one by one. -/
theorem mem_foldl_insert (l : List α) (used : Finset α) (x : α) :
    x ∈ l.foldl (fun u y => insert y u) used ↔ x ∈ l ∨ x ∈ used := by
  induction l generalizing used with
  | nil => simp
  | cons y rest ih =>
    rw [List.foldl_cons, ih, Finset.mem_insert, List.mem_cons]
    tauto

/-- The end of the free list moves into the used set. -/
theorem take (h : Split pool free used) (n : Nat) :
    Split pool (free.take n) ((free.drop n).foldl (fun u y => insert y u) used) := by
  have happ : free.take n ++ free.drop n = free := List.take_append_drop n free
  refine ⟨h.nodup.sublist (List.take_sublist n free), ?_, ?_⟩
  · intro x hx hu
    rcases (mem_foldl_insert _ _ _).mp hu with hd | hu
    · have hn := h.nodup
      rw [← happ, List.nodup_append] at hn
      exact hn.2.2 x hx x hd rfl
    · exact h.disjoint x (List.mem_of_mem_take hx) hu
  · intro x
    rw [h.cover, mem_foldl_insert]
    conv_lhs => rw [← happ, List.mem_append]
    tauto

theorem take_nodup (h : Split pool free used) (n : Nat) : (free.drop n).Nodup :=
  h.nodup.sublist (List.drop_sublist n free)

/-- The items taken were not used before. -/
theorem take_fresh (h : Split pool free used) (n : Nat) {x : α} (hx : x ∈ free.drop n) :
    x ∉ used := h.disjoint x (List.mem_of_mem_drop hx)

/-- One used item goes back to the end of the free list. -/
theorem give (h : Split pool free used) {x : α} (hx : x ∈ used) :
    Split pool (free ++ [x]) (used.erase x) := by
  have hnot : x ∉ free := fun hf => h.disjoint x hf hx
  refine ⟨?_, ?_, ?_⟩
  · exact List.Nodup.append h.nodup (List.nodup_singleton x) (by simpa using hnot)
  · intro y hy hu
    rcases List.mem_append.mp hy with hy | hy
    · exact h.disjoint y hy (Finset.mem_of_mem_erase hu)
    · exact Finset.ne_of_mem_erase hu (List.mem_singleton.mp hy)
  · intro y
    rw [h.cover, List.mem_append, List.mem_singleton, Finset.mem_erase]
    by_cases hy : y = x
    · subst hy; simp [hx]
    · simp [hy]

end Split

/-- One turn of the loop that gives items back: an item that is not used stays out. -/
def giveOne (s : List α × Finset α) (x : α) : List α × Finset α :=
  if x ∈ s.2 then (s.1 ++ [x], s.2.erase x) else s

theorem Split.giveOne {pool : Finset α} {s : List α × Finset α} (h : Split pool s.1 s.2) (x : α) :
    Split pool (giveOne s x).1 (giveOne s x).2 := by
  unfold free_list.giveOne
  split
  · exact h.give ‹_›
  · exact h

theorem Split.giveAll {pool : Finset α} (l : List α) {s : List α × Finset α}
    (h : Split pool s.1 s.2) :
    Split pool (l.foldl free_list.giveOne s).1 (l.foldl free_list.giveOne s).2 := by
  induction l generalizing s with
  | nil => exact h
  | cons x rest ih => exact ih (h.giveOne x)

/-- After a list went back, no item of the list is used. -/
theorem mem_giveAll (l : List α) (s : List α × Finset α) (x : α) :
    x ∈ (l.foldl giveOne s).2 ↔ x ∈ s.2 ∧ x ∉ l := by
  induction l generalizing s with
  | nil => simp
  | cons y rest ih =>
    rw [List.foldl_cons, ih, List.mem_cons, not_or]
    unfold giveOne
    split
    · rw [Finset.mem_erase]; tauto
    · rename_i hy
      constructor
      · rintro ⟨hx, hr⟩
        exact ⟨hx, fun he => hy (he ▸ hx), hr⟩
      · rintro ⟨hx, _, hr⟩
        exact ⟨hx, hr⟩

/-- Used items with no repeat all go back, in their order. -/
theorem giveAll_free (l : List α) (s : List α × Finset α) (hl : l.Nodup) (hu : ∀ x ∈ l, x ∈ s.2) :
    (l.foldl giveOne s).1 = s.1 ++ l := by
  induction l generalizing s with
  | nil => simp
  | cons y rest ih =>
    obtain ⟨hy, hrest⟩ := List.nodup_cons.mp hl
    have hone : giveOne s y = (s.1 ++ [y], s.2.erase y) := by
      simp [giveOne, hu y List.mem_cons_self]
    rw [List.foldl_cons, hone, ih _ hrest]
    · simp
    · intro x hx
      exact Finset.mem_erase.mpr ⟨fun he => hy (he ▸ hx), hu x (List.mem_cons_of_mem _ hx)⟩

end free_list
