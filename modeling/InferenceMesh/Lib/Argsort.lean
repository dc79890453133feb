-- The stable order of the positions of a row by their keys. A position with
-- the least key comes first, and of two equal keys the one that stands first.
import Mathlib.Data.List.FinRange
import Mathlib.Data.List.MinMax

namespace argsort

variable {K : Type*} [LinearOrder K] {n : Nat}

/-- The positions of a row, from the least key to the largest. -/
def argsort (key : Fin n → K) : List (Fin n) :=
  (List.finRange n).mergeSort (fun i j => decide (key i ≤ key j))

/-- The first of the positions with the largest value. -/
def argmax (x : Fin n → K) : Option (Fin n) := (List.finRange n).argmax x

theorem argsort_perm (key : Fin n → K) : (argsort key).Perm (List.finRange n) :=
  List.mergeSort_perm _ _

theorem length_argsort (key : Fin n → K) : (argsort key).length = n := by
  rw [(argsort_perm key).length_eq, List.length_finRange]

theorem nodup_argsort (key : Fin n → K) : (argsort key).Nodup :=
  (argsort_perm key).nodup_iff.mpr (List.nodup_finRange n)

theorem pairwise_argsort (key : Fin n → K) :
    (argsort key).Pairwise (fun i j => key i ≤ key j) := by
  have htrans : ∀ a b c : Fin n, decide (key a ≤ key b) = true → decide (key b ≤ key c) = true →
      decide (key a ≤ key c) = true := by
    intro a b c hab hbc
    simp only [decide_eq_true_eq] at *
    exact hab.trans hbc
  have htotal : ∀ a b : Fin n, (decide (key a ≤ key b) || decide (key b ≤ key a)) = true := by
    intro a b
    simpa using le_total (key a) (key b)
  exact (List.pairwise_mergeSort htrans htotal _).imp of_decide_eq_true

/-- Of two positions with equal keys, the first one stays in front. -/
theorem argsort_stable (key : Fin n → K) {a b : Fin n} (hab : a < b) (hkey : key a ≤ key b) :
    [a, b].Sublist (argsort key) := by
  refine List.pair_sublist_mergeSort ?_ ?_ (decide_eq_true hkey) ?_
  · intro a b c hab hbc
    simp only [decide_eq_true_eq] at *
    exact hab.trans hbc
  · intro a b
    simpa using le_total (key a) (key b)
  · have hpair := List.pairwise_lt_finRange n
    obtain ⟨l₁, l₂, hsplit⟩ := List.append_of_mem (List.mem_finRange a)
    rw [hsplit]
    have hb : b ∈ l₂ := by
      have hmem : b ∈ l₁ ++ a :: l₂ := hsplit ▸ List.mem_finRange b
      rw [hsplit, List.pairwise_append] at hpair
      rcases List.mem_append.mp hmem with h | h
      · exact absurd (hpair.2.2 b h a List.mem_cons_self) (not_lt.mpr hab.le)
      · exact (List.mem_cons.mp h).resolve_left hab.ne'
    exact List.Sublist.trans (List.Sublist.cons_cons a (List.singleton_sublist.mpr hb))
      (List.sublist_append_right l₁ _)

/-- The order by falling values starts with the first of the largest. -/
theorem head_argsort {key x : Fin n → K} (h : ∀ i j, key i ≤ key j ↔ x j ≤ x i) :
    (argsort key).head? = argmax x := by
  rcases hsort : argsort key with _ | ⟨m, rest⟩
  · obtain rfl : n = 0 := by simpa [hsort] using (length_argsort key).symm
    rfl
  · have hpair := pairwise_argsort key
    have hnodup := nodup_argsort key
    rw [hsort, List.pairwise_cons] at hpair
    rw [hsort, List.nodup_cons] at hnodup
    symm
    refine List.argmax_eq_some_iff.mpr ⟨List.mem_finRange m, ?_, ?_⟩
    · intro a ha
      rcases List.mem_cons.mp (hsort ▸ (argsort_perm key).mem_iff.mpr ha) with rfl | htail
      · exact le_refl _
      · exact (h m a).mp (hpair.1 a htail)
    · intro a _ hle
      rw [List.idxOf_finRange, List.idxOf_finRange]
      by_contra hlt
      -- An equal value further left would stand in front.
      have hsub := argsort_stable key (a := a) (b := m) (by omega) ((h a m).mpr hle)
      rw [hsort] at hsub
      cases hsub with
      | cons _ htail => exact hnodup.1 (htail.subset (by simp))
      | cons_cons _ htail => omega

end argsort
