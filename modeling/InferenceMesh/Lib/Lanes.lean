-- Loops that the lanes of a group share out: lane `l` of `w` lanes takes the
-- indices l, l + w, l + 2w and so on. Together the lanes take each index once.
import Mathlib.Algebra.BigOperators.Group.Finset.Basic
import Mathlib.Algebra.BigOperators.Group.Finset.Piecewise
import Mathlib.Data.Nat.ModEq

namespace lanes

/-- The indices of one lane: `for (i = lane; i < n; i += w)`. -/
def strided (w lane n : Nat) : List Nat :=
  (List.range ((n - lane + w - 1) / w)).map (fun j => lane + w * j)

variable {w lane n : Nat}

theorem mem_strided (hl : lane < w) {i : Nat} : i ∈ strided w lane n ↔ i < n ∧ i % w = lane := by
  have hbound : ∀ j, j < (n - lane + w - 1) / w ↔ lane + w * j < n := by
    intro j
    rw [← Nat.succ_le_iff, Nat.le_div_iff_mul_le (by omega), Nat.succ_mul, Nat.mul_comm j w]
    omega
  simp only [strided, List.mem_map, List.mem_range, hbound]
  constructor
  · rintro ⟨j, hj, rfl⟩
    exact ⟨hj, by rw [Nat.add_mul_mod_self_left, Nat.mod_eq_of_lt hl]⟩
  · rintro ⟨hi, rfl⟩
    exact ⟨i / w, by rw [Nat.mod_add_div]; exact hi, Nat.mod_add_div i w⟩

theorem mem_own_strided (hw : 0 < w) {i : Nat} (hi : i < n) : i ∈ strided w (i % w) n :=
  (mem_strided (Nat.mod_lt i hw)).mpr ⟨hi, rfl⟩

/-- The indices of a lane stand at distinct places of the lane's array. -/
theorem nodup_strided_div (hl : lane < w) : ((strided w lane n).map (fun i => i / w)).Nodup := by
  have hw : 0 < w := by omega
  have hdiv : ∀ j, (lane + w * j) / w = j := by
    intro j
    rw [Nat.add_mul_div_left _ _ hw, Nat.div_eq_of_lt hl, Nat.zero_add]
  have hmap : (strided w lane n).map (fun i => i / w) = List.range ((n - lane + w - 1) / w) := by
    rw [strided, List.map_map]
    calc (List.range ((n - lane + w - 1) / w)).map ((fun i => i / w) ∘ fun j => lane + w * j)
        = (List.range ((n - lane + w - 1) / w)).map id := by
          apply List.map_congr_left
          intro j _
          exact hdiv j
      _ = _ := List.map_id _
  rw [hmap]
  exact List.nodup_range

theorem nodup_strided (hl : lane < w) : (strided w lane n).Nodup :=
  (nodup_strided_div hl).of_map _

theorem foldl_add {K β : Type*} [AddCommMonoid K] (f : β → K) (l : List β) (s : K) :
    l.foldl (fun s i => s + f i) s = s + (l.map f).sum := by
  induction l generalizing s with
  | nil => simp
  | cons i rest ih => rw [List.foldl_cons, ih, List.map_cons, List.sum_cons, add_assoc]

/-- The sums of all lanes add up to the sum over all indices. -/
theorem sum_strided {K : Type*} [AddCommMonoid K] (hw : 0 < w) (n : Nat) (f : Nat → K) :
    ∑ lane ∈ Finset.range w, ((strided w lane n).map f).sum = ∑ i ∈ Finset.range n, f i := by
  have hlane : ∀ lane ∈ Finset.range w,
      ((strided w lane n).map f).sum = ∑ i ∈ Finset.range n with i % w = lane, f i := by
    intro lane hlane
    have hl := Finset.mem_range.mp hlane
    rw [← List.sum_toFinset f (nodup_strided hl)]
    apply Finset.sum_congr _ (fun _ _ => rfl)
    ext i
    simp [mem_strided hl]
  rw [Finset.sum_congr rfl hlane]
  apply Finset.sum_fiberwise_of_maps_to
  intro i _
  exact Finset.mem_range.mpr (Nat.mod_lt i hw)

end lanes
