-- What water-filling gives out: no stage gets more layers than it has room
-- for, and all stages together get no more than there are.
import InferenceMesh.Scheduling.PipelineLayers
import Mathlib.Algebra.Order.BigOperators.Group.List
import Mathlib.Tactic.Linarith
import Mathlib.Tactic.Positivity

open python

namespace scheduling.layer_allocation

/-- Each stage has at least no layers, and at most as many as its capacity. -/
def Within (counts caps : List Int) : Prop :=
  List.Forall₂ (fun count cap => 0 ≤ count ∧ count ≤ cap) counts caps

/-! ## The water level -/

theorem le_foldl_max (x : Rat) (l : List Rat) : x ≤ l.foldl max x := by
  induction l generalizing x with
  | nil => exact le_rfl
  | cons y l ih => exact (le_max_left x y).trans (ih (max x y))

theorem highest_level_nonneg {caps : List Int} {powers : List ℚ≥0} {hi : Rat}
    (hpos : ∀ cap ∈ caps, 0 < cap) (h : highest_level caps powers = .ok hi) : 0 ≤ hi := by
  unfold highest_level at h
  split at h
  · cases h
  · split at h
    · cases h
    · rename_i x rest hzip
      cases h
      apply le_trans _ (le_foldl_max x rest)
      rcases caps with _ | ⟨cap, caps⟩
      · cases hzip
      · rcases powers with _ | ⟨power, powers⟩
        · cases hzip
        · obtain ⟨rfl, _⟩ := List.cons.inj hzip
          have hcap : (0 : Rat) ≤ cap := by exact_mod_cast (hpos cap List.mem_cons_self).le
          have hpower : (0 : Rat) ≤ power := power.2
          positivity

theorem bisect_nonneg (caps : List Int) (powers : List ℚ≥0) (total_layers : Int) (n : Nat)
    (lo hi : Rat) (hlo : 0 ≤ lo) (hhi : 0 ≤ hi) :
    0 ≤ bisect caps powers total_layers n lo hi := by
  induction n generalizing lo hi with
  | zero => exact hhi
  | succ n ih =>
    have hmid : 0 ≤ 1 / 2 * (lo + hi) := by positivity
    unfold bisect
    dsimp only
    split
    · exact ih lo _ hlo hmid
    · exact ih _ hi hmid hhi

theorem floor_counts_within (caps : List Int) (powers : List ℚ≥0) (lam : Rat) (hlam : 0 ≤ lam)
    (hpos : ∀ cap ∈ caps, 0 < cap) (hlen : powers.length = caps.length) :
    Within (floor_counts caps (List.zipWith
      (fun (cap : Int) (power : ℚ≥0) => min (cap : Rat) (lam * power)) caps powers)) caps := by
  induction caps generalizing powers with
  | nil => exact List.Forall₂.nil
  | cons cap caps ih =>
    rcases powers with _ | ⟨power, powers⟩
    · simp at hlen
    · have hcap := hpos cap List.mem_cons_self
      have hpower : (0 : Rat) ≤ power := power.2
      have hfloor : 0 ≤ ⌊min (cap : Rat) (lam * power)⌋ := by
        apply Int.floor_nonneg.mpr
        apply le_min
        · exact_mod_cast hcap.le
        · positivity
      refine List.Forall₂.cons ⟨le_min hcap.le hfloor, min_le_left _ _⟩ ?_
      exact ih powers (fun c hc => hpos c (List.mem_cons_of_mem _ hc)) (by simpa using hlen)

/-! ## The remainders -/

theorem within_modify {counts caps : List Int} (h : Within counts caps) (i : Nat)
    (hroom : caps.getD i 0 - counts.getD i 0 > 0) :
    Within (counts.modify i (· + 1)) caps ∧ (counts.modify i (· + 1)).sum = counts.sum + 1 := by
  induction h generalizing i with
  | nil => simp at hroom
  | @cons count cap counts caps hhead htail ih =>
    cases i with
    | zero =>
      simp only [List.getD_cons_zero] at hroom
      have hnew : 0 ≤ count + 1 ∧ count + 1 ≤ cap := by omega
      refine ⟨List.Forall₂.cons hnew htail, ?_⟩
      simp only [List.modify_zero_cons, List.sum_cons]
      omega
    | succ i =>
      simp only [List.getD_cons_succ] at hroom
      obtain ⟨h1, h2⟩ := ih i hroom
      refine ⟨List.Forall₂.cons hhead h1, ?_⟩
      simp only [List.modify_succ_cons, List.sum_cons, h2]
      omega

theorem give_remaining_within {caps : List Int} (order : List Nat) (counts : List Int)
    (remaining : Int) (h : Within counts caps) (hrem : 0 ≤ remaining) :
    Within (give_remaining caps order counts remaining) caps ∧
      (give_remaining caps order counts remaining).sum ≤ counts.sum + remaining := by
  induction order generalizing counts remaining with
  | nil => exact ⟨h, by simp [give_remaining, hrem]⟩
  | cons i order ih =>
    unfold give_remaining
    split
    · exact ⟨h, by omega⟩
    · split
      · rename_i hne hroom
        obtain ⟨h1, h2⟩ := within_modify h i hroom
        obtain ⟨h3, h4⟩ := ih _ (remaining - 1) h1 (by omega)
        exact ⟨h3, by omega⟩
      · exact ih counts remaining h hrem

theorem within_min {counts caps : List Int} (h : Within counts caps) :
    List.zipWith (fun cap count => min cap count) caps counts = counts := by
  induction h with
  | nil => rfl
  | cons hhead htail ih =>
    simp only [List.zipWith_cons_cons, ih]
    rw [min_eq_right hhead.2]

theorem within_extra {counts caps : List Int} (h : Within counts caps) :
    (List.zipWith (fun cap count => max 0 (count - cap)) caps counts).sum = 0 := by
  induction h with
  | nil => rfl
  | cons hhead htail ih =>
    simp only [List.zipWith_cons_cons, List.sum_cons, ih]
    omega

/-- Nothing is over the capacities, so the clamp changes nothing. -/
theorem clamp_within {counts caps : List Int} (h : Within counts caps) :
    clamp caps counts = counts := by
  simp [clamp, within_extra h, within_min h]

theorem stage_layer_counts.spec {caps : List Int} {powers : List ℚ≥0} {total_layers : Int}
    {iterations : Nat} {counts : List Int} (hpos : ∀ cap ∈ caps, 0 < cap)
    (hlen : powers.length = caps.length)
    (h : stage_layer_counts caps powers total_layers iterations = .ok counts) :
    Within counts caps ∧ counts.sum ≤ total_layers := by
  unfold stage_layer_counts at h
  split at h
  · cases h
  · split at h
    · cases h
    · rename_i hi hlevel
      have hnonneg := bisect_nonneg caps powers total_layers iterations 0 hi le_rfl
        (highest_level_nonneg hpos hlevel)
      have hfloor := floor_counts_within caps powers _ hnonneg hpos hlen
      dsimp only at h
      split at h
      · rename_i hremaining
        obtain ⟨h1, h2⟩ := give_remaining_within (remainder_order _ _) _ _ hfloor hremaining.le
        cases h
        rw [clamp_within h1]
        exact ⟨h1, by omega⟩
      · split at h
        · cases h
        · cases h
          rw [clamp_within hfloor]
          exact ⟨hfloor, by omega⟩

theorem stage_capacities_length (node : Ref → scheduling.node.Node) (nodes : List Ref) :
    (stage_capacities node nodes).length = nodes.length := by
  simp [stage_capacities]

/-- When no stage is full, every stage has room. -/
theorem full_stage_none {nodes : List Ref} {caps : List Int} (hlen : caps.length = nodes.length)
    (h : full_stage nodes caps = none) : ∀ cap ∈ caps, 0 < cap := by
  intro cap hcap
  unfold full_stage at h
  rw [List.find?_eq_none] at h
  obtain ⟨i, hi, rfl⟩ := List.getElem_of_mem hcap
  have hmem : (nodes[i], caps[i]) ∈ nodes.zip caps := by
    rw [List.mem_iff_getElem]
    refine ⟨i, by simp; omega, ?_⟩
    rw [List.getElem_zip]
  have hx := h _ hmem
  simpa using hx

theorem full_stage_eq_none {nodes : List Ref} {caps : List Int} (h : ∀ cap ∈ caps, 0 < cap) :
    full_stage nodes caps = none := by
  unfold full_stage
  rw [List.find?_eq_none]
  intro x hx
  have hpos := h x.2 (List.of_mem_zip hx).2
  simpa using hpos

/-! ## The ranges -/

/-- The ranges that the stages of a pipeline get. -/
def placements : List (Ref × Int) → Int → List (Ref × Int × Int)
  | [], _ => []
  | (r, layers) :: rest, start_layer =>
    if layers ≤ 0 then placements rest start_layer
    else (r, start_layer, start_layer + layers) :: placements rest (start_layer + layers)

/-- The ranges lie between the first layer and the number of layers that are given out. -/
theorem placements_inside {caps counts : List Int} (hwithin : Within counts caps)
    (nodes : List Ref) (start_layer : Int) :
    ∀ x ∈ placements (nodes.zip counts) start_layer,
      start_layer ≤ x.2.1 ∧ x.2.2 ≤ start_layer + counts.sum := by
  induction hwithin generalizing nodes start_layer with
  | nil =>
    intro x hx
    simp [placements] at hx
  | @cons count cap counts caps hhead htail ih =>
    have hsum : 0 ≤ counts.sum := by
      apply List.sum_nonneg
      intro c hc
      obtain ⟨i, hi, rfl⟩ := List.getElem_of_mem hc
      exact ((List.forall₂_iff_get.mp htail).2 i hi (by
        have hlen := htail.length_eq
        omega)).1
    cases nodes with
    | nil =>
      intro x hx
      simp [placements] at hx
    | cons r nodes =>
      intro x hx
      simp only [List.zip_cons_cons, placements] at hx
      simp only [List.sum_cons]
      split at hx
      · obtain ⟨h1, h2⟩ := ih nodes start_layer x hx
        omega
      · rcases List.mem_cons.mp hx with rfl | hx
        · constructor
          · exact le_rfl
          · simp only
            omega
        · obtain ⟨h1, h2⟩ := ih nodes (start_layer + count) x hx
          omega

end scheduling.layer_allocation
