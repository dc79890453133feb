-- Binary heaps in an array: the children of place `i` are the places 2i + 1
-- and 2i + 2. `heapify` lets each inner place sink, the last one first, and
-- ends with the smallest item at place 0.
import Mathlib

namespace binary_heap

variable {α κ : Type*} [LinearOrder κ] (key : α → κ)

/-! ## The algorithm -/

/-- The smaller one of the children of a place, and the left one of two equal ones. -/
def smallerChild (h : Nat → α) (n i : Nat) : Option Nat :=
  if 2 * i + 1 < n then
    if 2 * i + 2 < n ∧ ¬ key (h (2 * i + 1)) < key (h (2 * i + 2)) then some (2 * i + 2)
    else some (2 * i + 1)
  else none

/-- The item at a place goes down until no child of it is smaller. -/
def sink : Nat → (Nat → α) → Nat → Nat → (Nat → α)
  | 0, h, _, _ => h
  | fuel + 1, h, n, i =>
    match smallerChild key h n i with
    | none => h
    | some c =>
      if key (h c) < key (h i) then sink fuel (h ∘ Equiv.swap i c) n c else h

/-- The array that a list stands for. -/
def array [Inhabited α] (l : List α) : Nat → α := fun i => l.getD i default

/-- The item at place `i` of the list sinks. -/
def sinkAt [Inhabited α] (l : List α) (i : Nat) : List α :=
  (List.range l.length).map (sink key l.length (array l) l.length i)

/-- The inner places below `i` sink, the last one first. -/
def sinkAll [Inhabited α] : Nat → List α → List α
  | 0, l => l
  | i + 1, l => sinkAll i (sinkAt key l i)

def heapify [Inhabited α] (l : List α) : List α := sinkAll key (l.length / 2) l

/-- The item at a place goes up until its parent is not larger. -/
def rise : Nat → (Nat → α) → Nat → (Nat → α)
  | 0, h, _ => h
  | fuel + 1, h, i =>
    if 0 < i ∧ key (h i) < key (h ((i - 1) / 2)) then
      rise fuel (h ∘ Equiv.swap i ((i - 1) / 2)) ((i - 1) / 2)
    else h

/-- A new item comes to the end, and rises. -/
def heappush [Inhabited α] (l : List α) (x : α) : List α :=
  (List.range (l ++ [x]).length).map (rise key l.length (array (l ++ [x])) l.length)

/-- The root, and the heap without it: the last item takes its place and sinks. -/
def heappop [Inhabited α] : List α → Option (α × List α)
  | [] => none
  | x :: rest =>
    match rest.getLast? with
    | none => some (x, [])
    | some last => some (x, sinkAt key (last :: rest.dropLast) 0)

/-! ## Order -/

/-- No child of the place is smaller. -/
def Ordered (h : Nat → α) (n j : Nat) : Prop :=
  ∀ c, c = 2 * j + 1 ∨ c = 2 * j + 2 → c < n → key (h j) ≤ key (h c)

variable {key}

theorem smallerChild_some {h : Nat → α} {n i c : Nat} (hc : smallerChild key h n i = some c) :
    (c = 2 * i + 1 ∨ c = 2 * i + 2) ∧ c < n ∧
      ∀ d, d = 2 * i + 1 ∨ d = 2 * i + 2 → d < n → key (h c) ≤ key (h d) := by
  unfold smallerChild at hc
  split at hc
  · rename_i hl
    split at hc
    · rename_i hr
      cases hc
      refine ⟨Or.inr rfl, hr.1, ?_⟩
      rintro d (rfl | rfl) _
      · exact le_of_not_gt hr.2
      · exact le_rfl
    · rename_i hr
      cases hc
      refine ⟨Or.inl rfl, hl, ?_⟩
      rintro d (rfl | rfl) hd
      · exact le_rfl
      · by_contra hlt
        exact hr ⟨hd, fun h' => hlt h'.le⟩
  · cases hc

theorem smallerChild_none {h : Nat → α} {n i : Nat} (hc : smallerChild key h n i = none) :
    n ≤ 2 * i + 1 := by
  unfold smallerChild at hc
  split at hc
  · split at hc <;> cases hc
  · omega

/-- Sinking from `p` restores the order at and after `i`. Everything but `p` is in order before,
and the parent of `p` is no larger than the children of `p`. -/
theorem sink_ordered {n i : Nat} (fuel p : Nat) (h : Nat → α) (hfuel : n ≤ fuel + p) (hip : i ≤ p)
    (hrest : ∀ j, i ≤ j → j ≠ p → Ordered key h n j)
    (hparent : ∀ q, i ≤ q → p = 2 * q + 1 ∨ p = 2 * q + 2 →
      ∀ c, c = 2 * p + 1 ∨ c = 2 * p + 2 → c < n → key (h q) ≤ key (h c)) :
    ∀ j, i ≤ j → Ordered key (sink key fuel h n p) n j := by
  induction fuel generalizing p h with
  | zero =>
    intro j hj
    by_cases hjp : j = p
    · subst hjp
      intro c hc hcn
      rcases hc with rfl | rfl <;> omega
    · exact hrest j hj hjp
  | succ fuel ih =>
    unfold sink
    rcases hc : smallerChild key h n p with _ | c
    · have hnone := smallerChild_none hc
      intro j hj
      by_cases hjp : j = p
      · subst hjp
        intro c hc hcn
        rcases hc with rfl | rfl <;> omega
      · exact hrest j hj hjp
    · obtain ⟨hchild, hcn, hmin⟩ := smallerChild_some hc
      have hpc : p < c := by rcases hchild with rfl | rfl <;> omega
      by_cases hlt : key (h c) < key (h p)
      · simp only [hlt, if_true]
        have hp' : (h ∘ Equiv.swap p c) p = h c := by simp
        have hc' : (h ∘ Equiv.swap p c) c = h p := by simp
        have hother : ∀ x, x ≠ p → x ≠ c → (h ∘ Equiv.swap p c) x = h x := by
          intro x hxp hxc
          simp [Equiv.swap_apply_of_ne_of_ne hxp hxc]
        apply ih
        · omega
        · omega
        · intro j hj hjc d hd hdn
          by_cases hjp : j = p
          · subst hjp
            rw [hp']
            by_cases hdc : d = c
            · rw [hdc, hc']
              exact hlt.le
            · have hdp : d ≠ j := by rcases hd with rfl | rfl <;> omega
              rw [hother d hdp hdc]
              exact hmin d hd hdn
          · rw [hother j hjp hjc]
            by_cases hdp : d = p
            · rw [hdp, hp']
              exact hparent j hj (hdp ▸ hd) c hchild hcn
            · have hdc : d ≠ c := by
                intro he
                rcases hd with h1 | h1 <;> rcases hchild with h2 | h2 <;> omega
              rw [hother d hdp hdc]
              exact hrest j hj hjp d hd hdn
        · intro q _ hq d hd hdn
          have hqp : q = p := by
            rcases hq with h1 | h1 <;> rcases hchild with h2 | h2 <;> omega
          have hdc : c < d := by rcases hd with rfl | rfl <;> omega
          rw [hqp, hp', hother d (by omega) (by omega)]
          exact hrest c (by omega) (by omega) d hd hdn
      · simp only [hlt, if_false]
        intro j hj
        by_cases hjp : j = p
        · subst hjp
          intro d hd hdn
          exact le_trans (le_of_not_gt hlt) (hmin d hd hdn)
        · exact hrest j hj hjp

/-- The order of the places depends on the first `n` places alone. -/
theorem Ordered.congr {h h' : Nat → α} {n j : Nat} (hord : Ordered key h n j)
    (heq : ∀ x, x < n → h' x = h x) : Ordered key h' n j := by
  intro c hc hcn
  have hjn : j < n := by rcases hc with rfl | rfl <;> omega
  rw [heq j hjn, heq c hcn]
  exact hord c hc hcn

/-- In an ordered array nothing is smaller than the root. -/
theorem root_le {h : Nat → α} {n : Nat} (hord : ∀ j, Ordered key h n j) (j : Nat) (hj : j < n) :
    key (h 0) ≤ key (h j) := by
  induction j using Nat.strong_induction_on with
  | _ j ih =>
    rcases Nat.eq_zero_or_pos j with rfl | hpos
    · exact le_rfl
    · refine le_trans (ih ((j - 1) / 2) (by omega) (by omega)) (hord _ j ?_ hj)
      omega

/-! ## Items -/

/-- The two arrays have the same items, and agree from place `n` on. -/
def Rearranged (n : Nat) (h h' : Nat → α) : Prop :=
  ∃ s : Equiv.Perm Nat, (∀ x, n ≤ x → s x = x) ∧ h' = h ∘ s

theorem Rearranged.trans {n : Nat} {h₁ h₂ h₃ : Nat → α} (h : Rearranged n h₁ h₂)
    (h' : Rearranged n h₂ h₃) : Rearranged n h₁ h₃ := by
  obtain ⟨s, hs, rfl⟩ := h
  obtain ⟨t, ht, rfl⟩ := h'
  refine ⟨t.trans s, ?_, rfl⟩
  intro x hx
  show s (t x) = x
  rw [ht x hx, hs x hx]

theorem sink_rearranged (key : α → κ) (fuel : Nat) (h : Nat → α) (n p : Nat) :
    Rearranged n h (sink key fuel h n p) := by
  induction fuel generalizing h p with
  | zero => exact ⟨Equiv.refl _, fun _ _ => rfl, rfl⟩
  | succ fuel ih =>
    unfold sink
    rcases hc : smallerChild key h n p with _ | c
    · exact ⟨Equiv.refl _, fun _ _ => rfl, rfl⟩
    · obtain ⟨hchild, hcn, _⟩ := smallerChild_some hc
      by_cases hlt : key (h c) < key (h p)
      · simp only [hlt, if_true]
        refine Rearranged.trans ⟨Equiv.swap p c, ?_, rfl⟩ (ih _ c)
        intro x hx
        apply Equiv.swap_apply_of_ne_of_ne <;> rcases hchild with h1 | h1 <;> omega
      · simp only [hlt, if_false]
        exact ⟨Equiv.refl _, fun _ _ => rfl, rfl⟩

theorem Rearranged.perm {n : Nat} {h h' : Nat → α} (hr : Rearranged n h h') :
    ((List.range n).map h').Perm ((List.range n).map h) := by
  obtain ⟨s, hs, rfl⟩ := hr
  have hlt : ∀ x, s x < n ↔ x < n := by
    intro x
    constructor
    · intro h1
      by_contra h2
      rw [hs x (by omega)] at h1
      exact h2 h1
    · intro h1
      by_contra h2
      have h3 := hs (s x) (by omega)
      have h4 := s.injective h3
      omega
  have hperm : ((List.range n).map s).Perm (List.range n) := by
    apply (List.perm_ext_iff_of_nodup (List.Nodup.map s.injective List.nodup_range) List.nodup_range).mpr
    intro x
    simp only [List.mem_map, List.mem_range]
    constructor
    · rintro ⟨y, hy, rfl⟩
      exact (hlt y).mpr hy
    · intro hx
      refine ⟨s.symm x, ?_, by simp⟩
      rw [← hlt]
      simpa using hx
  have hmap := hperm.map h
  rwa [List.map_map] at hmap

/-! ## The heap of a list -/

variable [Inhabited α]

theorem map_array (l : List α) : (List.range l.length).map (array l) = l := by
  apply List.ext_getElem
  · simp
  · intro i h1 h2
    simp [array, List.getElem?_eq_getElem h2]

@[simp] theorem sinkAt_length (l : List α) (i : Nat) : (sinkAt key l i).length = l.length := by
  simp [sinkAt]

theorem array_sinkAt (l : List α) (i x : Nat) (hx : x < l.length) :
    array (sinkAt key l i) x = sink key l.length (array l) l.length i x := by
  simp [array, sinkAt, List.getElem?_range hx]

theorem sinkAt_perm (l : List α) (i : Nat) : (sinkAt key l i).Perm l := by
  have hperm := (sink_rearranged key l.length (array l) l.length i).perm
  rwa [map_array] at hperm

theorem sinkAll_perm (i : Nat) (l : List α) : (sinkAll key i l).Perm l := by
  induction i generalizing l with
  | zero => exact List.Perm.refl l
  | succ i ih => exact (ih _).trans (sinkAt_perm l i)

theorem sinkAll_ordered (i : Nat) (l : List α)
    (hrest : ∀ j, i ≤ j → Ordered key (array l) l.length j) :
    ∀ j, Ordered key (array (sinkAll key i l)) l.length j := by
  induction i generalizing l with
  | zero => exact fun j => hrest j (Nat.zero_le j)
  | succ i ih =>
    have hsunk := sink_ordered (i := i) l.length i (array l) (by omega) (by omega)
      (fun j hj hne => hrest j (by omega))
      (by
        intro q hq hchild
        rcases hchild with h1 | h1 <;> omega)
    have hnext := ih (sinkAt key l i)
    rw [sinkAt_length] at hnext
    apply hnext
    intro j hj
    exact (hsunk j hj).congr (array_sinkAt l i)

/-- The heap has the items of the list. -/
theorem heapify_perm (key : α → κ) (l : List α) : (heapify key l).Perm l := sinkAll_perm _ l

/-- Nothing in the list is smaller than the root of the heap. -/
theorem heapify_root {l : List α} {x : α} (h : (heapify key l)[0]? = some x) :
    ∀ y ∈ l, key x ≤ key y := by
  have hord : ∀ j, Ordered key (array (heapify key l)) l.length j := by
    apply sinkAll_ordered
    intro j hj c hc hcn
    rcases hc with rfl | rfl <;> omega
  have hroot : array (heapify key l) 0 = x := by
    simp [array, h]
  intro y hy
  have hmem : y ∈ heapify key l := (heapify_perm key l).mem_iff.mpr hy
  obtain ⟨j, hj, rfl⟩ := List.getElem_of_mem hmem
  have hj' : j < l.length := by rwa [(heapify_perm key l).length_eq] at hj
  have hle := root_le hord j hj'
  rw [hroot] at hle
  simpa [array, hj] using hle

/-! ## Pushing and popping -/

omit [Inhabited α] in
theorem rise_rearranged (key : α → κ) (fuel : Nat) (h : Nat → α) {n i : Nat} (hi : i < n) :
    Rearranged n h (rise key fuel h i) := by
  induction fuel generalizing h i with
  | zero => exact ⟨Equiv.refl _, fun _ _ => rfl, rfl⟩
  | succ fuel ih =>
    unfold rise
    split
    · have hparent : (i - 1) / 2 < n := by omega
      refine Rearranged.trans ⟨Equiv.swap i ((i - 1) / 2), ?_, rfl⟩ (ih _ hparent)
      intro x hx
      exact Equiv.swap_apply_of_ne_of_ne (by omega) (by omega)
    · exact ⟨Equiv.refl _, fun _ _ => rfl, rfl⟩

theorem heappush_perm (key : α → κ) (l : List α) (x : α) : (heappush key l x).Perm (x :: l) := by
  have hperm := (rise_rearranged key l.length (array (l ++ [x]))
    (by simp : l.length < (l ++ [x]).length)).perm
  rw [map_array] at hperm
  exact hperm.trans (List.perm_append_singleton x l)

/-- What is popped and what is left are the items of the heap. -/
theorem heappop_perm {l rest : List α} {x : α} (h : heappop key l = some (x, rest)) :
    (x :: rest).Perm l := by
  rcases l with _ | ⟨y, l⟩
  · cases h
  · unfold heappop at h
    dsimp only at h
    rcases hlast : l.getLast? with _ | last
    · rw [hlast] at h
      cases h
      rw [List.getLast?_eq_none_iff.mp hlast]
    · rw [hlast] at h
      cases h
      apply List.Perm.cons
      apply (sinkAt_perm _ 0).trans
      have hsplit := List.dropLast_append_getLast? last (Option.mem_def.mpr hlast)
      conv_rhs => rw [← hsplit]
      exact (List.perm_append_singleton last l.dropLast).symm

theorem heappop_eq_none {l : List α} : heappop key l = none ↔ l = [] := by
  rcases l with _ | ⟨y, l⟩
  · simp [heappop]
  · unfold heappop
    dsimp only
    split <;> simp

end binary_heap
