-- Lists of computations that may fail: a list of results is returned just
-- when each computation returns its own.
import Mathlib

namespace except_list

variable {ε α β : Type}

theorem bind_eq_ok {x : Except ε α} {f : α → Except ε β} {b : β} :
    (x >>= f) = .ok b ↔ ∃ a, x = .ok a ∧ f a = .ok b := by
  cases x with
  | error e => simp [bind, Except.bind]
  | ok a => simp [bind, Except.bind]

theorem mapM_eq_ok {f : α → Except ε β} {l : List α} {ys : List β} :
    l.mapM f = .ok ys ↔ List.Forall₂ (fun x y => f x = .ok y) l ys := by
  induction l generalizing ys with
  | nil =>
    rw [List.mapM_nil, List.forall₂_nil_left_iff]
    constructor
    · intro h
      cases h
      rfl
    · intro h
      rw [h]
      rfl
  | cons x rest ih =>
    rw [List.mapM_cons, List.forall₂_cons_left_iff]
    rcases hx : f x with e | y
    · constructor
      · intro h
        cases h
      · rintro ⟨y, _, hy, _⟩
        cases hy
    · rcases hr : rest.mapM f with e | more
      · constructor
        · intro h
          cases h
        · rintro ⟨y', more, _, hmore, _⟩
          rw [ih.mpr hmore] at hr
          cases hr
      · constructor
        · intro h
          cases h
          exact ⟨y, more, rfl, ih.mp hr, rfl⟩
        · rintro ⟨y', more', hy, hmore, rfl⟩
          cases hy
          rw [ih.mpr hmore] at hr
          cases hr
          rfl

/-- When the list is returned, each computation has returned. -/
theorem exists_of_mapM_ok {f : α → Except ε β} {l : List α} {ys : List β}
    (h : l.mapM f = .ok ys) {x : α} (hx : x ∈ l) : ∃ y, f x = .ok y := by
  have hall := mapM_eq_ok.mp h
  induction hall with
  | nil => cases hx
  | cons hy hrest ih =>
    rcases List.mem_cons.mp hx with rfl | hx
    · exact ⟨_, hy⟩
    · exact ih (mapM_eq_ok.mpr hrest) hx

/-- What holds of each result holds of the returned ones. -/
theorem forall_of_mapM_ok {P : β → Prop} {f : α → Except ε β} {l : List α} {ys : List β}
    (h : l.mapM f = .ok ys) (hf : ∀ x y, f x = .ok y → P y) : ∀ y ∈ ys, P y := by
  have hall := mapM_eq_ok.mp h
  clear h
  induction hall with
  | nil => exact fun y hy => absurd hy List.not_mem_nil
  | cons hxy _ ih => exact List.forall_mem_cons.mpr ⟨hf _ _ hxy, ih⟩

/-- Computations that all return. -/
theorem mapM_of_ok {f : α → Except ε β} {g : α → β} {l : List α}
    (h : ∀ x ∈ l, f x = .ok (g x)) : l.mapM f = .ok (l.map g) := by
  rw [mapM_eq_ok, List.forall₂_map_right_iff, List.forall₂_same]
  exact h

/-- A loop whose rounds all return. -/
theorem foldlM_of_ok {f : β → α → Except ε β} {g : β → α → β} {l : List α} {b : β}
    (h : ∀ b, ∀ x ∈ l, f b x = .ok (g b x)) : l.foldlM f b = .ok (l.foldl g b) := by
  induction l generalizing b with
  | nil => rfl
  | cons x rest ih =>
    rw [List.foldlM_cons, h b x List.mem_cons_self, List.foldl_cons]
    exact ih (fun b y hy => h b y (List.mem_cons_of_mem x hy))

/-- When the loop returns, each round has returned. -/
theorem exists_of_foldlM_ok {f : β → α → Except ε β} {l : List α} {b c : β}
    (h : l.foldlM f b = .ok c) {x : α} (hx : x ∈ l) : ∃ b' c', f b' x = .ok c' := by
  induction l generalizing b with
  | nil => cases hx
  | cons y rest ih =>
    rw [List.foldlM_cons, bind_eq_ok] at h
    obtain ⟨b', hy, hrest⟩ := h
    rcases List.mem_cons.mp hx with rfl | hx
    · exact ⟨b, b', hy⟩
    · exact ih hrest hx

end except_list
