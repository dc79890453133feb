-- Memory as a function of addresses, and stores into it one after the other.
-- Where the stores to one address agree, their order does not matter.
import Mathlib.Logic.Function.Basic
import Mathlib.Data.List.Basic

namespace scatter_memory

variable {ι α β : Type*} [DecidableEq ι]

/-- The memory after a list of stores, the first store first. -/
def scatter (stores : List (ι × α)) (memory : ι → α) : ι → α :=
  stores.foldl (fun mem w => Function.update mem w.1 w.2) memory

theorem scatter_cons (w : ι × α) (stores : List (ι × α)) (memory : ι → α) :
    scatter (w :: stores) memory = scatter stores (Function.update memory w.1 w.2) := rfl

theorem scatter_of_not_mem {stores : List (ι × α)} {memory : ι → α} {a : ι}
    (h : ∀ x, (a, x) ∉ stores) : scatter stores memory a = memory a := by
  induction stores generalizing memory with
  | nil => rfl
  | cons w rest ih =>
    rw [scatter_cons, ih (fun x hx => h x (List.mem_cons_of_mem _ hx))]
    apply Function.update_of_ne
    rintro rfl
    exact h w.2 List.mem_cons_self

/-- A store that every other store to its address agrees with is there in the end. -/
theorem scatter_of_mem {stores : List (ι × α)} {memory : ι → α} {a : ι} {x : α}
    (h : (a, x) ∈ stores) (hone : ∀ y, (a, y) ∈ stores → y = x) :
    scatter stores memory a = x := by
  induction stores generalizing memory with
  | nil => cases h
  | cons w rest ih =>
    rw [scatter_cons]
    by_cases hlater : ∃ y, (a, y) ∈ rest
    · obtain ⟨y, hy⟩ := hlater
      have hyx : y = x := hone y (List.mem_cons_of_mem _ hy)
      exact ih (hyx ▸ hy) (fun z hz => hone z (List.mem_cons_of_mem _ hz))
    · rw [scatter_of_not_mem (fun y hy => hlater ⟨y, hy⟩)]
      rcases List.mem_cons.mp h with rfl | hr
      · simp
      · exact absurd ⟨x, hr⟩ hlater

/-! ## Loops that update a cell in place -/

/-- A loop that visits distinct cells leaves the others alone. -/
theorem foldl_update_of_not_mem (key : β → ι) (f : β → α → α) (l : List β) (memory : ι → α)
    {a : ι} (h : a ∉ l.map key) :
    l.foldl (fun mem b => Function.update mem (key b) (f b (mem (key b)))) memory a = memory a := by
  induction l generalizing memory with
  | nil => rfl
  | cons b rest ih =>
    rw [List.map_cons, List.mem_cons, not_or] at h
    rw [List.foldl_cons, ih _ h.2, Function.update_of_ne h.1]

/-- A loop that visits distinct cells updates each of them once. -/
theorem foldl_update_of_mem (key : β → ι) (f : β → α → α) (l : List β) (memory : ι → α)
    (hl : (l.map key).Nodup) {b : β} (h : b ∈ l) :
    l.foldl (fun mem b => Function.update mem (key b) (f b (mem (key b)))) memory (key b) =
      f b (memory (key b)) := by
  induction l generalizing memory with
  | nil => cases h
  | cons b' rest ih =>
    obtain ⟨hnot, hrest⟩ := List.nodup_cons.mp hl
    rw [List.foldl_cons]
    rcases List.mem_cons.mp h with rfl | hr
    · rw [foldl_update_of_not_mem key f rest _ hnot, Function.update_self]
    · rw [ih _ hrest hr, Function.update_of_ne]
      intro he
      exact hnot (he ▸ List.mem_map_of_mem hr)

/-! ## Addresses -/

/-- A quotient and a remainder are told apart by the number they make. -/
theorem digits_inj {n a b r s : Nat} (hr : r < n) (hs : s < n) (h : a * n + r = b * n + s) :
    a = b ∧ r = s := by
  have hn : 0 < n := by omega
  have hq : ∀ x y, y < n → (x * n + y) / n = x := by
    intro x y hy
    rw [Nat.mul_comm, Nat.mul_add_div hn, Nat.div_eq_of_lt hy, Nat.add_zero]
  have hab : a = b := by rw [← hq a r hr, ← hq b s hs, h]
  subst hab
  exact ⟨rfl, by omega⟩

/-- An entry of a rectangular array in row-major order. -/
theorem getElem?_flatten {rows : List (List α)} {n i j : Nat} {row : List α} {x : α}
    (hrect : ∀ r ∈ rows, r.length = n) (hrow : rows[i]? = some row) (hx : row[j]? = some x) :
    rows.flatten[i * n + j]? = some x := by
  have hj : j < n := by
    rw [← hrect row (List.mem_of_getElem? hrow)]
    exact (List.getElem?_eq_some_iff.mp hx).1
  induction rows generalizing i with
  | nil => cases hrow
  | cons r rest ih =>
    have hr : r.length = n := hrect r List.mem_cons_self
    rw [List.flatten_cons]
    cases i with
    | zero =>
      cases hrow
      rw [Nat.zero_mul, Nat.zero_add, List.getElem?_append_left (by omega), hx]
    | succ i =>
      rw [Nat.succ_mul, List.getElem?_append_right (by omega), hr]
      rw [← ih (fun r' hr' => hrect r' (List.mem_cons_of_mem _ hr')) hrow]
      congr 1
      omega

end scatter_memory
