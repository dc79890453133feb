-- Dictionaries that keep their insertion order. A key stands at most once,
-- an overwritten key keeps its place, and a new key goes to the end.
import Mathlib.Data.List.Nodup
import Mathlib.Data.List.Basic

namespace ordered_dict

/-- A dictionary: its items in insertion order, with distinct keys. -/
structure Dict (κ : Type*) (α : Type*) where
  items : List (κ × α)
  nodup : (items.map Prod.fst).Nodup

namespace Dict

variable {κ α : Type*}

def keys (d : Dict κ α) : List κ := d.items.map Prod.fst

def values (d : Dict κ α) : List α := d.items.map Prod.snd

def empty : Dict κ α := ⟨[], List.nodup_nil⟩

/-- The number of items: `len(d)`. -/
def size (d : Dict κ α) : Nat := d.items.length

theorem nodup_filter (p : κ × α → Bool) {l : List (κ × α)} (h : (l.map Prod.fst).Nodup) :
    ((l.filter p).map Prod.fst).Nodup :=
  h.sublist (List.filter_sublist.map Prod.fst)

variable [DecidableEq κ]

/-- The value of the first item with the key. -/
def find (k : κ) : List (κ × α) → Option α
  | [] => none
  | (k', v) :: rest => if k' = k then some v else find k rest

def get? (d : Dict κ α) (k : κ) : Option α := find k d.items

/-- The key is in the dictionary. -/
def has (d : Dict κ α) (k : κ) : Bool := (d.get? k).isSome

theorem find_eq_some {k : κ} {v : α} {l : List (κ × α)} (h : (l.map Prod.fst).Nodup) :
    find k l = some v ↔ (k, v) ∈ l := by
  induction l with
  | nil => simp [find]
  | cons x rest ih =>
    obtain ⟨k', w⟩ := x
    obtain ⟨hnot, hrest⟩ := List.nodup_cons.mp h
    simp only [find]
    split
    · rename_i he
      subst he
      constructor
      · rintro ⟨⟩
        exact List.mem_cons_self
      · intro hm
        rcases List.mem_cons.mp hm with hm | hm
        · cases hm; rfl
        · exact absurd (List.mem_map_of_mem (f := Prod.fst) hm) hnot
    · rename_i hne
      rw [ih hrest, List.mem_cons]
      constructor
      · exact Or.inr
      · rintro (hm | hm)
        · cases hm; exact absurd rfl hne
        · exact hm

theorem find_eq_none {k : κ} {l : List (κ × α)} : find k l = none ↔ k ∉ l.map Prod.fst := by
  induction l with
  | nil => simp [find]
  | cons x rest ih =>
    simp only [find, List.map_cons, List.mem_cons, not_or]
    split
    · rename_i he; simp [he]
    · rename_i hne; rw [ih]; exact ⟨fun h => ⟨fun h' => hne h'.symm, h⟩, fun h => h.2⟩

theorem get?_eq_some {d : Dict κ α} {k : κ} {v : α} : d.get? k = some v ↔ (k, v) ∈ d.items :=
  find_eq_some d.nodup

theorem get?_eq_none {d : Dict κ α} {k : κ} : d.get? k = none ↔ k ∉ d.keys := find_eq_none

theorem mem_keys {d : Dict κ α} {k : κ} : k ∈ d.keys ↔ ∃ v, d.get? k = some v := by
  rw [← not_iff_not, ← get?_eq_none, Option.eq_none_iff_forall_ne_some]
  simp

theorem has_iff {d : Dict κ α} {k : κ} : d.has k = true ↔ ∃ v, d.get? k = some v :=
  Option.isSome_iff_exists

theorem has_eq_false {d : Dict κ α} {k : κ} : d.has k = false ↔ d.get? k = none := by
  unfold has; rw [Option.isSome_eq_false_iff, Option.isNone_iff_eq_none]

@[simp] theorem get?_empty (k : κ) : (empty : Dict κ α).get? k = none := rfl

@[simp] theorem has_empty (k : κ) : (empty : Dict κ α).has k = false := rfl

/-! ## Insertion -/

/-- The value of the key replaced where it stands, or the item put at the end. -/
def put (k : κ) (v : α) : List (κ × α) → List (κ × α)
  | [] => [(k, v)]
  | (k', w) :: rest => if k' = k then (k, v) :: rest else (k', w) :: put k v rest

theorem keys_put (k : κ) (v : α) (l : List (κ × α)) :
    (put k v l).map Prod.fst = if k ∈ l.map Prod.fst then l.map Prod.fst
      else l.map Prod.fst ++ [k] := by
  induction l with
  | nil => simp [put]
  | cons x rest ih =>
    obtain ⟨k', w⟩ := x
    simp only [put]
    split
    · rename_i he; simp [he]
    · rename_i hne
      simp only [List.map_cons, ih, List.mem_cons, Ne.symm hne, false_or]
      split <;> simp

theorem nodup_put (k : κ) (v : α) {l : List (κ × α)} (h : (l.map Prod.fst).Nodup) :
    ((put k v l).map Prod.fst).Nodup := by
  rw [keys_put]
  split
  · exact h
  · rename_i hk
    exact List.Nodup.append h (List.nodup_singleton k) (by simpa using hk)

def insert (d : Dict κ α) (k : κ) (v : α) : Dict κ α := ⟨put k v d.items, nodup_put k v d.nodup⟩

theorem find_put (k : κ) (v : α) (k' : κ) (l : List (κ × α)) :
    find k' (put k v l) = if k = k' then some v else find k' l := by
  induction l with
  | nil => simp [put, find]
  | cons x rest ih =>
    obtain ⟨k₁, w⟩ := x
    simp only [put]
    split
    · rename_i he
      subst he
      simp only [find]
      split <;> rfl
    · rename_i hne
      simp only [find, ih]
      split
      · rename_i he
        subst he
        simp [Ne.symm hne]
      · rfl

@[simp] theorem get?_insert (d : Dict κ α) (k k' : κ) (v : α) :
    (d.insert k v).get? k' = if k = k' then some v else d.get? k' := find_put k v k' d.items

theorem get?_insert_self (d : Dict κ α) (k : κ) (v : α) : (d.insert k v).get? k = some v := by simp

theorem get?_insert_ne (d : Dict κ α) {k k' : κ} (v : α) (h : k ≠ k') :
    (d.insert k v).get? k' = d.get? k' := by simp [h]

theorem put_eq_self {k : κ} {v : α} {l : List (κ × α)} (h : find k l = some v) :
    put k v l = l := by
  induction l with
  | nil => cases h
  | cons x rest ih =>
    obtain ⟨k', w⟩ := x
    simp only [find] at h
    simp only [put]
    split at h
    · rename_i heq
      cases h
      rw [if_pos heq, heq]
    · rename_i hne
      rw [if_neg hne, ih h]

/-- A value that stands already is written over with itself. -/
theorem insert_eq_self_iff {d : Dict κ α} {k : κ} {v : α} :
    d.insert k v = d ↔ d.get? k = some v := by
  constructor
  · intro h
    rw [← h]
    exact get?_insert_self d k v
  · intro h
    cases d
    unfold insert
    congr
    exact put_eq_self h

theorem keys_insert (d : Dict κ α) (k : κ) (v : α) :
    (d.insert k v).keys = if k ∈ d.keys then d.keys else d.keys ++ [k] := keys_put k v d.items

theorem mem_keys_insert {d : Dict κ α} {k k' : κ} {v : α} :
    k' ∈ (d.insert k v).keys ↔ k' = k ∨ k' ∈ d.keys := by
  rw [keys_insert]
  split
  · rename_i hk
    exact ⟨Or.inr, fun h => h.elim (fun he => he ▸ hk) id⟩
  · simp [or_comm]

/-- The items of a list, under their keys. -/
def insertAll (key : α → κ) (l : List α) (d : Dict κ α) : Dict κ α :=
  l.foldl (fun d x => d.insert (key x) x) d

theorem get?_insertAll_of_not_mem {key : α → κ} {l : List α} {d : Dict κ α} {k : κ}
    (h : k ∉ l.map key) : (insertAll key l d).get? k = d.get? k := by
  induction l generalizing d with
  | nil => rfl
  | cons x l ih =>
    rw [List.map_cons, List.mem_cons, not_or] at h
    exact (ih h.2).trans (get?_insert_ne d x (Ne.symm h.1))

theorem get?_insertAll {key : α → κ} {l : List α} {d : Dict κ α} {x : α}
    (hnodup : (l.map key).Nodup) (hx : x ∈ l) : (insertAll key l d).get? (key x) = some x := by
  induction l generalizing d with
  | nil => cases hx
  | cons y l ih =>
    obtain ⟨hnot, hrest⟩ := List.nodup_cons.mp hnodup
    rcases List.mem_cons.mp hx with rfl | hx
    · exact (get?_insertAll_of_not_mem hnot).trans (get?_insert_self d (key x) x)
    · exact ih hrest hx

theorem mem_of_get?_insertAll {key : α → κ} {l : List α} {k : κ} {x : α}
    (h : (insertAll key l empty).get? k = some x) (hnodup : (l.map key).Nodup) :
    x ∈ l ∧ key x = k := by
  by_cases hk : k ∈ l.map key
  · obtain ⟨y, hy, rfl⟩ := List.mem_map.mp hk
    rw [get?_insertAll hnodup hy] at h
    cases h
    exact ⟨hy, rfl⟩
  · rw [get?_insertAll_of_not_mem hk, get?_empty] at h
    cases h

/-! ## Removal -/

def erase (d : Dict κ α) (k : κ) : Dict κ α :=
  ⟨d.items.filter (fun x => decide (x.1 ≠ k)), nodup_filter _ d.nodup⟩

theorem find_erase (k k' : κ) (l : List (κ × α)) :
    find k' (l.filter (fun x => decide (x.1 ≠ k))) = if k = k' then none else find k' l := by
  induction l with
  | nil => simp [find]
  | cons x rest ih =>
    obtain ⟨k₁, w⟩ := x
    by_cases h : k₁ = k
    · subst h
      simp only [ne_eq, not_true, decide_false, List.filter_cons, Bool.false_eq_true, if_false] at *
      rw [ih]
      simp only [find]
      split <;> simp_all
    · rw [List.filter_cons_of_pos (by simpa using h)]
      simp only [find, ih]
      split
      · rename_i he
        subst he
        simp [Ne.symm h]
      · rfl

@[simp] theorem get?_erase (d : Dict κ α) (k k' : κ) :
    (d.erase k).get? k' = if k = k' then none else d.get? k' := find_erase k k' d.items

/-- The item of the key goes to the end of the order. -/
def moveToEnd (d : Dict κ α) (k : κ) : Dict κ α :=
  match d.get? k with
  | some v => (d.erase k).insert k v
  | none => d

/-- The values changed in place. -/
def mapValues {β : Type*} (f : α → β) (d : Dict κ α) : Dict κ β :=
  ⟨d.items.map (fun x => (x.1, f x.2)), by simpa [Function.comp_def] using d.nodup⟩

@[simp] theorem get?_moveToEnd (d : Dict κ α) (k k' : κ) : (d.moveToEnd k).get? k' = d.get? k' := by
  unfold moveToEnd
  split
  · rename_i v hv
    by_cases h : k = k'
    · subst h
      simp [hv]
    · simp [h]
  · rfl

theorem find_map {β : Type*} (f : α → β) (k : κ) (l : List (κ × α)) :
    find k (l.map (fun x => (x.1, f x.2))) = (find k l).map f := by
  induction l with
  | nil => rfl
  | cons x rest ih =>
    simp only [List.map_cons, find]
    split
    · rfl
    · exact ih

@[simp] theorem get?_mapValues {β : Type*} (f : α → β) (d : Dict κ α) (k : κ) :
    (d.mapValues f).get? k = (d.get? k).map f := find_map f k d.items

omit [DecidableEq κ] in
theorem keys_mapValues {β : Type*} (f : α → β) (d : Dict κ α) : (d.mapValues f).keys = d.keys := by
  simp [mapValues, keys]

theorem mem_values {d : Dict κ α} {v : α} : v ∈ d.values ↔ ∃ k, d.get? k = some v := by
  simp [values, get?_eq_some]

theorem get?_erase_ne (d : Dict κ α) {k k' : κ} (h : k ≠ k') : (d.erase k).get? k' = d.get? k' := by
  simp [h]

theorem put_absent (k : κ) (v : α) {l : List (κ × α)} (h : k ∉ l.map Prod.fst) :
    put k v l = l ++ [(k, v)] := by
  induction l with
  | nil => rfl
  | cons x rest ih =>
    simp only [List.map_cons, List.mem_cons, not_or] at h
    rw [put, if_neg (Ne.symm h.1), ih h.2, List.cons_append]

/-- A new item that is removed again leaves nothing behind. -/
theorem erase_insert {d : Dict κ α} {k : κ} (v : α) (h : d.get? k = none) :
    (d.insert k v).erase k = d := by
  have hk := get?_eq_none.mp h
  have hold : d.items.filter (fun x => decide (x.1 ≠ k)) = d.items := by
    rw [List.filter_eq_self]
    intro x hx
    simpa using fun heq : x.1 = k => hk (heq ▸ List.mem_map_of_mem hx)
  have hitems : (put k v d.items).filter (fun x => decide (x.1 ≠ k)) = d.items := by
    rw [put_absent k v hk, List.filter_append, hold]
    simp
  unfold erase insert
  cases d
  congr 1

/-- Values that belong to one key each stand once. -/
theorem nodup_values {d : Dict κ α}
    (h : ∀ k k' v, d.get? k = some v → d.get? k' = some v → k = k') : d.values.Nodup := by
  refine (List.nodup_map_iff_inj_on (List.Nodup.of_map _ d.nodup)).mpr ?_
  rintro ⟨k, v⟩ hx ⟨k', v'⟩ hy hv
  cases hv
  rw [h k k' v (get?_eq_some.mpr hx) (get?_eq_some.mpr hy)]

theorem mem_keys_erase {d : Dict κ α} {k k' : κ} :
    k' ∈ (d.erase k).keys ↔ k' ≠ k ∧ k' ∈ d.keys := by
  simp only [mem_keys, get?_erase]
  split
  · rename_i he; simp [he]
  · rename_i hne; simp [Ne.symm hne]

end Dict

end ordered_dict
