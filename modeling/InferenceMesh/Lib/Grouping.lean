-- Items grouped by a key, in a dictionary that keeps the order in which the
-- keys were first seen. A scan of the groups that stops at the first bad key
-- misses an item just when a bad item stands before the first of its own key.
import Mathlib.Data.List.Induction
import Mathlib.Data.List.TakeWhile
import InferenceMesh.Lib.Dict

open ordered_dict

namespace grouping

variable {κ α : Type} [DecidableEq κ]

/-- `if k not in d: d[k] = []` and `d[k].append(x)`. -/
def push (d : Dict κ (List α)) (k : κ) (x : α) : Dict κ (List α) :=
  d.insert k ((d.get? k).getD [] ++ [x])

def group (key : α → κ) (l : List α) : Dict κ (List α) :=
  l.foldl (fun d x => push d (key x) x) Dict.empty

theorem group_concat (key : α → κ) (l : List α) (x : α) :
    group key (l ++ [x]) = push (group key l) (key x) x := by
  unfold group
  rw [List.foldl_append]
  rfl

theorem mem_keys_group {key : α → κ} {l : List α} {k : κ} :
    k ∈ (group key l).keys ↔ k ∈ l.map key := by
  induction l using List.reverseRecOn with
  | nil => simp [group, Dict.keys, Dict.empty]
  | append_singleton l x ih =>
    rw [group_concat, push, Dict.mem_keys_insert, ih]
    simp [or_comm]

/-- The group of a key: the items that have it, in their order. -/
theorem get?_group (key : α → κ) (l : List α) (k : κ) :
    ((group key l).get? k).getD [] = l.filter (fun x => decide (key x = k)) := by
  induction l using List.reverseRecOn with
  | nil => rfl
  | append_singleton l x ih =>
    rw [group_concat, push, Dict.get?_insert, List.filter_append]
    by_cases h : key x = k
    · subst h
      simp [ih]
    · simp [h, ih]

theorem items_group (key : α → κ) (l : List α) :
    (group key l).items =
      (group key l).keys.map (fun k => (k, l.filter (fun x => decide (key x = k)))) := by
  unfold Dict.keys
  rw [List.map_map]
  conv_lhs => rw [← List.map_id (group key l).items]
  refine List.map_congr_left fun ⟨k, xs⟩ hx => ?_
  have hget : (group key l).get? k = some xs := Dict.get?_eq_some.mpr hx
  simp [← get?_group, hget]

/-- The keys before the first bad one, as the items list them. -/
theorem mem_takeWhile_keys (key : α → κ) (good : κ → Bool) (l : List α) (k : κ) :
    k ∈ (group key l).keys.takeWhile good ↔ k ∈ (l.map key).takeWhile good := by
  induction l using List.reverseRecOn with
  | nil => rfl
  | append_singleton l x ih =>
    have hall : (∀ k ∈ (group key l).keys, good k = true) ↔ ∀ k ∈ l.map key, good k = true :=
      forall_congr' fun _ => by rw [mem_keys_group]
    rw [group_concat, push, Dict.keys_insert, List.map_append, List.map_singleton]
    by_cases hgood : ∀ k ∈ l.map key, good k = true
    · rw [List.takeWhile_append_of_pos hgood]
      rw [List.takeWhile_eq_self_iff.mpr hgood, List.takeWhile_eq_self_iff.mpr (hall.mpr hgood)] at ih
      split
      · rename_i hin
        rw [List.takeWhile_eq_self_iff.mpr (hall.mpr hgood), List.mem_append, ih, iff_self_or]
        intro hk
        have hk' := List.mem_singleton.mp (List.takeWhile_subset _ hk)
        exact hk' ▸ mem_keys_group.mp hin
      · rw [List.takeWhile_append_of_pos (hall.mpr hgood), List.mem_append, ih, List.mem_append]
    · have hbad : ∀ (keys more : List κ), (¬ ∀ k ∈ keys, good k = true) →
          (keys ++ more).takeWhile good = keys.takeWhile good := by
        intro keys more hnot
        rw [List.takeWhile_append, if_neg]
        intro hlen
        exact hnot (List.takeWhile_eq_self_iff.mp
          ((List.takeWhile_prefix good).eq_of_length hlen))
      rw [hbad _ _ hgood, ← ih]
      split
      · rfl
      · rw [hbad _ _ (mt hall.mp hgood)]

/-- The groups of distinct keys, one after the other, are the items with such a key. -/
theorem flatMap_filter_perm (key : α → κ) (l : List α) {keys : List κ} (h : keys.Nodup) :
    (keys.flatMap fun k => l.filter (fun x => decide (key x = k))).Perm
      (l.filter (fun x => decide (key x ∈ keys))) := by
  induction keys with
  | nil => simp
  | cons k rest ih =>
    obtain ⟨hnot, hrest⟩ := List.nodup_cons.mp h
    rw [List.flatMap_cons]
    have hsplit := List.filter_append_perm (fun x => decide (key x = k))
      (l.filter (fun x => decide (key x ∈ k :: rest)))
    rw [List.filter_filter, List.filter_filter] at hsplit
    refine List.Perm.trans ?_ hsplit
    refine List.Perm.append (.of_eq (List.filter_congr fun x _ => by simp +contextual)) ?_
    refine (ih hrest).trans (.of_eq (List.filter_congr fun x _ => ?_))
    by_cases hx : key x = k
    · simp [hx, hnot]
    · simp [hx]

/-- What a scan of the groups sees that stops at the first bad key. -/
theorem flatMap_takeWhile_perm (key : α → κ) (good : κ → Bool) (l : List α) :
    (((group key l).items.takeWhile (fun x => good x.1)).flatMap
        (fun x => x.2.map (fun y => (x.1, y)))).Perm
      ((l.filter (fun x => decide (key x ∈ (l.map key).takeWhile good))).map
        (fun x => (key x, x))) := by
  have hkeys : ((group key l).keys.takeWhile good).Nodup :=
    (List.takeWhile_sublist good).nodup (group key l).nodup
  have hgroups := (flatMap_filter_perm key l hkeys).map (fun x => (key x, x))
  rw [List.map_flatMap] at hgroups
  rw [items_group, List.takeWhile_map, List.flatMap_map]
  refine List.Perm.trans (.of_eq ?_) (hgroups.trans (.of_eq ?_))
  · refine List.flatMap_congr fun k _ => List.map_congr_left fun x hx => ?_
    rw [of_decide_eq_true (List.mem_filter.mp hx).2]
  · congr 1
    refine List.filter_congr fun x _ => ?_
    rw [decide_eq_decide, mem_takeWhile_keys]

/-- A stricter filter keeps the same items just when it keeps each of them. -/
theorem filter_perm_iff {p q : α → Bool} {l : List α} (h : ∀ x, p x = true → q x = true) :
    (l.filter p).Perm (l.filter q) ↔ ∀ x ∈ l, q x = true → p x = true := by
  constructor
  · intro hperm x hx hq
    exact (List.mem_filter.mp (hperm.mem_iff.mpr (List.mem_filter.mpr ⟨hx, hq⟩))).2
  · intro hall
    refine .of_eq (List.filter_congr fun x hx => ?_)
    rw [Bool.eq_iff_iff]
    exact ⟨h x, hall x hx⟩

end grouping
