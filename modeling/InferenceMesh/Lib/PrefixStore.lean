-- A store of sequences that is closed under prefixes, with a label for each
-- stored sequence: what a trie holds, whatever its nodes look like. A lookup
-- follows a key for as long as the store goes on.
import Mathlib

namespace prefix_store

variable {α β : Type*}

/-- The labels of the stored sequences. With a sequence its beginnings are stored. -/
@[ext]
structure PrefixStore (α β : Type*) where
  label : List α → Option β
  nil : label [] = none
  closed : ∀ p x, p ≠ [] → (label (p ++ [x])).isSome → (label p).isSome

namespace PrefixStore

def empty : PrefixStore α β := ⟨fun _ => none, rfl, fun _ _ _ h => h⟩

/-- The sequence is stored, or empty. -/
def Stored (S : PrefixStore α β) (p : List α) : Prop := p = [] ∨ ∃ v, S.label p = some v

/-- All beginnings of the key are stored, the new ones with their labels. -/
def insert [DecidableEq α] (S : PrefixStore α β) (key : List α) (labels : List β) :
    PrefixStore α β where
  label p := (S.label p).or (if p ≠ [] ∧ p <+: key then labels[p.length - 1]? else none)
  nil := by simp [S.nil]
  closed := by
    intro p x hp h
    rw [Option.isSome_or, Bool.or_eq_true] at h ⊢
    rcases h with h | h
    · exact Or.inl (S.closed p x hp h)
    · right
      split at h
      · rename_i hkey
        have hlt : p.length < labels.length := by simpa using h
        rw [if_pos ⟨hp, ( List.prefix_append p [x]).trans hkey.2⟩]
        rw [List.getElem?_eq_getElem (by omega)]
        rfl
      · cases h

open Classical in
/-- The store without some sequences and all that goes on from them. -/
noncomputable def without (S : PrefixStore α β) (gone : List α → Prop) : PrefixStore α β where
  label p := if ∃ q, q <+: p ∧ gone q then none else S.label p
  nil := by simp [S.nil]
  closed := by
    intro p x hp h
    split at h
    · cases h
    · rename_i hkept
      rw [if_neg]
      · exact S.closed p x hp h
      · rintro ⟨q, hq, hgone⟩
        exact hkept ⟨q, hq.trans ( List.prefix_append p [x]), hgone⟩

theorem without_label_some {S : PrefixStore α β} {gone : List α → Prop} {p : List α} {v : β} :
    (S.without gone).label p = some v ↔ S.label p = some v ∧ ∀ q, q <+: p → ¬ gone q := by
  unfold without
  dsimp only
  split
  · rename_i h
    obtain ⟨q, hq, hgone⟩ := h
    exact ⟨fun h => (by cases h), fun h => absurd hgone (h.2 q hq)⟩
  · rename_i h
    exact ⟨fun hs => ⟨hs, fun q hq hgone => h ⟨q, hq, hgone⟩⟩, fun h => h.1⟩

theorem stored_of_beginning {S : PrefixStore α β} {p q : List α} (hq : S.Stored q) (h : p <+: q) :
    S.Stored p := by
  obtain ⟨rest, rfl⟩ := h
  induction rest using List.reverseRecOn with
  | nil => simpa using hq
  | append_singleton rest x ih =>
    apply ih
    by_cases hp : p ++ rest = []
    · exact Or.inl hp
    · right
      rcases hq with hq | ⟨v, hv⟩
      · simp at hq
      · rw [← List.append_assoc] at hv
        exact Option.isSome_iff_exists.mp (S.closed (p ++ rest) x hp (by rw [hv]; rfl))

/-- What is stored keeps its labels. -/
theorem insert_of_stored [DecidableEq α] {S : PrefixStore α β} {key : List α} {labels : List β}
    (h : S.Stored key) : S.insert key labels = S := by
  ext p v
  show (S.label p).or _ = some v ↔ S.label p = some v
  rw [Option.or_eq_some_iff]
  constructor
  · rintro (hold | ⟨hnone, hnew⟩)
    · exact hold
    · split at hnew
      · rename_i hp
        rcases stored_of_beginning h hp.2 with hnil | ⟨w, hw⟩
        · exact absurd hnil hp.1
        · rw [hnone] at hw
          cases hw
      · cases hnew
  · exact Or.inl

/-! ## Lookup -/

/-- The labels along a key behind what has been read already. -/
def follow (S : PrefixStore α β) : List α → List α → List β
  | _, [] => []
  | before, x :: key =>
    match S.label (before ++ [x]) with
    | none => []
    | some v => v :: follow S (before ++ [x]) key

/-- The labels of the longest beginning of the key that is stored. -/
def lookup (S : PrefixStore α β) (key : List α) : List β := S.follow [] key

/-- A list of labels is what a lookup has to return: it labels a beginning of the key, and no
longer one is stored. -/
structure Longest (S : PrefixStore α β) (key : List α) (labels : List β) : Prop where
  le : labels.length ≤ key.length
  labelled : ∀ i v, labels[i]? = some v → S.label (key.take (i + 1)) = some v
  stored : S.Stored (key.take labels.length)
  longest : ∀ n, labels.length < n → n ≤ key.length → ¬ S.Stored (key.take n)

theorem follow_longest (S : PrefixStore α β) (before key : List α) :
    (S.follow before key).length ≤ key.length ∧
      (∀ i v, (S.follow before key)[i]? = some v →
        S.label (before ++ key.take (i + 1)) = some v) ∧
      ((S.follow before key).length < key.length →
        S.label (before ++ key.take ((S.follow before key).length + 1)) = none) := by
  induction key generalizing before with
  | nil => simp [follow]
  | cons x key ih =>
    unfold follow
    rcases hx : S.label (before ++ [x]) with _ | v
    · simp [hx]
    · obtain ⟨hle, hlabel, hstop⟩ := ih (before ++ [x])
      simp only [List.append_assoc, List.singleton_append] at hlabel hstop
      refine ⟨by simpa using hle, ?_, ?_⟩
      · intro i w hw
        cases i with
        | zero =>
          rw [List.getElem?_cons_zero] at hw
          rw [← hw]
          simpa using hx
        | succ i =>
          rw [List.getElem?_cons_succ] at hw
          simpa using hlabel i w hw
      · intro hlt
        rw [List.length_cons, List.length_cons] at hlt
        simpa using hstop (by omega)

theorem lookup_longest (S : PrefixStore α β) (key : List α) : S.Longest key (S.lookup key) := by
  obtain ⟨hle, hlabel, hstop⟩ := S.follow_longest [] key
  simp only [List.nil_append] at hlabel hstop
  refine ⟨hle, hlabel, ?_, ?_⟩
  · rcases Nat.eq_zero_or_pos (S.lookup key).length with hzero | hpos
    · left
      rw [hzero, List.take_zero]
    · right
      have hlast : (S.lookup key)[(S.lookup key).length - 1]? =
          some ((S.lookup key)[(S.lookup key).length - 1]) := List.getElem?_eq_getElem _
      have hstored := hlabel _ _ hlast
      rw [Nat.sub_add_cancel hpos] at hstored
      exact ⟨_, hstored⟩
  · intro n hlt hn hstored
    have hnext := stored_of_beginning hstored
      (List.take_prefix_take_left (Nat.succ_le_of_lt hlt))
    have hnone := hstop (lt_of_lt_of_le hlt hn)
    have hlen : (S.lookup key).length < key.length := lt_of_lt_of_le hlt hn
    rcases hnext with hempty | ⟨v, hv⟩
    · have hlength := congrArg List.length hempty
      rw [List.length_take, List.length_nil] at hlength
      omega
    · change S.label (key.take ((S.lookup key).length + 1)) = none at hnone
      rw [hnone] at hv
      cases hv

/-- There is only one list of labels that a lookup may return. -/
theorem Longest.eq_lookup {S : PrefixStore α β} {key : List α} {labels : List β}
    (h : S.Longest key labels) : labels = S.lookup key := by
  have h' := S.lookup_longest key
  have hlen : labels.length = (S.lookup key).length := by
    rcases lt_trichotomy labels.length (S.lookup key).length with hlt | heq | hgt
    · exact absurd h'.stored (h.longest _ hlt h'.le)
    · exact heq
    · exact absurd h.stored (h'.longest _ hgt h.le)
  apply List.ext_getElem hlen
  intro i hi hi'
  have hl := h.labelled i _ (List.getElem?_eq_getElem hi)
  have hr := h'.labelled i _ (List.getElem?_eq_getElem hi')
  rw [hl] at hr
  exact Option.some.inj hr

end PrefixStore

open PrefixStore

/-! ## Lines -/

/-- A line of items with their labels gives a label to each of its beginnings. -/
structure Labels (line : List (α × β)) (p : List α) (v : β) : Prop where
  ne_nil : p ≠ []
  beginning : p <+: line.map Prod.fst
  last : (line.map Prod.snd)[p.length - 1]? = some v

/-- The labels of the store are those that the lines give. -/
def Spells (lines : List (α × β) → Prop) (S : PrefixStore α β) : Prop :=
  ∀ p v, S.label p = some v ↔ ∃ line, lines line ∧ Labels line p v

theorem Labels.mono {line line' : List (α × β)} {p : List α} {v : β} (h : Labels line p v)
    (hle : line <+: line') : Labels line' p v := by
  obtain ⟨more, rfl⟩ := hle
  refine ⟨h.ne_nil, h.beginning.trans (by simp), ?_⟩
  rw [List.map_append, List.getElem?_append_left (List.getElem?_eq_some_iff.mp h.last).1]
  exact h.last

/-- Each beginning of a line has a label. -/
theorem exists_labels {line : List (α × β)} {p : List α} (hne : p ≠ [])
    (h : p <+: line.map Prod.fst) : ∃ v, Labels line p v := by
  have hle := h.length_le
  have hpos := List.length_pos_of_ne_nil hne
  rw [List.length_map] at hle
  exact ⟨_, hne, h, List.getElem?_eq_getElem (by rw [List.length_map]; omega)⟩

/-- A beginning that is not longer than a part of the line has its label from that part. -/
theorem Labels.shorten {line more : List (α × β)} {p : List α} {v : β}
    (h : Labels (line ++ more) p v) (hle : p.length ≤ line.length) : Labels line p v := by
  have hpos := List.length_pos_of_ne_nil h.ne_nil
  refine ⟨h.ne_nil, ?_, ?_⟩
  · have hbeg := h.beginning
    rw [List.map_append] at hbeg
    apply List.prefix_of_prefix_length_le hbeg ( List.prefix_append _ _)
    rw [List.length_map]
    exact hle
  · have hlast := h.last
    rw [List.map_append, List.getElem?_append_left (by rw [List.length_map]; omega)] at hlast
    exact hlast

namespace Spells

variable {lines : List (α × β) → Prop} {S : PrefixStore α β}

theorem empty : Spells (fun line : List (α × β) => line = []) PrefixStore.empty := by
  intro p v
  constructor
  · intro h
    cases h
  · rintro ⟨line, rfl, h⟩
    exact absurd (List.prefix_nil.mp h.beginning) h.ne_nil

theorem stored (h : Spells lines S) {line : List (α × β)} (hline : lines line) {p : List α}
    (hp : p <+: line.map Prod.fst) : S.Stored p := by
  by_cases hne : p = []
  · exact Or.inl hne
  · obtain ⟨v, hv⟩ := exists_labels hne hp
    exact Or.inr ⟨v, (h p v).mpr ⟨line, hline, hv⟩⟩

theorem exists_line (h : Spells lines S) {p : List α} (hp : S.Stored p) (hne : p ≠ []) :
    ∃ line, lines line ∧ p <+: line.map Prod.fst := by
  obtain ⟨v, hv⟩ := hp.resolve_left hne
  obtain ⟨line, hline, hl⟩ := (h p v).mp hv
  exact ⟨line, hline, hl.beginning⟩

/-- Lines that say no more than those that are there change nothing. -/
theorem congr (h : Spells lines S) {lines' : List (α × β) → Prop}
    (hsub : ∀ line, lines line → lines' line)
    (hle : ∀ line, lines' line → ∃ line', lines line' ∧ line <+: line') : Spells lines' S := by
  intro p v
  rw [h p v]
  constructor
  · rintro ⟨line, hline, hl⟩
    exact ⟨line, hsub line hline, hl⟩
  · rintro ⟨line, hline, hl⟩
    obtain ⟨line', hline', hmore⟩ := hle line hline
    exact ⟨line', hline', hl.mono hmore⟩

/-- A line that a key follows as far as the lines go has the labels that a lookup returns. -/
theorem lookup_eq (h : Spells lines S) {line : List (α × β)} (hline : lines line)
    {rest : List α} (hstop : ∀ x, [x] <+: rest → ¬ S.Stored (line.map Prod.fst ++ [x])) :
    S.lookup (line.map Prod.fst ++ rest) = line.map Prod.snd := by
  refine (Longest.eq_lookup ⟨by simp, ?_, ?_, ?_⟩).symm
  · intro i v hv
    have hlt : i < line.length := by
      have := (List.getElem?_eq_some_iff.mp hv).1
      simpa using this
    have htake : (line.map Prod.fst ++ rest).take (i + 1) = (line.map Prod.fst).take (i + 1) :=
      List.take_append_of_le_length (by simpa using hlt)
    rw [htake]
    refine (h _ v).mpr ⟨line, hline, ?_, List.take_prefix _ _, ?_⟩
    · apply List.ne_nil_of_length_pos
      rw [List.length_take, List.length_map]
      omega
    · rw [List.length_take, List.length_map, min_eq_left hlt, Nat.add_sub_cancel]
      exact hv
  · rw [List.length_map, List.take_append_of_le_length (by simp), List.take_of_length_le (by simp)]
    exact h.stored hline List.prefix_rfl
  · intro n hlt hn hs
    rw [List.length_map] at hlt
    rcases rest with _ | ⟨x, rest⟩
    · simp only [List.append_nil, List.length_map] at hn
      omega
    · apply hstop x (by simp)
      refine stored_of_beginning hs ?_
      rw [List.prefix_take_iff]
      refine ⟨by simp, ?_⟩
      simp only [List.length_append, List.length_map, List.length_singleton]
      omega

/-- A line that goes on from one of the lines, along a key, is what an insertion adds. -/
theorem insert [DecidableEq α] (h : Spells lines S) {line : List (α × β)} (hline : lines line)
    {x : α} {rest : List α} {labels : List β}
    (hlen : labels.length = line.length + (x :: rest).length)
    (hnew : ¬ S.Stored (line.map Prod.fst ++ [x])) :
    Spells (fun l => lines l ∨ l = line ++ (x :: rest).zip (labels.drop line.length))
      (S.insert (line.map Prod.fst ++ x :: rest) labels) := by
  have hmore : ((x :: rest).zip (labels.drop line.length)).map Prod.fst = x :: rest :=
    List.map_fst_zip (by rw [List.length_drop]; omega)
  have hsnd : ((x :: rest).zip (labels.drop line.length)).map Prod.snd = labels.drop line.length :=
    List.map_snd_zip (by rw [List.length_drop]; omega)
  generalize hkey : x :: rest = key at *
  intro p v
  show (S.label p).or _ = some v ↔ _
  rw [Option.or_eq_some_iff]
  constructor
  · rintro (hold | ⟨hnone, hadd⟩)
    · obtain ⟨l, hl, hlabels⟩ := (h p v).mp hold
      exact ⟨l, Or.inl hl, hlabels⟩
    · split at hadd
      · rename_i hp
        refine ⟨_, Or.inr rfl, hp.1, ?_, ?_⟩
        · rw [List.map_append, hmore]
          exact hp.2
        · -- What is new lies behind the old line, as the old line is stored.
          have hlong : line.length < p.length := by
            by_contra hle
            have hold : p <+: line.map Prod.fst := by
              apply List.prefix_of_prefix_length_le hp.2 ( List.prefix_append _ _)
              rw [List.length_map]
              omega
            rcases h.stored hline hold with hnil | ⟨w, hw⟩
            · exact hp.1 hnil
            · rw [hnone] at hw
              cases hw
          rw [List.map_append, hsnd, List.getElem?_append_right (by rw [List.length_map]; omega),
            List.getElem?_drop, List.length_map]
          have hidx : line.length + (p.length - 1 - line.length) = p.length - 1 := by omega
          rw [hidx]
          exact hadd
      · cases hadd
  · rintro ⟨l, hl | rfl, hlabels⟩
    · exact Or.inl ((h p v).mpr ⟨l, hl, hlabels⟩)
    · by_cases hle : p.length ≤ line.length
      · exact Or.inl ((h p v).mpr ⟨line, hline, hlabels.shorten hle⟩)
      · right
        have hbeg := hlabels.beginning
        rw [List.map_append, hmore] at hbeg
        have hnone : S.label p = none := by
          rw [Option.eq_none_iff_forall_ne_some]
          intro w hw
          apply hnew
          refine stored_of_beginning (Or.inr ⟨w, hw⟩) ?_
          have hfirst : line.map Prod.fst ++ [x] <+: line.map Prod.fst ++ key := by
            rw [← hkey]
            simp
          apply List.prefix_of_prefix_length_le hfirst hbeg
          simp only [List.length_append, List.length_map, List.length_singleton]
          omega
        refine ⟨hnone, ?_⟩
        rw [if_pos ⟨hlabels.ne_nil, hbeg⟩]
        have hlast := hlabels.last
        rw [List.map_append, hsnd, List.getElem?_append_right (by rw [List.length_map]; omega),
          List.getElem?_drop, List.length_map] at hlast
        have hidx : line.length + (p.length - 1 - line.length) = p.length - 1 := by omega
        rw [hidx] at hlast
        exact hlast

end Spells

end prefix_store
