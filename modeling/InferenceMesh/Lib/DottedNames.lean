-- Names whose parts stand between dots: where a word can be found in them, what
-- `replace` makes of them, and the numbers that are written in them.
import InferenceMesh.Lib.PyString

namespace python_string

/-! ## Replacing -/

section replace

variable {α : Type*} [DecidableEq α] {old new s t : List α}

/-- The rest of a match is skipped. -/
def replace_from (old new : List α) : Nat → List α → List α
  | _, [] => []
  | skip + 1, _ :: s => replace_from old new skip s
  | 0, c :: s =>
    if old <+: c :: s then new ++ replace_from old new (old.length - 1) s
    else c :: replace_from old new 0 s

/-- `s.replace(old, new)`, for a word that is not empty. -/
def replace (old new s : List α) : List α := replace_from old new 0 s

/-- `s.replace(old, new, 1)`. -/
def replace_first (old new : List α) : List α → List α
  | [] => []
  | c :: s => if old <+: c :: s then new ++ (c :: s).drop old.length else c :: replace_first old new s

theorem replace_first_append (hold : old ≠ []) : replace_first old new (old ++ s) = new ++ s := by
  obtain ⟨c, rest, rfl⟩ := List.exists_cons_of_ne_nil hold
  rw [List.cons_append, replace_first, ← List.cons_append, if_pos (List.prefix_append _ _),
    List.drop_left]

theorem replace_from_skip : replace_from old new s.length (s ++ t) = replace_from old new 0 t := by
  induction s with
  | nil => rfl
  | cons c s ih => exact ih

theorem replace_append (hold : old ≠ []) : replace old new (old ++ s) = new ++ replace old new s := by
  obtain ⟨c, rest, rfl⟩ := List.exists_cons_of_ne_nil hold
  unfold replace
  rw [List.cons_append, replace_from, ← List.cons_append, if_pos (List.prefix_append _ _)]
  simp [replace_from_skip]

theorem replace_cons (c : α) (hc : ¬ old <+: c :: s) :
    replace old new (c :: s) = c :: replace old new s := by
  unfold replace
  rw [replace_from, if_neg hc]

theorem replace_eq_self (h : ¬ old <:+: s) : replace old new s = s := by
  induction s with
  | nil => rfl
  | cons c s ih =>
    rw [replace_cons c (fun hpre => h hpre.isInfix), ih]
    exact fun hinf => h (List.infix_cons hinf)

theorem length_replace_from_le (hlen : new.length ≤ old.length) (k : Nat) (s : List α) :
    (replace_from old new k s).length ≤ s.length - k := by
  induction s generalizing k with
  | nil => simp [replace_from]
  | cons c s ih =>
    rcases k with _ | k
    · rw [replace_from]
      split
      · rename_i hpre
        have hle := hpre.length_le
        have := ih (old.length - 1)
        rw [List.length_append]
        rw [List.length_cons] at hle ⊢
        omega
      · have := ih 0
        simp only [List.length_cons]
        omega
    · have := ih k
      simp only [replace_from, List.length_cons]
      omega

/-- A shorter word makes the string shorter. -/
theorem length_replace_lt (hlen : new.length < old.length) (h : old <:+: s) :
    (replace old new s).length < s.length := by
  unfold replace
  induction s with
  | nil =>
    have hle := h.length_le
    rw [List.length_nil] at hle
    omega
  | cons c s ih =>
    rw [replace_from]
    split
    · rename_i hpre
      have hle := hpre.length_le
      have := length_replace_from_le hlen.le (old.length - 1) s
      rw [List.length_append]
      rw [List.length_cons] at hle ⊢
      omega
    · rename_i hpre
      have := ih ((List.infix_cons_iff.mp h).resolve_left hpre)
      simp only [List.length_cons]
      omega

theorem replace_eq_self_iff (hlen : new.length < old.length) :
    replace old new s = s ↔ ¬ old <:+: s := by
  refine ⟨fun heq h => ?_, replace_eq_self⟩
  have hlt := length_replace_lt hlen h
  rw [heq] at hlt
  exact lt_irrefl _ hlt

end replace

/-! ## Words between dots -/

section words

variable {α : Type*} {sub a b p q : List α} {c : α}

/-- A word without the separator is on one side of it. -/
theorem infix_append_cons_iff (hc : c ∉ sub) : sub <:+: a ++ c :: b ↔ sub <:+: a ∨ sub <:+: b := by
  constructor
  · rintro ⟨l, r, h⟩
    rw [List.append_assoc, List.append_eq_append_iff] at h
    rcases h with ⟨a', rfl, h⟩ | ⟨b', rfl, h⟩
    · -- The word starts on the left.
      rw [List.append_eq_append_iff] at h
      rcases h with ⟨a'', rfl, h⟩ | ⟨b'', rfl, h⟩
      · exact Or.inl ⟨l, a'', by simp⟩
      · rcases b'' with _ | ⟨x, b''⟩
        · exact Or.inl ⟨l, [], by simp⟩
        · have hx := (List.cons.inj h).1
          exact absurd (by simp [hx]) hc
    · rcases b' with _ | ⟨x, b'⟩
      · rcases sub with _ | ⟨x, sub⟩
        · exact Or.inl (List.nil_infix)
        · have hx := (List.cons.inj h).1
          exact absurd (by simp [hx]) hc
      · exact Or.inr ⟨b', r, by rw [List.append_assoc]; exact (List.cons.inj h).2.symm⟩
  · rintro (h | h)
    · exact h.trans (List.prefix_append _ _).isInfix
    · exact (h.trans (List.suffix_cons _ _).isInfix).trans (List.suffix_append _ _).isInfix

/-- A word with the separator in it stands around the first one, or behind it. -/
theorem infix_around_iff (ha : c ∉ a) (hp : c ∉ p) :
    p ++ c :: q <:+: a ++ c :: b ↔ p <:+ a ∧ q <+: b ∨ p ++ c :: q <:+: b := by
  constructor
  · rintro ⟨l, r, hwhole⟩
    have h : (l ++ p) ++ c :: (q ++ r) = a ++ c :: b := by simpa using hwhole
    clear hwhole
    rw [List.append_eq_append_iff] at h
    rcases h with ⟨a', rfl, h⟩ | ⟨b', hleft, h⟩
    · rcases a' with _ | ⟨x, a'⟩
      · rw [List.append_nil]
        exact Or.inl ⟨List.suffix_append _ _, ⟨r, (List.cons.inj h).2⟩⟩
      · have hx := (List.cons.inj h).1
        exact absurd (by simp [hx]) ha
    · rcases b' with _ | ⟨x, b'⟩
      · rw [List.append_nil] at hleft
        exact Or.inl ⟨hleft ▸ List.suffix_append _ _, ⟨r, (List.cons.inj h).2.symm⟩⟩
      · obtain ⟨rfl, rfl⟩ := List.cons.inj h
        right
        -- The word in front has no separator, so it is behind the first one.
        rw [List.append_eq_append_iff] at hleft
        rcases hleft with ⟨a', _, hleft⟩ | ⟨b'', _, hleft⟩
        · exact absurd (by simp [hleft]) hp
        · rcases b'' with _ | ⟨y, b''⟩
          · rw [List.nil_append] at hleft
            exact absurd (hleft ▸ List.mem_cons_self) hp
          · have hb' : b' = b'' ++ p := (List.cons.inj hleft).2
            exact ⟨b'', r, by simp [hb']⟩
  · rintro (⟨⟨l, rfl⟩, ⟨r, rfl⟩⟩ | h)
    · exact ⟨l, r, by simp⟩
    · exact (h.trans (List.suffix_cons _ _).isInfix).trans (List.suffix_append _ _).isInfix

/-- The part in front of the first separator and the rest are known from the whole. -/
theorem append_cons_inj {a' b' : List α} (ha : c ∉ a) (ha' : c ∉ a')
    (h : a ++ c :: b = a' ++ c :: b') : a = a' ∧ b = b' := by
  rw [List.append_eq_append_iff] at h
  rcases h with ⟨x, rfl, h⟩ | ⟨x, rfl, h⟩
  · rcases x with _ | ⟨y, x⟩
    · exact ⟨(List.append_nil _).symm, (List.cons.inj h).2⟩
    · have hy := (List.cons.inj h).1
      exact absurd (by simp [hy]) ha'
  · rcases x with _ | ⟨y, x⟩
    · exact ⟨List.append_nil _, (List.cons.inj h).2.symm⟩
    · have hy := (List.cons.inj h).1
      exact absurd (by simp [hy]) ha

end words

/-- `s.endswith(end)`. -/
def endswith (s last : String) : Bool := decide (last.toList <:+ s.toList)

/-- Two names with a dot between them. -/
def dotted (a b : String) : String := a ++ "." ++ b

section strings

variable {a b word p q : String}

theorem toList_dotted (a b : String) : (dotted a b).toList = a.toList ++ '.' :: b.toList := by
  simp [dotted]

theorem contains_dotted (hword : '.' ∉ word.toList) :
    contains (dotted a b) word = (contains a word || contains b word) := by
  rw [Bool.eq_iff_iff, Bool.or_eq_true, contains_iff, contains_iff, contains_iff, toList_dotted,
    infix_append_cons_iff hword]

theorem contains_dotted_pair (ha : '.' ∉ a.toList) (hp : '.' ∉ p.toList) :
    contains (dotted a b) (dotted p q) =
      (endswith a p && startswith b q || contains b (dotted p q)) := by
  rw [Bool.eq_iff_iff, Bool.or_eq_true, Bool.and_eq_true, contains_iff, contains_iff, startswith_iff,
    toList_dotted, toList_dotted, infix_around_iff ha hp]
  unfold endswith
  rw [decide_eq_true_iff]

theorem split_dots_dotted (ha : '.' ∉ a.toList) :
    split_dots (dotted a b) = a.toList :: split_dots b := by
  unfold split_dots
  rw [toList_dotted, List.splitOn_append_cons_self_of_not_mem ha]

theorem dotted_inj {a' b' : String} (ha : '.' ∉ a.toList) (ha' : '.' ∉ a'.toList)
    (h : dotted a b = dotted a' b') : a = a' ∧ b = b' := by
  have hlist := congrArg String.toList h
  rw [toList_dotted, toList_dotted] at hlist
  obtain ⟨hl, hr⟩ := append_cons_inj ha ha' hlist
  exact ⟨String.toList_inj.mp hl, String.toList_inj.mp hr⟩

end strings

/-! ## Numerals -/

theorem digit_of_isDigit {c : Char} (h : c.isDigit = true) : digit c = some (c.toNat - 48) := by
  have hbounds : 48 ≤ c.toNat ∧ c.toNat ≤ 57 := by
    unfold Char.isDigit at h
    simpa [UInt32.le_iff_toNat_le] using h
  have hzeros : zeros = 48 :: zeros.tail := rfl
  unfold digit
  rw [hzeros, List.find?_cons_of_pos]
  · rfl
  · simp
    omega

theorem not_space_of_isDigit {c : Char} (h : c.isDigit = true) : is_space c = false := by
  have hbounds : 48 ≤ c.toNat ∧ c.toNat ≤ 57 := by
    unfold Char.isDigit at h
    simpa [UInt32.le_iff_toNat_le] using h
  unfold is_space
  simp
  omega

theorem digits_of_isDigit {s : List Char} (hs : s ≠ []) (h : ∀ c ∈ s, c.isDigit = true) :
    digits s = some (s.map (fun c => c.toNat - 48)) := by
  induction s with
  | nil => exact absurd rfl hs
  | cons c s ih =>
    have hc := digit_of_isDigit (h c List.mem_cons_self)
    rcases s with _ | ⟨d, s⟩
    · simp [digits, hc]
    · have hd : d ≠ '_' := by
        rintro rfl
        have := h '_' (by simp)
        exact absurd this (by decide)
      have ih := ih (by simp) (fun x hx => h x (List.mem_cons_of_mem _ hx))
      rw [digits]
      · simp [hc, ih]
      · simp
      · rintro rest hrest
        exact hd (List.cons.inj hrest).1

theorem strip_of_isDigit {s : List Char} (h : ∀ c ∈ s, c.isDigit = true) : strip s = s := by
  have hdrop : ∀ t : List Char, (∀ c ∈ t, c.isDigit = true) → t.dropWhile is_space = t := by
    intro t ht
    rcases t with _ | ⟨c, t⟩
    · rfl
    · rw [List.dropWhile_cons_of_neg]
      simp [not_space_of_isDigit (ht c List.mem_cons_self)]
  unfold strip
  rw [hdrop s h, hdrop s.reverse (fun c hc => h c (List.mem_reverse.mp hc)), List.reverse_reverse]

theorem int_toDigits (i : Nat) : int (Nat.toDigits 10 i) =
    if (Nat.toDigits 10 i).length ≤ 4300 then some (i : Int) else none := by
  have hall : ∀ c ∈ Nat.toDigits 10 i, c.isDigit = true :=
    fun c hc => Nat.isDigit_of_mem_toDigits (by decide) (by decide) hc
  have hnat : natural (Nat.toDigits 10 i) =
      if (Nat.toDigits 10 i).length ≤ 4300 then some i else none := by
    unfold natural
    rw [digits_of_isDigit Nat.toDigits_ne_nil hall, Option.bind_some, List.length_map,
      List.foldl_map]
    have hfold := @Nat.ofDigitChars_ten_toDigits i
    rw [Nat.ofDigitChars_eq_foldl] at hfold
    split
    · rw [if_neg (by omega)]
    · rw [if_pos (by omega)]
      exact congrArg some hfold
  unfold int
  rw [strip_of_isDigit hall]
  split
  · rename_i rest heq
    have := hall '-' (heq ▸ List.mem_cons_self)
    exact absurd this (by decide)
  · rename_i rest heq
    have := hall '+' (heq ▸ List.mem_cons_self)
    exact absurd this (by decide)
  · rw [hnat]
    split
    · rfl
    · rfl

/-- A number is read back, when it does not have too many digits. -/
theorem int_repr (i : Nat) :
    int i.repr.toList = if i.repr.length ≤ 4300 then some (i : Int) else none := by
  have hlen : i.repr.length = (Nat.toDigits 10 i).length := by
    rw [← Nat.toList_repr, String.length_toList]
  rw [Nat.toList_repr, int_toDigits, hlen]

theorem dot_not_mem_repr (i : Nat) : '.' ∉ i.repr.toList := by
  rw [Nat.toList_repr]
  intro h
  exact absurd (Nat.isDigit_of_mem_toDigits (by decide) (by decide) h) (by decide)

theorem repr_inj {i j : Nat} (h : i.repr = j.repr) : i = j := by
  have hdigits := congrArg String.toList h
  rw [Nat.toList_repr, Nat.toList_repr] at hdigits
  rw [← @Nat.ofDigitChars_ten_toDigits i, hdigits, Nat.ofDigitChars_ten_toDigits]

/-- A word with another character in it is not part of a number. -/
theorem contains_repr (i : Nat) {word : String} (h : ∃ c ∈ word.toList, c.isDigit = false) :
    contains i.repr word = false := by
  obtain ⟨c, hc, hdigit⟩ := h
  rw [Bool.eq_false_iff]
  intro hcon
  have hmem := (contains_iff.mp hcon).subset hc
  rw [Nat.toList_repr] at hmem
  rw [Nat.isDigit_of_mem_toDigits (by decide) (by decide) hmem] at hdigit
  cases hdigit

theorem endswith_repr (i : Nat) {word : String} (h : ∃ c ∈ word.toList, c.isDigit = false) :
    endswith i.repr word = false := by
  rw [Bool.eq_false_iff]
  intro hend
  have hcon : contains i.repr word = true :=
    contains_iff.mpr (of_decide_eq_true hend).isInfix
  rw [contains_repr i h] at hcon
  cases hcon

end python_string
