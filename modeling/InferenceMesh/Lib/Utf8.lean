-- Decoding of UTF-8 as browsers do it: byte by byte, with a replacement
-- character wherever the bytes are no text. What two bytes have to do with each
-- other is one relation: the first begins a character that the second goes on.
import Mathlib

namespace utf8

abbrev Byte := UInt8

def newline : Byte := 0x0A

/-- The character that stands for bytes that are none. -/
def replacement : Char := Char.ofNat 0xFFFD

def byte_order_mark : Char := Char.ofNat 0xFEFF

/-! ## The decoder -/

/-- Where the decoder is: the character that has begun, the bytes that it still needs, and the
bounds of the next one. -/
structure State where
  code_point : Nat
  needed : Nat
  lower : Nat
  upper : Nat

/-- No character has begun. -/
def start : State := ⟨0, 0, 0x80, 0xBF⟩

/-- A byte with which a character begins: the text that it gives, and the state after it. -/
def first (byte : Nat) : List Char × State :=
  if byte ≤ 0x7F then ([Char.ofNat byte], start)
  else if 0xC2 ≤ byte ∧ byte ≤ 0xDF then ([], ⟨byte % 0x20, 1, 0x80, 0xBF⟩)
  else if 0xE0 ≤ byte ∧ byte ≤ 0xEF then
    ([], ⟨byte % 0x10, 2, if byte = 0xE0 then 0xA0 else 0x80, if byte = 0xED then 0x9F else 0xBF⟩)
  else if 0xF0 ≤ byte ∧ byte ≤ 0xF4 then
    ([], ⟨byte % 0x08, 3, if byte = 0xF0 then 0x90 else 0x80, if byte = 0xF4 then 0x8F else 0xBF⟩)
  else ([replacement], start)

/-- The byte goes on with the character that has begun. -/
def State.takes (s : State) (byte : Nat) : Prop := s.needed ≠ 0 ∧ s.lower ≤ byte ∧ byte ≤ s.upper

instance (s : State) (byte : Nat) : Decidable (s.takes byte) :=
  inferInstanceAs (Decidable (s.needed ≠ 0 ∧ s.lower ≤ byte ∧ byte ≤ s.upper))

/-- One byte. A character that is broken off leaves a replacement, and the byte begins another. -/
def next (s : State) (byte : Nat) : List Char × State :=
  if s.takes byte then
    let code_point := s.code_point * 0x40 + byte % 0x40
    if s.needed = 1 then ([Char.ofNat code_point], start)
    else ([], ⟨code_point, s.needed - 1, 0x80, 0xBF⟩)
  else if s.needed = 0 then first byte
  else (replacement :: (first byte).1, (first byte).2)

/-- The text of the bytes up to their end. -/
def scan (s : State) : List Byte → List Char
  | [] => if s.needed = 0 then [] else [replacement]
  | byte :: bytes => (next s byte.toNat).1 ++ scan (next s byte.toNat).2 bytes

/-- A byte order mark at the start of a text is no part of it. -/
def strip_mark : List Char → List Char
  | c :: text => if c = byte_order_mark then text else c :: text
  | [] => []

/-- The text of bytes that are decoded for themselves. -/
def decode (bytes : List Byte) : List Char := strip_mark (scan start bytes)

/-! ## Bytes that stand alone -/

/-- The character of a byte without its neighbours. -/
def alone (byte : Byte) : Char := if byte.toNat ≤ 0x7F then Char.ofNat byte.toNat else replacement

/-- The second byte goes on with the character that the first begins. -/
def Joins (x y : Byte) : Prop := (first x.toNat).2.takes y.toNat

instance (x y : Byte) : Decidable (Joins x y) :=
  inferInstanceAs (Decidable ((first x.toNat).2.takes y.toNat))

/-- No character takes more than one byte. -/
def SingleBytes (bytes : List Byte) : Prop := bytes.IsChain (fun x y => ¬ Joins x y)

instance (bytes : List Byte) : Decidable (SingleBytes bytes) :=
  inferInstanceAs (Decidable (bytes.IsChain (fun x y => ¬ Joins x y)))

/-- What is owed at the end of the bytes: a replacement for a character that has begun. -/
def State.pending (s : State) : Nat := if s.needed = 0 then 0 else 1

@[simp] theorem scan_start_nil : scan start [] = [] := rfl

@[simp] theorem start_pending : start.pending = 0 := rfl

theorem start_takes_not (byte : Nat) : ¬ start.takes byte := fun h => h.1 rfl

/-- A character has begun, and will be none of a single byte. -/
structure State.Begun (s : State) : Prop where
  needed : s.needed ≠ 0
  lower : 0x80 ≤ s.lower
  upper : s.upper ≤ 0xBF
  large : 0x80 ≤ (s.code_point * 0x40 + (s.lower - 0x80)) * 0x40 ^ (s.needed - 1)

/-- A byte is a character, or none, or begins one. -/
theorem first_cases (byte : Nat) :
    (byte ≤ 0x7F ∧ first byte = ([Char.ofNat byte], start)) ∨
      (0x7F < byte ∧ first byte = ([replacement], start)) ∨
      (0x7F < byte ∧ (first byte).1 = [] ∧ (first byte).2.Begun) := by
  unfold first
  split
  · exact Or.inl ⟨by assumption, rfl⟩
  · rename_i hlarge
    have hbyte : 0x7F < byte := by omega
    split
    · refine Or.inr (Or.inr ⟨hbyte, rfl, by simp, by simp, by simp, ?_⟩)
      simp only [Nat.sub_self, Nat.pow_zero]
      omega
    · split
      · refine Or.inr (Or.inr ⟨hbyte, rfl, by simp, ?_, ?_, ?_⟩)
        · dsimp only
          split <;> omega
        · dsimp only
          split <;> omega
        · simp only [Nat.reduceSub, Nat.pow_one]
          split <;> omega
      · split
        · refine Or.inr (Or.inr ⟨hbyte, rfl, by simp, ?_, ?_, ?_⟩)
          · dsimp only
            split <;> omega
          · dsimp only
            split <;> omega
          · simp only [Nat.reduceSub, Nat.reducePow]
            split <;> omega
        · exact Or.inr (Or.inl ⟨hbyte, rfl⟩)

theorem first_length (byte : Nat) : (first byte).1.length + (first byte).2.pending = 1 := by
  rcases first_cases byte with ⟨_, hfirst⟩ | ⟨_, hfirst⟩ | ⟨_, htext, hbegun⟩
  · rw [hfirst]
    rfl
  · rw [hfirst]
    rfl
  · rw [htext, State.pending, if_neg hbegun.needed]
    rfl

theorem next_length (s : State) (byte : Nat) :
    (next s byte).1.length + (next s byte).2.pending ≤ s.pending + 1 := by
  have hfirst := first_length byte
  unfold next
  split
  · rename_i htakes
    split
    · simp
    · simp only [List.length_nil, State.pending, if_neg htakes.1]
      split <;> omega
  · split
    · omega
    · rename_i hneeded
      simp only [List.length_cons, State.pending, if_neg hneeded] at *
      omega

/-- A text has no more characters than bytes. -/
theorem length_scan_le (s : State) (bytes : List Byte) :
    (scan s bytes).length ≤ s.pending + bytes.length := by
  induction bytes generalizing s with
  | nil =>
    unfold scan State.pending
    split <;> simp
  | cons byte bytes ih =>
    have hnext := next_length s byte.toNat
    have hrest := ih (next s byte.toNat).2
    simp only [scan, List.length_append, List.length_cons]
    omega

theorem next_of_none {s : State} (byte : Nat) (h : s.needed = 0) : next s byte = first byte := by
  unfold next
  rw [if_neg (fun htakes => htakes.1 h), if_pos h]

theorem next_of_broken {s : State} {byte : Nat} (h : s.needed ≠ 0) (hbroken : ¬ s.takes byte) :
    next s byte = (replacement :: (first byte).1, (first byte).2) := by
  unfold next
  rw [if_neg hbroken, if_neg h]

theorem scan_start (byte : Byte) (bytes : List Byte) :
    scan start (byte :: bytes) = (first byte.toNat).1 ++ scan (first byte.toNat).2 bytes := by
  rw [scan, next_of_none _ rfl]

/-- What a byte gives when the character that it begins is broken off at once. -/
theorem alone_eq (byte : Byte) : [alone byte] =
    (first byte.toNat).1 ++ if (first byte.toNat).2.needed = 0 then [] else [replacement] := by
  unfold alone
  rcases first_cases byte.toNat with ⟨hsmall, hfirst⟩ | ⟨hlarge, hfirst⟩ | ⟨hlarge, htext, hbegun⟩
  · rw [hfirst, if_pos hsmall]
    rfl
  · rw [hfirst, if_neg (by omega)]
    rfl
  · rw [htext, if_neg hbegun.needed, if_neg (by omega)]
    rfl

/-- A byte that the next one does not join gives its own character. -/
theorem scan_apart {x y : Byte} (bytes : List Byte) (h : ¬ Joins x y) :
    scan start (x :: y :: bytes) = alone x :: scan start (y :: bytes) := by
  rw [← List.singleton_append (l := scan start (y :: bytes)), alone_eq, scan_start, scan_start y,
    scan]
  by_cases hneeded : (first x.toNat).2.needed = 0
  · rw [next_of_none _ hneeded, if_pos hneeded, List.append_nil]
  · rw [next_of_broken hneeded h, if_neg hneeded, List.append_assoc]
    rfl

theorem scan_single (byte : Byte) : scan start [byte] = [alone byte] := by
  rw [alone_eq, scan_start, scan]

/-- Bytes that stand alone give one character each. -/
theorem scan_single_bytes {bytes : List Byte} (h : SingleBytes bytes) :
    scan start bytes = bytes.map alone := by
  induction bytes with
  | nil => rfl
  | cons x bytes ih =>
    cases bytes with
    | nil => exact scan_single x
    | cons y bytes =>
      obtain ⟨hxy, hrest⟩ := List.isChain_cons_cons.mp h
      rw [scan_apart bytes hxy, ih hrest]
      rfl

/-- Bytes that belong together give fewer characters than bytes. -/
theorem length_scan_lt {bytes : List Byte} (h : ¬ SingleBytes bytes) :
    (scan start bytes).length < bytes.length := by
  induction bytes with
  | nil => exact absurd List.isChain_nil h
  | cons x bytes ih =>
    cases bytes with
    | nil => exact absurd (List.isChain_singleton x) h
    | cons y bytes =>
      by_cases hxy : Joins x y
      · -- The two bytes give one character at most.
        have htakes : (first x.toNat).2.takes y.toNat := hxy
        have hbegun : (first x.toNat).1 = [] := by
          rcases first_cases x.toNat with ⟨_, hfirst⟩ | ⟨_, hfirst⟩ | ⟨_, htext, _⟩
          · rw [hfirst] at htakes
            exact absurd htakes (start_takes_not _)
          · rw [hfirst] at htakes
            exact absurd htakes (start_takes_not _)
          · exact htext
        have hone : (next (first x.toNat).2 y.toNat).1.length +
            (next (first x.toNat).2 y.toNat).2.pending ≤ 1 := by
          unfold next
          rw [if_pos htakes]
          split
          · simp
          · simp only [List.length_nil, State.pending]
            split <;> omega
        have hrest := length_scan_le (next (first x.toNat).2 y.toNat).2 bytes
        rw [scan_start, scan, hbegun]
        simp only [List.nil_append, List.length_append, List.length_cons]
        omega
      · have hrest : ¬ SingleBytes (y :: bytes) :=
          fun hchain => h (List.isChain_cons_cons.mpr ⟨hxy, hchain⟩)
        have hlt := ih hrest
        rw [scan_apart bytes hxy]
        simp only [List.length_cons] at *
        omega

/-! ## Lines -/

/-- The states of the decoder between bytes. -/
def State.Between (s : State) : Prop := s.needed = 0 ∨ s.Begun

theorem start_between : start.Between := Or.inl rfl

theorem takes_newline_not {s : State} (h : s.Between) : ¬ s.takes newline.toNat := by
  rintro ⟨hneeded, hlower, _⟩
  have hbound := (h.resolve_left hneeded).lower
  have hten : newline.toNat = 10 := rfl
  omega

theorem first_between (byte : Nat) : (first byte).2.Between := by
  rcases first_cases byte with ⟨_, hfirst⟩ | ⟨_, hfirst⟩ | ⟨_, _, hbegun⟩
  · rw [hfirst]
    exact start_between
  · rw [hfirst]
    exact start_between
  · exact Or.inr hbegun

/-- The code point with one more byte is at least as large as it was going to be. -/
theorem taken_large {s : State} {byte : Nat} (hbegun : s.Begun) (htakes : s.takes byte) :
    0x80 ≤ (s.code_point * 0x40 + byte % 0x40) * 0x40 ^ (s.needed - 1) := by
  obtain ⟨_, hlower, hupper⟩ := htakes
  have hlow := hbegun.lower
  have hup := hbegun.upper
  have hle : s.code_point * 0x40 + (s.lower - 0x80) ≤ s.code_point * 0x40 + byte % 0x40 := by
    omega
  exact hbegun.large.trans (Nat.mul_le_mul_right _ hle)

theorem next_between {s : State} (h : s.Between) (byte : Nat) : (next s byte).2.Between := by
  unfold next
  split
  · rename_i htakes
    have hbegun := h.resolve_left htakes.1
    split
    · exact start_between
    · rename_i hmore
      have hneeded := hbegun.needed
      refine Or.inr ⟨?_, Nat.le_refl _, Nat.le_refl _, ?_⟩
      · dsimp only
        omega
      · have hpow : 0x40 ^ (s.needed - 1) = 0x40 * 0x40 ^ (s.needed - 1 - 1) := by
          rw [← Nat.pow_succ']
          congr 1
          omega
        have hlarge := taken_large hbegun htakes
        rw [hpow, ← Nat.mul_assoc] at hlarge
        dsimp only
        rw [Nat.sub_self, Nat.add_zero]
        exact hlarge
  · split
    · exact first_between byte
    · exact first_between byte

/-- After a newline the decoder starts again. -/
theorem next_newline {s : State} (h : s.Between) : (next s newline.toNat).2 = start := by
  by_cases hneeded : s.needed = 0
  · rw [next_of_none _ hneeded]
    rfl
  · rw [next_of_broken hneeded (takes_newline_not h)]
    rfl

theorem next_newline_text {s : State} (h : s.Between) :
    ∃ text, (next s newline.toNat).1 = text ++ ['\n'] := by
  by_cases hneeded : s.needed = 0
  · rw [next_of_none _ hneeded]
    exact ⟨[], rfl⟩
  · rw [next_of_broken hneeded (takes_newline_not h)]
    exact ⟨[replacement], rfl⟩

/-- What comes after a line has its own text. -/
theorem scan_line {s : State} (h : s.Between) (line rest : List Byte) :
    scan s (line ++ newline :: rest) = scan s (line ++ [newline]) ++ scan start rest := by
  induction line generalizing s with
  | nil =>
    rw [List.nil_append, List.nil_append, scan, scan, next_newline h, scan_start_nil,
      List.append_nil]
  | cons byte line ih =>
    rw [List.cons_append, List.cons_append, scan, scan, ih (next_between h _), List.append_assoc]

/-- The text of a line ends with its newline. -/
theorem scan_line_ends {s : State} (h : s.Between) (line : List Byte) :
    ∃ text, scan s (line ++ [newline]) = text ++ ['\n'] := by
  induction line generalizing s with
  | nil =>
    obtain ⟨text, htext⟩ := next_newline_text h
    refine ⟨text, ?_⟩
    rw [List.nil_append, scan, next_newline h, htext, scan_start_nil, List.append_nil]
  | cons byte line ih =>
    obtain ⟨text, htext⟩ := ih (next_between h byte.toNat)
    refine ⟨(next s byte.toNat).1 ++ text, ?_⟩
    rw [List.cons_append, scan, htext, List.append_assoc]

theorem ofNat_ne_newline {n : Nat} (h : n ≠ 10) : Char.ofNat n ≠ '\n' := by
  intro heq
  have hval := congrArg Char.toNat heq
  unfold Char.ofNat at hval
  split at hval
  · exact h hval
  · cases hval

theorem replacement_ne_newline : replacement ≠ '\n' := by decide

theorem first_newline_not {byte : Byte} (h : byte ≠ newline) : '\n' ∉ (first byte.toNat).1 := by
  have hten : byte.toNat ≠ 10 := fun heq => h (UInt8.toNat_inj.mp heq)
  rcases first_cases byte.toNat with ⟨_, hfirst⟩ | ⟨_, hfirst⟩ | ⟨_, htext, _⟩
  · rw [hfirst]
    exact fun hmem => ofNat_ne_newline hten (List.mem_singleton.mp hmem).symm
  · rw [hfirst]
    exact fun hmem => replacement_ne_newline (List.mem_singleton.mp hmem).symm
  · rw [htext]
    exact List.not_mem_nil

theorem next_newline_not {s : State} (hs : s.Between) {byte : Byte} (h : byte ≠ newline) :
    '\n' ∉ (next s byte.toNat).1 := by
  unfold next
  split
  · rename_i htakes
    have hlarge := taken_large (hs.resolve_left htakes.1) htakes
    split
    · rename_i hlast
      rw [hlast, Nat.sub_self, Nat.pow_zero, Nat.mul_one] at hlarge
      exact fun hmem => ofNat_ne_newline (by omega) (List.mem_singleton.mp hmem).symm
    · exact List.not_mem_nil
  · split
    · exact first_newline_not h
    · intro hmem
      rcases List.mem_cons.mp hmem with heq | hmem
      · exact replacement_ne_newline heq.symm
      · exact first_newline_not h hmem

/-- Bytes without a newline have a text without one. -/
theorem scan_newline_not {s : State} (hs : s.Between) {bytes : List Byte} (h : newline ∉ bytes) :
    '\n' ∉ scan s bytes := by
  induction bytes generalizing s with
  | nil =>
    unfold scan
    split
    · exact List.not_mem_nil
    · exact fun hmem => replacement_ne_newline (List.mem_singleton.mp hmem).symm
  | cons byte bytes ih =>
    have hne : byte ≠ newline := fun heq => h (heq ▸ List.mem_cons_self)
    have hrest : newline ∉ bytes := fun hmem => h (List.mem_cons_of_mem _ hmem)
    rw [scan, List.mem_append, not_or]
    exact ⟨next_newline_not hs hne, ih (next_between hs _) hrest⟩

/-! ## Whole texts -/

theorem alone_newline_iff (byte : Byte) : alone byte = '\n' ↔ byte = newline := by
  unfold alone
  constructor
  · intro h
    split at h
    · by_contra hne
      exact ofNat_ne_newline (fun heq => hne (UInt8.toNat_inj.mp heq)) h
    · exact absurd h replacement_ne_newline
  · rintro rfl
    rfl

theorem ofNat_small {n : Nat} (h : n ≤ 0x7F) : (Char.ofNat n).toNat = n := by
  unfold Char.ofNat
  rw [dif_pos (Or.inl (by omega))]
  rfl

theorem alone_ne_mark (byte : Byte) : alone byte ≠ byte_order_mark := by
  unfold alone
  split
  · rename_i hsmall
    intro h
    have hval := congrArg Char.toNat h
    rw [ofNat_small hsmall] at hval
    have hmark : byte_order_mark.toNat = 0xFEFF := by decide
    omega
  · decide

theorem strip_mark_alone (byte : Byte) (text : List Char) :
    strip_mark (alone byte :: text) = alone byte :: text := if_neg (alone_ne_mark byte)

theorem strip_mark_sublist (text : List Char) : (strip_mark text).Sublist text := by
  cases text with
  | nil => exact List.Sublist.refl _
  | cons c text =>
    rw [strip_mark]
    split
    · exact List.sublist_cons_self _ _
    · exact List.Sublist.refl _

theorem strip_mark_line (text more : List Char) : ∃ text', text'.length ≤ text.length ∧
    strip_mark (text ++ '\n' :: more) = text' ++ '\n' :: more := by
  cases text with
  | nil => exact ⟨[], Nat.le_refl _, rfl⟩
  | cons c text =>
    rw [List.cons_append, strip_mark]
    split
    · exact ⟨text, Nat.le_succ _, rfl⟩
    · exact ⟨c :: text, Nat.le_refl _, rfl⟩

theorem decode_newline_not {bytes : List Byte} (h : newline ∉ bytes) : '\n' ∉ decode bytes :=
  fun hmem => scan_newline_not start_between h ((strip_mark_sublist _).subset hmem)

theorem decode_single (byte : Byte) : decode [byte] = [alone byte] := by
  unfold decode
  rw [scan_single, strip_mark_alone]

theorem decode_single_bytes {bytes : List Byte} (h : SingleBytes bytes) :
    decode bytes = bytes.map alone := by
  unfold decode
  rw [scan_single_bytes h]
  cases bytes with
  | nil => rfl
  | cons byte bytes => exact strip_mark_alone byte _

/-- The lines whose bytes stand alone, with what comes behind them. -/
theorem decode_lines {line : List Byte} (h : SingleBytes (line ++ [newline])) (bytes : List Byte) :
    decode (line ++ newline :: bytes) = (line ++ [newline]).map alone ++ scan start bytes := by
  unfold decode
  rw [scan_line start_between, scan_single_bytes h]
  cases line with
  | nil => exact strip_mark_alone newline _
  | cons byte line => exact strip_mark_alone byte _

/-- The lines of a text, with what comes behind them. -/
theorem decode_line (line bytes : List Byte) : ∃ text,
    text.length + 1 ≤ (scan start (line ++ [newline])).length ∧
      decode (line ++ newline :: bytes) = text ++ '\n' :: scan start bytes := by
  obtain ⟨text, htext⟩ := scan_line_ends start_between line
  obtain ⟨text', hle, hstrip⟩ := strip_mark_line text (scan start bytes)
  refine ⟨text', ?_, ?_⟩
  · rw [htext, List.length_append]
    exact Nat.succ_le_succ hle
  · unfold decode
    rw [scan_line start_between, htext, List.append_assoc]
    exact hstrip

end utf8
