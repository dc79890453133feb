-- Lines of a stream that comes in pieces. A reader keeps the line that has not
-- ended yet, and hands out those that have. Its lines are those of the whole
-- stream, however the stream is cut; only which piece ends them depends on it.
import Mathlib

namespace text_lines

section lines

variable {α : Type*} [DecidableEq α] (sep : α)

/-- The lines that have ended. -/
def complete (text : List α) : List (List α) := (text.splitOn sep).dropLast

/-- The line that has not ended. -/
def rest (text : List α) : List α := (text.splitOn sep).getLast?.getD []

/-- The text up to the end of its last line. -/
def terminated (text : List α) : List α := text.rdropWhile (fun c => c ≠ sep)

/-- The lines that end with each piece of a stream. -/
def feed (buffer : List α) : List (List α) → List (List (List α))
  | [] => []
  | piece :: pieces =>
    complete sep (buffer ++ piece) :: feed (rest sep (buffer ++ piece)) pieces

variable {sep} {text : List α}

/-! ## The last line -/

theorem last_line (sep : α) (text : List α) :
    sep ∉ text ∨ ∃ before after, text = before ++ sep :: after ∧ sep ∉ after := by
  by_cases hmem : sep ∈ text
  · obtain ⟨after, before, hsplit, hnot⟩ :=
      List.eq_append_cons_of_mem (List.mem_reverse.mpr hmem)
    refine Or.inr ⟨before.reverse, after.reverse, ?_, ?_⟩
    · rw [← List.reverse_reverse text, hsplit]
      simp
    · rw [List.mem_reverse]
      exact hnot
  · exact Or.inl hmem

theorem complete_of_not_mem (h : sep ∉ text) : complete sep text = [] := by
  unfold complete
  rw [List.splitOn_eq_singleton h]
  rfl

theorem rest_of_not_mem (h : sep ∉ text) : rest sep text = text := by
  unfold rest
  rw [List.splitOn_eq_singleton h]
  rfl

theorem complete_append_cons (before after : List α) :
    complete sep (before ++ sep :: after) = before.splitOn sep ++ complete sep after := by
  unfold complete
  rw [List.splitOn_append_cons_self, List.dropLast_append_of_ne_nil (List.splitOn_ne_nil _ _)]

theorem rest_append_cons (before after : List α) :
    rest sep (before ++ sep :: after) = rest sep after := by
  unfold rest
  rw [List.splitOn_append_cons_self, List.getLast?_append_of_ne_nil _ (List.splitOn_ne_nil _ _)]

theorem terminated_of_not_mem (h : sep ∉ text) : terminated sep text = [] := by
  unfold terminated
  rw [List.rdropWhile_eq_nil_iff]
  intro c hc
  exact decide_eq_true (fun heq => h (heq ▸ hc))

theorem terminated_append_cons {before after : List α} (h : sep ∉ after) :
    terminated sep (before ++ sep :: after) = before ++ [sep] := by
  induction after using List.reverseRecOn with
  | nil => exact List.rdropWhile_concat_neg _ _ _ (by simp)
  | append_singleton after c ih =>
    have hc : c ≠ sep := fun heq => h (by simp [heq])
    have hrest := ih (fun hmem => h (List.mem_append_left _ hmem))
    unfold terminated at hrest ⊢
    rw [← List.cons_append, ← List.append_assoc, List.rdropWhile_concat_pos _ _ _ (by simpa using hc)]
    exact hrest

/-- A text is its lines and the rest. -/
theorem terminated_append_rest (sep : α) (text : List α) :
    terminated sep text ++ rest sep text = text := by
  rcases last_line sep text with hnot | ⟨before, after, rfl, hnot⟩
  · rw [terminated_of_not_mem hnot, rest_of_not_mem hnot, List.nil_append]
  · rw [terminated_append_cons hnot, rest_append_cons, rest_of_not_mem hnot, List.append_assoc]
    rfl

theorem rest_not_mem (text : List α) : sep ∉ rest sep text := by
  rcases last_line sep text with hnot | ⟨before, after, rfl, hnot⟩
  · rw [rest_of_not_mem hnot]
    exact hnot
  · rw [rest_append_cons, rest_of_not_mem hnot]
    exact hnot

/-- The lines of a text are those of its terminated part. -/
theorem complete_terminated (text : List α) :
    complete sep (terminated sep text) = complete sep text := by
  rcases last_line sep text with hnot | ⟨before, after, rfl, hnot⟩
  · rw [terminated_of_not_mem hnot, complete_of_not_mem hnot, complete_of_not_mem List.not_mem_nil]
  · rw [terminated_append_cons hnot, complete_append_cons, complete_append_cons,
      complete_of_not_mem hnot, complete_of_not_mem List.not_mem_nil]

theorem length_lines (text : List α) :
    ((text.splitOn sep).map (fun line => line.length + 1)).sum = text.length + 1 := by
  induction text with
  | nil => rfl
  | cons c text ih =>
    rw [List.splitOn_cons_eq_if_modifyHead]
    split
    · rw [List.map_cons, List.sum_cons, ih]
      simp [Nat.add_comm]
    · obtain ⟨line, lines, hlines⟩ := List.exists_cons_of_ne_nil (List.splitOn_ne_nil sep text)
      rw [hlines] at ih ⊢
      simp only [List.modifyHead_cons, List.map_cons, List.sum_cons, List.length_cons] at ih ⊢
      omega

/-- The complete lines, each with its end, are as long as the terminated part. -/
theorem length_complete (text : List α) :
    ((complete sep text).map (fun line => line.length + 1)).sum = (terminated sep text).length := by
  rcases last_line sep text with hnot | ⟨before, after, rfl, hnot⟩
  · rw [terminated_of_not_mem hnot, complete_of_not_mem hnot]
    rfl
  · rw [terminated_append_cons hnot, complete_append_cons, complete_of_not_mem hnot,
      List.append_nil, length_lines, List.length_append]
    rfl

/-! ## Pieces -/

theorem complete_append (x y : List α) :
    complete sep (x ++ y) = complete sep x ++ complete sep (rest sep x ++ y) := by
  rcases last_line sep x with hnot | ⟨before, after, rfl, hnot⟩
  · rw [complete_of_not_mem hnot, rest_of_not_mem hnot, List.nil_append]
  · rw [List.append_assoc, List.cons_append, complete_append_cons, complete_append_cons,
      complete_of_not_mem hnot, rest_append_cons, rest_of_not_mem hnot, List.append_nil]

/-- The lines of the pieces are the lines of the whole. -/
theorem feed_flatten {buffer : List α} (h : sep ∉ buffer) (pieces : List (List α)) :
    (feed sep buffer pieces).flatten = complete sep (buffer ++ pieces.flatten) := by
  induction pieces generalizing buffer with
  | nil => rw [List.flatten_nil, List.append_nil, complete_of_not_mem h, feed, List.flatten_nil]
  | cons piece pieces ih =>
    rw [feed, List.flatten_cons, ih (rest_not_mem _), List.flatten_cons, ← List.append_assoc,
      complete_append (buffer ++ piece)]

/-- A piece of one character ends one line at most. -/
theorem feed_single {buffer : List α} (h : sep ∉ buffer) (text : List α) :
    ∀ lines ∈ feed sep buffer (text.map (fun c => [c])), lines = [] ∨ ∃ line, lines = [line] := by
  induction text generalizing buffer with
  | nil => simp [feed]
  | cons c text ih =>
    intro lines hlines
    rw [List.map_cons, feed] at hlines
    rcases List.mem_cons.mp hlines with rfl | hlines
    · by_cases hc : c = sep
      · subst hc
        rw [complete_append_cons, complete_of_not_mem List.not_mem_nil,
          List.splitOn_eq_singleton h]
        exact Or.inr ⟨buffer, rfl⟩
      · refine Or.inl (complete_of_not_mem ?_)
        rw [List.mem_append, not_or]
        exact ⟨h, fun hmem => hc (List.mem_singleton.mp hmem).symm⟩
    · exact ih (rest_not_mem _) lines hlines

end lines

end text_lines
