-- What a linear-attention layer stores for each request of a prefill batch.
-- The rows of a batch are padded at the end to the longest of them, and the
-- layer does not know where a row ends.
import InferenceMesh.Models.Qwen3Next
import InferenceMesh.Server.SlotMapping

open parallax.server.cache.linear_cache parallax.server.mlx_executor

namespace parallax.models.qwen3_next

universe u

variable {X C Y G S O : Type u}

namespace GatedDeltaNet

variable (layer : GatedDeltaNet X C Y G S O)

/-! ## The states of the tokens of a request -/

/-- The states after the tokens of a request: its last inputs, with zeros on the left, and the
recurrence over its tokens. -/
def own_states (tokens : List X) : List C × S :=
  let conv_input := layer.no_inputs ++ tokens.map layer.mixed_qkv
  (layer.last_inputs conv_input,
    (layer.gated_delta_update
      ((layer.conv_out conv_input tokens.length).zip (tokens.map layer.gates)) layer.no_state).2)

/-- The rows of a batch: the tokens of each request and a padding up to the longest request. -/
def Padded (own rows : List (List X)) : Prop :=
  List.Forall₂ (fun tokens row => (∃ padding, row = tokens ++ padding) ∧
    row.length = maxLen (own.map List.length)) own rows

/-- The slot of request `i` holds the states of its own tokens after the batch, as it does when
the request is prefilled alone. -/
def Independent (own rows : List (List X)) (cache : LinearCache C S) (slots : List Nat)
    (i : Nat) : Prop :=
  ∀ tokens ∈ own[i]?, ∀ slot ∈ slots[i]?,
    ((layer.prefill rows cache slots).2).slot slot = layer.own_states tokens ∧
    ((layer.prefill rows cache slots).2).slot slot =
      ((layer.prefill [tokens] cache [slot]).2).slot slot

/-! ## What is stored -/

/-- A row from zeros, whether the zeros were read from a slot or not. -/
theorem forward_row_states (row : List X) {state : Option S}
    (hstate : state = none ∨ state = some layer.no_state) :
    ((layer.forward_row row layer.no_inputs state).state0,
      (layer.forward_row row layer.no_inputs state).state1) = layer.own_states row := by
  rcases hstate with rfl | rfl
  · rfl
  · rfl

/-- The slots of a prefill are zero when it starts. -/
theorem zero_slots (cache : LinearCache C S) (slots : List Nat) {slot : Nat} (h : slot ∈ slots) :
    (slots.foldl (fun cache slot =>
      cache.zero_slot layer.conv_state_len layer.no_input layer.no_state slot) cache).slot slot =
      (layer.no_inputs, layer.no_state) := by
  induction slots using List.reverseRecOn with
  | nil => cases h
  | append_singleton slots last ih =>
    rw [List.foldl_append, List.foldl_cons, List.foldl_nil]
    unfold LinearCache.zero_slot
    by_cases hlast : slot = last
    · rw [hlast]
      exact LinearCache.slot_write_self last (layer.no_inputs, layer.no_state)
    · have hmem : slot ∈ slots := by
        rcases List.mem_append.mp h with h | h
        · exact h
        · exact absurd (List.mem_singleton.mp h) hlast
      exact (LinearCache.slot_write_ne hlast (layer.no_inputs, layer.no_state)).trans (ih hmem)

/-- Every row of a prefill starts from zeros. -/
theorem start_states_zero (x : List (List X)) (cache : LinearCache C S) {slots : List Nat}
    (hlen : slots.length = x.length) :
    ∃ state, (state = none ∨ state = some layer.no_state) ∧
      layer.start_states (slots.foldl (fun cache slot =>
        cache.zero_slot layer.conv_state_len layer.no_input layer.no_state slot) cache) slots x =
      x.map (fun _ => (layer.no_inputs, state)) := by
  unfold start_states
  split
  · refine ⟨some layer.no_state, Or.inr rfl, ?_⟩
    apply List.ext_getElem
    · simp [LinearCache.read_states, hlen]
    · intro i hi hi'
      have hlt : i < slots.length := by simpa [hlen] using hi'
      have hslot := layer.zero_slots cache slots (List.getElem_mem hlt)
      simp only [LinearCache.slot, Prod.mk.injEq] at hslot
      simp [LinearCache.read_states, hslot]
  · exact ⟨none, Or.inl rfl, rfl⟩

/-- The states that a prefill stores are those of the whole row, with its padding. -/
theorem prefill.spec (x : List (List X)) (cache : LinearCache C S) {slots : List Nat}
    (hnodup : slots.Nodup) (hlen : slots.length = x.length) {i : Nat} {row : List X} {slot : Nat}
    (hrow : x[i]? = some row) (hslot : slots[i]? = some slot) :
    ((layer.prefill x cache slots).2).slot slot = layer.own_states row := by
  obtain ⟨state, hstate, hstart⟩ := layer.start_states_zero x cache hlen
  obtain ⟨hi, rfl⟩ := List.getElem?_eq_some_iff.mp hrow
  obtain ⟨hi', rfl⟩ := List.getElem?_eq_some_iff.mp hslot
  unfold prefill call
  rw [hstart]
  dsimp only
  rw [LinearCache.write_states.spec hnodup _ hi' (by simpa using hi)]
  simp only [List.getElem_map, List.getElem_zipWith]
  exact layer.forward_row_states x[i] hstate

theorem prefill_alone (tokens : List X) (cache : LinearCache C S) (slot : Nat) :
    ((layer.prefill [tokens] cache [slot]).2).slot slot = layer.own_states tokens :=
  prefill.spec layer [tokens] cache (List.nodup_singleton slot) rfl (i := 0) rfl rfl

/-! ## What is computed -/

theorem conv_out_take (inputs padding : List C) (target_len : Nat)
    (hlen : inputs.length + 1 = target_len + layer.conv_kernel_size) (more : Nat) :
    (layer.conv_out (inputs ++ padding) (target_len + more)).take target_len =
      layer.conv_out inputs target_len := by
  unfold conv_out
  rw [← List.map_take, List.take_range, Nat.min_eq_left (Nat.le_add_right _ _)]
  apply List.map_congr_left
  intro t ht
  have hlt := List.mem_range.mp ht
  rw [List.drop_append_of_le_length (by omega), List.take_append_of_le_length (by simp; omega)]

theorem gated_delta_update_append (steps more : List (Y × G)) (state : S) :
    layer.gated_delta_update (steps ++ more) state =
      ((layer.gated_delta_update steps state).1 ++
        (layer.gated_delta_update more (layer.gated_delta_update steps state).2).1,
       (layer.gated_delta_update more (layer.gated_delta_update steps state).2).2) := by
  induction steps generalizing state with
  | nil => rfl
  | cons step steps ih =>
    obtain ⟨y, g⟩ := step
    show (_ :: (layer.gated_delta_update (steps ++ more) _).1,
      (layer.gated_delta_update (steps ++ more) _).2) = _
    rw [ih]
    rfl

theorem gated_delta_update_length (steps : List (Y × G)) (state : S) :
    (layer.gated_delta_update steps state).1.length = steps.length := by
  induction steps generalizing state with
  | nil => rfl
  | cons step steps ih =>
    show (layer.gated_delta_update steps _).1.length + 1 = steps.length + 1
    rw [ih]

/-- The outputs of the tokens do not depend on the padding after them. -/
theorem output_of_padded (tokens padding : List X) (state : Option S) :
    (layer.forward_row (tokens ++ padding) layer.no_inputs state).output.take tokens.length =
      (layer.forward_row tokens layer.no_inputs state).output := by
  have hspan := layer.kernel_spans
  have hconv := layer.conv_out_take (layer.no_inputs ++ tokens.map layer.mixed_qkv)
    (padding.map layer.mixed_qkv) tokens.length (by
      simp [no_inputs, conv_state_len]
      omega) padding.length
  have hlen : (layer.conv_out (layer.no_inputs ++ tokens.map layer.mixed_qkv)
      tokens.length).length = tokens.length := by simp [conv_out]
  unfold forward_row
  dsimp only
  rw [List.map_append, ← List.append_assoc, List.length_append, List.map_append]
  rw [← List.take_append_drop tokens.length (layer.conv_out (layer.no_inputs ++
    tokens.map layer.mixed_qkv ++ padding.map layer.mixed_qkv) (tokens.length + padding.length)),
    hconv, List.zip_append (by simp [hlen]), layer.gated_delta_update_append]
  have houts := layer.gated_delta_update_length
    ((layer.conv_out (layer.no_inputs ++ tokens.map layer.mixed_qkv) tokens.length).zip
      (tokens.map layer.gates)) (state.getD layer.no_state)
  rw [List.zipWith_append (by rw [houts]; simp [hlen])]
  rw [List.take_append_of_le_length (by simp [houts, hlen]), List.take_of_length_le]
  simp

/-! ## Independence -/

/-- A layer that counts the positions of a row. -/
def counting : GatedDeltaNet Unit Unit Unit Unit Nat Unit where
  conv_kernel_size := 2
  kernel_spans := le_rfl
  mixed_qkv _ := ()
  gates _ := ()
  no_input := ()
  conv1d _ := ()
  no_state := 0
  gated_delta_step count _ _ := (count + 1, ())
  out_proj _ x := x

theorem counting_state (steps : List (Unit × Unit)) (count : Nat) :
    (counting.gated_delta_update steps count).2 = count + steps.length := by
  induction steps generalizing count with
  | nil => rfl
  | cons step steps ih =>
    show (counting.gated_delta_update steps (count + 1)).2 = _
    rw [ih, List.length_cons]
    omega

theorem counting_own (tokens : List Unit) : (counting.own_states tokens).2 = tokens.length := by
  unfold own_states
  dsimp only
  rw [counting_state]
  simp [conv_out, counting]

/-- The states of a request are its own, whatever the layer computes, just when no other request
of the batch is longer. -/
theorem prefill_is_independent_iff (lengths : List Nat) (i : Fin lengths.length) :
    (∀ (X C Y G S O : Type) (layer : GatedDeltaNet X C Y G S O) (own rows : List (List X))
      (cache : LinearCache C S) (slots : List Nat), own.map List.length = lengths →
      Padded own rows → slots.Nodup → slots.length = own.length →
      layer.Independent own rows cache slots i) ↔
    lengths[i] = maxLen lengths := by
  constructor
  · intro hall
    have hown : (lengths.map (fun n => List.replicate n ())).map List.length = lengths := by
      simp [Function.comp_def]
    have hpadded : Padded (lengths.map (fun n => List.replicate n ()))
        (lengths.map (fun _ => List.replicate (maxLen lengths) ())) := by
      unfold Padded
      rw [List.forall₂_map_left_iff, List.forall₂_map_right_iff, List.forall₂_same]
      intro n hn
      rw [hown]
      refine ⟨⟨List.replicate (maxLen lengths - n) (), ?_⟩, List.length_replicate⟩
      rw [List.replicate_append_replicate, Nat.add_sub_cancel' (le_maxLen hn)]
    have hslot : (List.range lengths.length)[i.1]? = some i.1 := by simp
    have hind := hall Unit Unit Unit Unit Nat Unit counting _ _ ⟨fun _ => [], fun _ => 0⟩
      (List.range lengths.length) hown hpadded List.nodup_range (by simp)
      (List.replicate lengths[i] ()) (by simp) i.1 hslot
    have hrow : (lengths.map (fun _ => List.replicate (maxLen lengths) ()))[i.1]? =
        some (List.replicate (maxLen lengths) ()) := by simp
    have hstored := prefill.spec counting
      (lengths.map (fun _ => List.replicate (maxLen lengths) ())) ⟨fun _ => [], fun _ => 0⟩
      List.nodup_range (by simp) hrow hslot
    have hcount := congrArg Prod.snd (hind.1.symm.trans hstored)
    rw [counting_own, counting_own, List.length_replicate, List.length_replicate] at hcount
    exact hcount
  · intro hlongest X C Y G S O layer own rows cache slots hown hpadded hnodup hlen tokens htokens
      slot hslot
    have hrow : rows[i.1]? = some tokens := by
      obtain ⟨hi, htok⟩ := List.getElem?_eq_some_iff.mp htokens
      have hi' : i.1 < rows.length := by
        rw [← hpadded.length_eq]
        exact hi
      obtain ⟨⟨padding, hpadding⟩, hrowlen⟩ := (List.forall₂_iff_get.mp hpadded).2 i.1 hi hi'
      have htoklen : tokens.length = maxLen lengths := by
        rw [← hlongest, ← htok]
        simp [← hown]
      simp only [List.get_eq_getElem, htok, hown] at hpadding hrowlen
      have hnil : padding = [] := by
        rw [hpadding, List.length_append] at hrowlen
        exact List.length_eq_zero_iff.mp (by omega)
      rw [hnil, List.append_nil] at hpadding
      rw [List.getElem?_eq_getElem hi', hpadding]
    have hstored := prefill.spec layer rows cache hnodup
      (by rw [hlen, hpadded.length_eq]) hrow hslot
    exact ⟨hstored, hstored.trans (layer.prefill_alone tokens cache slot).symm⟩

end GatedDeltaNet

/-! ## A prompt of three tokens and one of one token -/

/-- The inputs of the first layer on the first peer. -/
def embedded (embed : Int → X) : Rows → List X
  | .tokens ids => ids.map embed
  | .hidden _ => []

/-- The padding of the executor is a padding. -/
theorem pad_inputs_padded (embed : Int → X) (pad_value : Int) (prompts : List (List Int)) :
    GatedDeltaNet.Padded (prompts.map (List.map embed))
      ((pad_inputs pad_value (prompts.map Rows.tokens)).map (embedded embed)) := by
  have hlens : (prompts.map (List.map embed)).map List.length =
      (prompts.map Rows.tokens).map Rows.len := by
    simp [Function.comp_def, Rows.len]
  unfold GatedDeltaNet.Padded pad_inputs
  rw [hlens]
  rw [List.map_map, List.map_map, List.forall₂_map_left_iff, List.forall₂_map_right_iff,
    List.forall₂_map_right_iff, List.forall₂_same]
  intro ids hids
  have hle : ids.length ≤ maxLen (prompts.map (Rows.len ∘ Rows.tokens)) :=
    le_maxLen (List.mem_map.mpr ⟨ids, hids, rfl⟩)
  refine ⟨⟨_, List.map_append⟩, ?_⟩
  simp only [Function.comp_apply, Rows.pad, embedded, List.length_map, List.length_append,
    List.length_replicate]
  omega

/-- A layer that adds up the tokens of each window. -/
def adding : GatedDeltaNet Int Int Int Unit Int Unit where
  conv_kernel_size := 2
  kernel_spans := le_rfl
  mixed_qkv token := token
  gates _ := ()
  no_input := 0
  conv1d window := window.sum
  no_state := 0
  gated_delta_step total y _ := (total + y, ())
  out_proj _ x := x

/-- The short prompt of the batch stores an input of zero, and twice its token. -/
theorem short_prompt_depends_on_the_long_one :
    ¬ ∀ (layer : GatedDeltaNet Int Int Int Unit Int Unit) (prompts : List (List Int))
      (pad_value : Int) (cache : LinearCache Int Int) (slots : List Nat) (i : Nat),
      slots.Nodup → slots.length = prompts.length →
      layer.Independent prompts ((pad_inputs pad_value (prompts.map Rows.tokens)).map (embedded id))
        cache slots i := by
  intro hall
  have hind := hall adding [[1, 2, 3], [4]] 0 ⟨fun _ => [], fun _ => 0⟩ [0, 1] 1 (by decide) rfl
    [4] rfl 1 rfl
  have hfalse : ((0 : Int) :: [], (8 : Int)) = ([4], 4) := hind.1
  exact absurd hfalse (by decide)

end parallax.models.qwen3_next
