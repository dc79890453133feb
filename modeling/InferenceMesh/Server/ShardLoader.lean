-- Which tensors a shard loads (parallax/server/shard_loader.py and
-- parallax/server/model.py). A key is tested for words anywhere in it, and
-- loaded under a name that is made of it by replacing words.
import InferenceMesh.Lib.DottedNames
import InferenceMesh.Utils.WeightFilter

open python_string

namespace parallax.server.model

/-- What the loader reads of a shard of the model. -/
structure ShardedModel where
  start_layer : Int
  end_layer : Int
  is_first_shard : Bool
  is_last_shard : Bool
  deriving DecidableEq

def ShardedModel.init (num_hidden_layers start_layer end_layer : Int) : ShardedModel :=
  ⟨start_layer, end_layer, start_layer = 0, end_layer = num_hidden_layers⟩

end parallax.server.model

namespace parallax.shard_loader

open parallax.server.model

/-! ## The loop over the keys -/

/-- `key.replace("model.", "", 1)`. -/
def without_model (key : String) : String :=
  String.ofList (replace_first "model.".toList [] key.toList)

/-- `key.replace("embed_tokens", "lm_head")`. -/
def as_lm_head (key : String) : String :=
  String.ofList (replace "embed_tokens".toList "lm_head".toList key.toList)

/-- The name of a tensor of a layer, with what stands behind the number in its key. -/
def layer_name (local_layer_idx : Int) (key : String) : String :=
  "layers." ++ toString local_layer_idx ++ "." ++
    String.ofList (['.'].intercalate ((split_dots key).drop 3))

/-- The key starts the model: it has an embedding, and the shard is the first one. -/
def embeds (shard : ShardedModel) (key : String) : Bool :=
  shard.is_first_shard && contains key "embed_tokens" && startswith key "model."

/-- The name that the tests for the ends of the model give. -/
def end_name (shard : ShardedModel) (tie_word_embeddings : Bool) (key : String) : Option String :=
  if embeds shard key then some (without_model key)
  else if shard.is_last_shard then
    let remapped_key := if contains key "model.norm" then some (without_model key) else none
    if contains key "lm_head" then some key
    else if tie_word_embeddings && contains key "embed_tokens" &&
        startswith key "model.embed_tokens" then some (as_lm_head (without_model key))
    else remapped_key
  else none

/-- The embedding of a model with one shard is stored for the head too. -/
def lm_head_keys (shard : ShardedModel) (tie_word_embeddings : Bool) (key : String) : List String :=
  if embeds shard key && shard.is_last_shard && tie_word_embeddings then
    [as_lm_head (without_model key)]
  else []

/-- The names under which a shard stores the tensor of a key. -/
def remapped_keys (shard : ShardedModel) (tie_word_embeddings : Bool) (key : String) : List String :=
  let lm_head_keys := lm_head_keys shard tie_word_embeddings key
  if contains key "model.layers" then
    match layer_of key with
    -- The rest of the loop body is skipped.
    | none => lm_head_keys
    | some layer_idx =>
      if shard.start_layer ≤ layer_idx ∧ layer_idx < shard.end_layer then
        lm_head_keys ++ [layer_name (layer_idx - shard.start_layer) key]
      else lm_head_keys ++ (end_name shard tie_word_embeddings key).toList
  else lm_head_keys ++ (end_name shard tie_word_embeddings key).toList

/-! ## Ways through the loop body -/

section names

variable {shard : ShardedModel} {tie_word_embeddings : Bool} {key : String} {layer_idx : Int}

def Holds (shard : ShardedModel) (layer_idx : Int) : Prop :=
  shard.start_layer ≤ layer_idx ∧ layer_idx < shard.end_layer

instance (shard : ShardedModel) (layer_idx : Int) : Decidable (Holds shard layer_idx) :=
  inferInstanceAs (Decidable (_ ∧ _))

/-- The part that is read as a number is none. -/
def Skipped (key : String) : Prop := contains key "model.layers" = true ∧ layer_of key = none

/-- The key is taken for one of a layer. -/
def NamesLayer (key : String) (layer_idx : Int) : Prop :=
  contains key "model.layers" = true ∧ layer_of key = some layer_idx

theorem NamesLayer.not_skipped (h : NamesLayer key layer_idx) : ¬ Skipped key := by
  intro hskip
  have hnone := hskip.2
  rw [h.2] at hnone
  cases hnone

/-- A key that names another layer goes to the tests for the ends. -/
theorem NamesLayer.not_holds (h : NamesLayer key layer_idx) (hholds : ¬ Holds shard layer_idx) :
    ∀ layer_idx, NamesLayer key layer_idx → ¬ Holds shard layer_idx := by
  intro j hj
  rw [Option.some.inj (hj.2.symm.trans h.2)]
  exact hholds

/-- The name for the head is stored on every way. -/
theorem lm_head_keys_subset : lm_head_keys shard tie_word_embeddings key ⊆
    remapped_keys shard tie_word_embeddings key := by
  unfold remapped_keys
  dsimp only
  split
  · split
    · exact List.Subset.refl _
    · split
      · exact List.subset_append_left _ _
      · exact List.subset_append_left _ _
  · exact List.subset_append_left _ _

theorem remapped_keys_skipped (h : Skipped key) :
    remapped_keys shard tie_word_embeddings key = lm_head_keys shard tie_word_embeddings key := by
  unfold remapped_keys
  simp [h.1, h.2]

theorem remapped_keys_layer (h : NamesLayer key layer_idx) (hholds : Holds shard layer_idx) :
    remapped_keys shard tie_word_embeddings key = lm_head_keys shard tie_word_embeddings key ++
      [layer_name (layer_idx - shard.start_layer) key] := by
  unfold remapped_keys
  simp [h.1, h.2, hholds.1, hholds.2]

theorem remapped_keys_end (h : ¬ Skipped key)
    (hlayer : ∀ layer_idx, NamesLayer key layer_idx → ¬ Holds shard layer_idx) :
    remapped_keys shard tie_word_embeddings key = lm_head_keys shard tie_word_embeddings key ++
      (end_name shard tie_word_embeddings key).toList := by
  unfold remapped_keys
  dsimp only
  split
  · rename_i hcontains
    rcases hread : layer_of key with _ | layer_idx
    · exact absurd ⟨hcontains, hread⟩ h
    · exact if_neg (hlayer layer_idx ⟨hcontains, hread⟩)
  · rfl

end names

theorem end_name_isSome (shard : ShardedModel) (tie_word_embeddings : Bool) (key : String) :
    (end_name shard tie_word_embeddings key).isSome = if embeds shard key then true
      else if shard.is_last_shard then contains key "model.norm" || contains key "lm_head" ||
        (tie_word_embeddings && contains key "embed_tokens" && startswith key "model.embed_tokens")
      else false := by
  unfold end_name
  split
  · rfl
  · split
    · rcases contains key "lm_head" with _ | _
      · rcases tie_word_embeddings && contains key "embed_tokens" &&
          startswith key "model.embed_tokens" with _ | _
        · cases contains key "model.norm" <;> simp
        · simp
      · simp
    · rfl

theorem lm_head_keys_ne_nil (shard : ShardedModel) (tie_word_embeddings : Bool) (key : String) :
    lm_head_keys shard tie_word_embeddings key ≠ [] ↔
      (embeds shard key && shard.is_last_shard && tie_word_embeddings) = true := by
  unfold lm_head_keys
  split
  · rename_i h
    simp [h]
  · rename_i h
    simp [h]

/-- The loader takes a tensor out of its file when it has a name for it. -/
theorem reads_tensor_iff (shard : ShardedModel) (tie_word_embeddings : Bool) (key : String) :
    reads_tensor key shard.start_layer shard.end_layer shard.is_first_shard shard.is_last_shard
      tie_word_embeddings = true ↔ remapped_keys shard tie_word_embeddings key ≠ [] := by
  have hheads := lm_head_keys_ne_nil shard tie_word_embeddings key
  have hembeds : embeds shard key = true → (end_name shard tie_word_embeddings key).isSome = true := by
    intro h
    rw [end_name_isSome, if_pos h]
  have hnil : end_name shard tie_word_embeddings key = none →
      lm_head_keys shard tie_word_embeddings key = [] := by
    intro h
    by_contra hne
    have hfirst := hheads.mp hne
    simp only [Bool.and_eq_true] at hfirst
    rw [h] at hembeds
    exact absurd (hembeds hfirst.1.1) (by simp)
  have hend : (lm_head_keys shard tie_word_embeddings key ++
      (end_name shard tie_word_embeddings key).toList ≠ []) ↔
        (end_name shard tie_word_embeddings key).isSome = true := by
    rcases hname : end_name shard tie_word_embeddings key with _ | name
    · simp [hnil hname]
    · simp
  have hfold : (shard.is_first_shard && contains key "embed_tokens" && startswith key "model.") =
      embeds shard key := rfl
  unfold reads_tensor remapped_keys
  dsimp only
  rw [hfold, ← end_name_isSome]
  split
  · rcases layer_of key with _ | layer_idx
    · exact hheads.symm
    · by_cases hholds : shard.start_layer ≤ layer_idx ∧ layer_idx < shard.end_layer
      · simp [hholds]
      · have hout : (decide (shard.start_layer ≤ layer_idx) &&
            decide (layer_idx < shard.end_layer)) = false :=
          eq_false_of_ne_true fun h => hholds (by simpa using h)
        dsimp only
        rw [hout, Bool.or_false, if_neg hholds]
        exact hend.symm
  · exact hend.symm

/-! ## The keys of a checkpoint -/

def layer_key (i : Nat) (rest : String) : String := s!"model.layers.{i}.{rest}"

def embed_key (rest : String) : String := "model.embed_tokens." ++ rest

def norm_key (rest : String) : String := "model.norm." ++ rest

def head_key (rest : String) : String := "lm_head." ++ rest

theorem layer_key_eq (i : Nat) (rest : String) : layer_key i rest =
    dotted "model" (dotted "layers" (dotted i.repr rest)) := by
  unfold layer_key
  rw [← String.toList_inj]
  simp [toList_dotted, toString]

theorem embed_key_eq (rest : String) : embed_key rest = dotted "model" (dotted "embed_tokens" rest) := by
  unfold embed_key
  rw [← String.toList_inj]
  simp [toList_dotted]

theorem norm_key_eq (rest : String) : norm_key rest = dotted "model" (dotted "norm" rest) := by
  unfold norm_key
  rw [← String.toList_inj]
  simp [toList_dotted]

theorem head_key_eq (rest : String) : head_key rest = dotted "lm_head" rest := by
  unfold head_key
  rw [← String.toList_inj]
  simp [toList_dotted]

section keys

variable (i : Nat) (rest : String)

theorem contains_layer_key {word : String} (hword : '.' ∉ word.toList)
    (hdigit : ∃ c ∈ word.toList, c.isDigit = false) (hmodel : contains "model" word = false)
    (hlayers : contains "layers" word = false) :
    contains (layer_key i rest) word = contains rest word := by
  simp [layer_key_eq, contains_dotted hword, contains_repr i hdigit, hmodel, hlayers]

theorem contains_embed_key {word : String} (hword : '.' ∉ word.toList)
    (hmodel : contains "model" word = false) : contains (embed_key rest) word =
      (contains "embed_tokens" word || contains rest word) := by
  simp [embed_key_eq, contains_dotted hword, hmodel]

/-- No word with a dot goes over the dots of the key of a layer, unless it is the start. -/
theorem layer_key_norm : contains (layer_key i rest) "model.norm" = contains rest "model.norm" := by
  have hdigit : endswith i.repr "model" = false := endswith_repr i ⟨'m', by decide, by decide⟩
  have hmodel : endswith "layers" "model" = false := by decide
  have hnorm : startswith (dotted "layers" (dotted i.repr rest)) "norm" = false := by
    simp [startswith, toList_dotted]
  rw [show "model.norm" = dotted "model" "norm" from rfl, layer_key_eq,
    contains_dotted_pair (by decide) (by decide), contains_dotted_pair (by decide) (by decide),
    contains_dotted_pair (dot_not_mem_repr i) (by decide)]
  simp [hdigit, hmodel, hnorm]

theorem layer_key_embed : contains (layer_key i rest) "embed_tokens" = contains rest "embed_tokens" :=
  contains_layer_key i rest (by decide) ⟨'e', by decide, by decide⟩ (by decide) (by decide)

theorem layer_key_head : contains (layer_key i rest) "lm_head" = contains rest "lm_head" :=
  contains_layer_key i rest (by decide) ⟨'l', by decide, by decide⟩ (by decide) (by decide)

theorem layer_key_layers : contains (layer_key i rest) "model.layers" = true := by
  rw [contains_iff, layer_key_eq]
  simp only [toList_dotted]
  exact ⟨[], '.' :: (i.repr.toList ++ '.' :: rest.toList), rfl⟩

theorem startswith_model (x : String) : startswith (dotted "model" x) "model." = true := by
  simp [startswith, toList_dotted]

theorem without_model_dotted (x : String) : without_model (dotted "model" x) = x := by
  have hlist : (dotted "model" x).toList = "model.".toList ++ x.toList := by simp [toList_dotted]
  unfold without_model
  rw [hlist, replace_first_append (by simp)]
  simp

theorem as_lm_head_dotted (x : String) :
    as_lm_head (dotted "embed_tokens" x) = dotted "lm_head" (as_lm_head x) := by
  unfold as_lm_head
  rw [← String.toList_inj, toList_dotted, toList_dotted, replace_append (by simp), replace_cons]
  · simp
  · simp

theorem as_lm_head_eq_iff (x : String) : as_lm_head x = x ↔ contains x "embed_tokens" = false := by
  unfold as_lm_head
  rw [← String.toList_inj, String.toList_ofList, replace_eq_self_iff (by decide), ← contains_iff]
  simp

theorem layer_of_layer_key :
    layer_of (layer_key i rest) = if i.repr.length ≤ 4300 then some (i : Int) else none := by
  unfold layer_of
  rw [layer_key_eq, split_dots_dotted (by decide), split_dots_dotted (by decide),
    split_dots_dotted (dot_not_mem_repr i)]
  exact int_repr i

theorem layer_name_layer_key (k : Int) :
    layer_name k (layer_key i rest) = dotted "layers" (dotted (toString k) rest) := by
  have hdots : ['.'].intercalate (split_dots rest) = rest.toList := List.intercalate_splitOn '.'
  unfold layer_name
  rw [layer_key_eq, split_dots_dotted (by decide), split_dots_dotted (by decide),
    split_dots_dotted (dot_not_mem_repr i), ← String.toList_inj]
  simp [toList_dotted, hdots]

theorem without_model_embed_key : without_model (embed_key rest) = dotted "embed_tokens" rest := by
  rw [embed_key_eq, without_model_dotted]

theorem without_model_norm_key : without_model (norm_key rest) = dotted "norm" rest := by
  rw [norm_key_eq, without_model_dotted]

theorem embed_key_norm : contains (embed_key rest) "model.norm" = contains rest "model.norm" := by
  have hembed : endswith "embed_tokens" "model" = false := by decide
  have hnorm : startswith (dotted "embed_tokens" rest) "norm" = false := by
    simp [startswith, toList_dotted]
  rw [show "model.norm" = dotted "model" "norm" from rfl, embed_key_eq,
    contains_dotted_pair (by decide) (by decide), contains_dotted_pair (by decide) (by decide)]
  simp [hembed, hnorm]

theorem embed_key_head : contains (embed_key rest) "lm_head" = contains rest "lm_head" := by
  have hword : contains "embed_tokens" "lm_head" = false := by decide
  rw [contains_embed_key rest (by decide) (by decide), hword, Bool.false_or]

theorem embed_key_tied : startswith (embed_key rest) "model.embed_tokens" = true := by
  simp [startswith, embed_key_eq, toList_dotted]

theorem embed_key_embed : contains (embed_key rest) "embed_tokens" = true :=
  contains_of_startswith (embed_key_tied rest) ⟨"model.".toList, [], rfl⟩

theorem norm_key_norm : contains (norm_key rest) "model.norm" = true := by
  have hstart : startswith (norm_key rest) "model.norm" = true := by
    simp [startswith, norm_key_eq, toList_dotted]
  exact contains_of_startswith hstart (List.infix_refl _)

theorem contains_norm_key {word : String} (hword : '.' ∉ word.toList)
    (hmodel : contains "model" word = false) (hnorm : contains "norm" word = false) :
    contains (norm_key rest) word = contains rest word := by
  simp [norm_key_eq, contains_dotted hword, hmodel, hnorm]

theorem norm_key_tied : startswith (norm_key rest) "model.embed_tokens" = false := by
  simp [startswith, norm_key_eq, toList_dotted]

theorem head_key_head : contains (head_key rest) "lm_head" = true := by
  have hstart : startswith (head_key rest) "lm_head" = true := by
    simp [startswith, head_key_eq, toList_dotted]
  exact contains_of_startswith hstart (List.infix_refl _)

theorem head_key_model : startswith (head_key rest) "model." = false := by
  simp [startswith, head_key_eq, toList_dotted]

end keys

end parallax.shard_loader
