-- The shards of a model load each tensor once, under its own name, exactly when
-- the words that the loader looks for do not turn up behind the known starts of
-- the keys in a place where they mislead it.
import InferenceMesh.Lib.Tilings
import InferenceMesh.Server.ShardLoader

open python_string
open parallax.server.model

namespace parallax.shard_loader

/-- The shards of the model for ranges of layers. -/
def shards (num_layers : Int) (ranges : List (Int × Int)) : List ShardedModel :=
  ranges.map (fun range => .init num_layers range.1 range.2)

/-- Ranges that follow each other over all layers of a model. -/
structure Tiling (num_layers : Int) (ranges : List (Int × Int)) : Prop where
  layers : 0 < num_layers
  nonempty : ∀ range ∈ ranges, range.1 < range.2
  tiles : tilings.Tiles Prod.fst Prod.snd 0 ranges num_layers

/-- Each key of the known kinds is loaded by its shards only, under its names. -/
structure LoadsKnownKeys (num_layers : Int) (ranges : List (Int × Int)) (tie_word_embeddings : Bool)
    (keys : List String) : Prop where
  layers : ∀ i rest, layer_key i rest ∈ keys → ∀ shard ∈ shards num_layers ranges, ∀ name,
    name ∈ remapped_keys shard tie_word_embeddings (layer_key i rest) ↔
      Holds shard i ∧ name = s!"layers.{(i : Int) - shard.start_layer}.{rest}"
  embeddings : ∀ rest, embed_key rest ∈ keys → ∀ shard ∈ shards num_layers ranges, ∀ name,
    name ∈ remapped_keys shard tie_word_embeddings (embed_key rest) ↔
      shard.is_first_shard = true ∧ name = "embed_tokens." ++ rest ∨
      shard.is_last_shard = true ∧ tie_word_embeddings = true ∧ name = "lm_head." ++ rest
  norms : ∀ rest, norm_key rest ∈ keys → ∀ shard ∈ shards num_layers ranges, ∀ name,
    name ∈ remapped_keys shard tie_word_embeddings (norm_key rest) ↔
      shard.is_last_shard = true ∧ name = "norm." ++ rest
  heads : ∀ rest, head_key rest ∈ keys → ∀ shard ∈ shards num_layers ranges, ∀ name,
    name ∈ remapped_keys shard tie_word_embeddings (head_key rest) ↔
      shard.is_last_shard = true ∧ name = "lm_head." ++ rest

/-- And no two keys have a name in common in a shard. -/
structure LoadsPartition (num_layers : Int) (ranges : List (Int × Int)) (tie_word_embeddings : Bool)
    (keys : List String) : Prop extends
    LoadsKnownKeys num_layers ranges tie_word_embeddings keys where
  apart : ∀ shard ∈ shards num_layers ranges, ∀ key ∈ keys, ∀ key' ∈ keys, key ≠ key' →
    ∀ name ∈ remapped_keys shard tie_word_embeddings key,
      name ∉ remapped_keys shard tie_word_embeddings key'

/-! ## Plain checkpoints -/

/-- The numbers that Python reads. -/
def Readable (i : Nat) : Prop := i.repr.length ≤ 4300

instance (i : Nat) : Decidable (Readable i) := inferInstanceAs (Decidable (_ ≤ _))

/-- The key is not taken for one of a layer of the model, and not skipped. -/
def Unlayered (num_layers : Int) (key : String) : Prop :=
  ¬ Skipped key ∧ ∀ layer_idx, NamesLayer key layer_idx → ¬ (0 ≤ layer_idx ∧ layer_idx < num_layers)

/-- The key starts in none of the known ways. -/
def Stray (key : String) : Prop :=
  ∀ rest, (∀ i, key ≠ layer_key i rest) ∧ key ≠ embed_key rest ∧ key ≠ norm_key rest ∧
    key ≠ head_key rest

/-- The words `embed_tokens`, `model.norm` and `lm_head` behind the layer stand only where the shard
that they lead to has the layer anyway. -/
structure PlainLayer (num_layers : Int) (ranges : List (Int × Int)) (tie_word_embeddings : Bool)
    (i : Nat) (rest : String) : Prop where
  readable : (i : Int) < num_layers → Readable i
  embed : contains rest "embed_tokens" = true → ∀ shard ∈ shards num_layers ranges,
    shard.is_first_shard = true → (Readable i → Holds shard i) ∧
      ¬ (shard.is_last_shard = true ∧ tie_word_embeddings = true)
  ends : contains rest "model.norm" = true ∨ contains rest "lm_head" = true →
    ∀ shard ∈ shards num_layers ranges, shard.is_last_shard = true → Readable i → Holds shard i

structure PlainEmbedding (num_layers : Int) (ranges : List (Int × Int)) (tie_word_embeddings : Bool)
    (rest : String) : Prop where
  unlayered : Unlayered num_layers (embed_key rest)
  embed : tie_word_embeddings = true → contains rest "embed_tokens" = false
  ends : ∀ shard ∈ shards num_layers ranges, shard.is_last_shard = true →
    shard.is_first_shard = false → contains rest "lm_head" = false ∧
      (contains rest "model.norm" = true → tie_word_embeddings = true)

structure PlainNorm (num_layers : Int) (ranges : List (Int × Int)) (tie_word_embeddings : Bool)
    (rest : String) : Prop where
  unlayered : Unlayered num_layers (norm_key rest)
  embed : contains rest "embed_tokens" = true → ∀ shard ∈ shards num_layers ranges,
    shard.is_first_shard = true → shard.is_last_shard = true ∧ tie_word_embeddings = false
  head : contains rest "lm_head" = true → ∀ shard ∈ shards num_layers ranges,
    shard.is_last_shard = true → shard.is_first_shard = true ∧ contains rest "embed_tokens" = true

/-- No words stand in the way, a tied model has no head of its own, and keys of no known kind get
names of their own. -/
structure Plain (num_layers : Int) (ranges : List (Int × Int)) (tie_word_embeddings : Bool)
    (keys : List String) : Prop where
  layers : ∀ i rest, layer_key i rest ∈ keys →
    PlainLayer num_layers ranges tie_word_embeddings i rest
  embeddings : ∀ rest, embed_key rest ∈ keys →
    PlainEmbedding num_layers ranges tie_word_embeddings rest
  norms : ∀ rest, norm_key rest ∈ keys → PlainNorm num_layers ranges tie_word_embeddings rest
  heads : ∀ rest, head_key rest ∈ keys → Unlayered num_layers (head_key rest)
  tied : tie_word_embeddings = true → ∀ rest, embed_key rest ∈ keys → head_key rest ∉ keys
  strays : ∀ key ∈ keys, Stray key → ∀ key' ∈ keys, key' ≠ key →
    ∀ shard ∈ shards num_layers ranges, ∀ name ∈ remapped_keys shard tie_word_embeddings key,
      name ∉ remapped_keys shard tie_word_embeddings key'

/-! ## The shards of a tiling -/

section tiling

variable {num_layers : Int} {ranges : List (Int × Int)} {shard : ShardedModel}

theorem exists_holder (T : Tiling num_layers ranges) {layer_idx : Int} (h : 0 ≤ layer_idx)
    (h' : layer_idx < num_layers) : ∃ shard ∈ shards num_layers ranges, Holds shard layer_idx := by
  obtain ⟨range, hrange, hcover⟩ := T.tiles.exists_cover h h'
  exact ⟨_, List.mem_map_of_mem hrange, hcover⟩

/-- A layer has one shard. -/
theorem holder_unique (T : Tiling num_layers ranges) {shard' : ShardedModel} {layer_idx : Int}
    (hshard : shard ∈ shards num_layers ranges) (hshard' : shard' ∈ shards num_layers ranges)
    (h : Holds shard layer_idx) (h' : Holds shard' layer_idx) : shard = shard' := by
  obtain ⟨range, hrange, rfl⟩ := List.mem_map.mp hshard
  obtain ⟨range', hrange', rfl⟩ := List.mem_map.mp hshard'
  rw [T.tiles.cover_unique T.nonempty hrange hrange' h h']

theorem holds_bounds (T : Tiling num_layers ranges) (hshard : shard ∈ shards num_layers ranges)
    {layer_idx : Int} (h : Holds shard layer_idx) : 0 ≤ layer_idx ∧ layer_idx < num_layers := by
  obtain ⟨range, hrange, rfl⟩ := List.mem_map.mp hshard
  have hbounds := (T.tiles.bounds T.nonempty).2 range hrange
  have hstart : range.1 ≤ layer_idx := h.1
  have hstop : layer_idx < range.2 := h.2
  omega

theorem exists_first (T : Tiling num_layers ranges) :
    ∃ shard ∈ shards num_layers ranges, shard.is_first_shard = true := by
  obtain ⟨range, hrange, hcover⟩ := T.tiles.exists_cover (le_refl 0) T.layers
  have hbounds := (T.tiles.bounds T.nonempty).2 range hrange
  refine ⟨_, List.mem_map_of_mem hrange, decide_eq_true ?_⟩
  omega

theorem exists_last (T : Tiling num_layers ranges) :
    ∃ shard ∈ shards num_layers ranges, shard.is_last_shard = true := by
  have hlayers := T.layers
  obtain ⟨range, hrange, hcover⟩ :=
    T.tiles.exists_cover (l := num_layers - 1) (by omega) (by omega)
  have hbounds := (T.tiles.bounds T.nonempty).2 range hrange
  refine ⟨_, List.mem_map_of_mem hrange, decide_eq_true ?_⟩
  omega

theorem start_of_first (hshard : shard ∈ shards num_layers ranges)
    (h : shard.is_first_shard = true) : shard.start_layer = 0 := by
  obtain ⟨range, _, rfl⟩ := List.mem_map.mp hshard
  exact of_decide_eq_true h

end tiling

/-! ## Names -/

section names

variable (rest : String)

theorem layers_name_eq (k : Int) :
    s!"layers.{k}.{rest}" = dotted "layers" (dotted (toString k) rest) := by
  rw [← String.toList_inj]
  simp [toList_dotted, toString]

theorem embed_name_eq : "embed_tokens." ++ rest = dotted "embed_tokens" rest := by
  rw [← String.toList_inj]
  simp [toList_dotted]

theorem norm_name_eq : "norm." ++ rest = dotted "norm" rest := by
  rw [← String.toList_inj]
  simp [toList_dotted]

theorem head_name_eq : "lm_head." ++ rest = dotted "lm_head" rest := by
  rw [← String.toList_inj]
  simp [toList_dotted]

theorem dotted_ne {a a' b b' : String} (ha : '.' ∉ a.toList) (ha' : '.' ∉ a'.toList) (hne : a ≠ a') :
    dotted a b ≠ dotted a' b' := fun h => hne (dotted_inj ha ha' h).1

theorem layer_name_ne {a b : String} (k : Int) (key : String) (ha : '.' ∉ a.toList)
    (hne : a ≠ "layers") : layer_name k key ≠ dotted a b := by
  have hname : layer_name k key = dotted "layers"
      (dotted (toString k) (String.ofList (['.'].intercalate ((split_dots key).drop 3)))) := by
    unfold layer_name
    rw [← String.toList_inj]
    simp [toList_dotted]
  rw [hname]
  exact dotted_ne (by decide) ha hne.symm

end names

/-! ## The keys of layers -/

section kinds

variable {num_layers : Int} {ranges : List (Int × Int)} {shard : ShardedModel}
  {tie_word_embeddings : Bool} {i : Nat} {rest : String}

theorem embeds_layer_key : embeds shard (layer_key i rest) =
    (shard.is_first_shard && contains rest "embed_tokens") := by
  unfold embeds
  rw [layer_key_embed, layer_key_eq, startswith_model, Bool.and_true]

theorem without_model_layer_key :
    without_model (layer_key i rest) = dotted "layers" (dotted i.repr rest) := by
  rw [layer_key_eq, without_model_dotted]

theorem end_name_layer_key : end_name shard tie_word_embeddings (layer_key i rest) = none ↔
    ¬ (shard.is_first_shard = true ∧ contains rest "embed_tokens" = true) ∧
      ¬ (shard.is_last_shard = true ∧
        (contains rest "model.norm" = true ∨ contains rest "lm_head" = true)) := by
  have htied : startswith (layer_key i rest) "model.embed_tokens" = false := by
    simp [startswith, layer_key_eq, toList_dotted]
  rw [← Option.not_isSome_iff_eq_none, end_name_isSome, embeds_layer_key, layer_key_norm,
    layer_key_head, htied]
  cases shard.is_first_shard <;> cases shard.is_last_shard <;> simp

/-- In the first shard, the name for the head is not that of the layer. -/
theorem layer_head_name_ne (hembed : contains rest "embed_tokens" = true) :
    as_lm_head (without_model (layer_key i rest)) ≠ s!"layers.{(i : Int) - 0}.{rest}" := by
  have hname : s!"layers.{(i : Int) - 0}.{rest}" = without_model (layer_key i rest) := by
    rw [without_model_layer_key, Int.sub_zero, layers_name_eq]
    rfl
  rw [hname, Ne, as_lm_head_eq_iff, without_model_layer_key, contains_dotted (by decide),
    contains_dotted (by decide), hembed]
  simp

theorem layer_loaded_iff (hstart : shard.is_first_shard = true → shard.start_layer = 0) :
    (∀ name, name ∈ remapped_keys shard tie_word_embeddings (layer_key i rest) ↔
      Holds shard i ∧ name = s!"layers.{(i : Int) - shard.start_layer}.{rest}") ↔
    (Holds shard i → Readable i) ∧
      (contains rest "embed_tokens" = true → shard.is_first_shard = true →
        (Readable i → Holds shard i) ∧
          ¬ (shard.is_last_shard = true ∧ tie_word_embeddings = true)) ∧
      (contains rest "model.norm" = true ∨ contains rest "lm_head" = true →
        shard.is_last_shard = true → Readable i → Holds shard i) := by
  have hread : layer_of (layer_key i rest) = if Readable i then some (i : Int) else none :=
    layer_of_layer_key i rest
  by_cases hextra : embeds shard (layer_key i rest) && shard.is_last_shard && tie_word_embeddings
  · -- The tensor is stored for the head as well.
    have hmem : as_lm_head (without_model (layer_key i rest)) ∈
        remapped_keys shard tie_word_embeddings (layer_key i rest) := by
      refine lm_head_keys_subset ?_
      unfold lm_head_keys
      rw [if_pos hextra]
      exact List.mem_singleton_self _
    rw [embeds_layer_key] at hextra
    simp only [Bool.and_eq_true] at hextra
    obtain ⟨⟨⟨hfirst, hembed⟩, hlast⟩, htie⟩ := hextra
    constructor
    · intro h
      have hname := ((h _).mp hmem).2
      rw [hstart hfirst] at hname
      exact absurd hname (layer_head_name_ne hembed)
    · rintro ⟨_, h, _⟩
      exact absurd ⟨hlast, htie⟩ (h hembed hfirst).2
  · have hheads : lm_head_keys shard tie_word_embeddings (layer_key i rest) = [] := by
      unfold lm_head_keys
      rw [if_neg hextra]
    rw [embeds_layer_key] at hextra
    have hsingle : shard.is_first_shard = true → contains rest "embed_tokens" = true →
        ¬ (shard.is_last_shard = true ∧ tie_word_embeddings = true) := by
      intro hfirst hembed hlast
      exact hextra (by simp [hfirst, hembed, hlast])
    by_cases hreadable : Readable i
    · have hnames : NamesLayer (layer_key i rest) i :=
        ⟨layer_key_layers i rest, hread.trans (if_pos hreadable)⟩
      by_cases hholds : Holds shard i
      · rw [remapped_keys_layer hnames hholds, hheads, layer_name_layer_key, ← layers_name_eq]
        simp only [List.nil_append, List.mem_singleton, hholds, hreadable, true_and, implies_true,
          and_true, true_iff]
        exact fun hembed hfirst => hsingle hfirst hembed
      · rw [remapped_keys_end hnames.not_skipped (hnames.not_holds hholds), hheads, List.nil_append]
        simp only [hholds, hreadable, false_and, iff_false, ← List.eq_nil_iff_forall_not_mem,
          Option.toList_eq_nil_iff, end_name_layer_key, false_imp_iff, forall_true_left, true_and]
        constructor
        · rintro ⟨hfirst, hlast⟩
          exact ⟨fun hembed hf => absurd ⟨hf, hembed⟩ hfirst, fun hends hl => hlast ⟨hl, hends⟩⟩
        · rintro ⟨hfirst, hlast⟩
          exact ⟨fun h => hfirst h.2 h.1, fun h => hlast h.2 h.1⟩
    · have hskip : Skipped (layer_key i rest) :=
        ⟨layer_key_layers i rest, hread.trans (if_neg hreadable)⟩
      rw [remapped_keys_skipped hskip, hheads]
      simp only [List.not_mem_nil, false_iff, not_and, hreadable, imp_false, false_imp_iff,
        implies_true, true_and, and_true]
      constructor
      · intro h
        exact ⟨fun hholds => h _ hholds rfl, fun hembed hfirst => not_and.mp (hsingle hfirst hembed)⟩
      · intro h name hholds
        exact absurd hholds h.1

/-! ## The other keys -/

/-- A key that is loaded under no name of a layer is not taken for one. -/
theorem unlayered_of_loaded (T : Tiling num_layers ranges) {key : String}
    {named : ShardedModel → String → Prop}
    (h : ∀ shard ∈ shards num_layers ranges, ∀ name,
      name ∈ remapped_keys shard tie_word_embeddings key ↔ named shard name)
    (hskip : ∃ shard ∈ shards num_layers ranges, ∃ name, named shard name ∧
      name ∉ lm_head_keys shard tie_word_embeddings key)
    (hname : ∀ shard name, named shard name → ∀ k, layer_name k key ≠ name) :
    Unlayered num_layers key := by
  constructor
  · intro hskipped
    obtain ⟨shard, hshard, name, hnamed, hnot⟩ := hskip
    have hmem := (h shard hshard name).mpr hnamed
    rw [remapped_keys_skipped hskipped] at hmem
    exact hnot hmem
  · rintro layer_idx hnames ⟨hlow, hhigh⟩
    obtain ⟨shard, hshard, hholds⟩ := exists_holder T hlow hhigh
    have hmem : layer_name (layer_idx - shard.start_layer) key ∈
        remapped_keys shard tie_word_embeddings key := by
      rw [remapped_keys_layer hnames hholds]
      exact List.mem_append_right _ (List.mem_singleton_self _)
    exact hname shard _ ((h shard hshard _).mp hmem) _ rfl

theorem remapped_keys_unlayered (T : Tiling num_layers ranges) {key : String}
    (h : Unlayered num_layers key) (hshard : shard ∈ shards num_layers ranges) :
    remapped_keys shard tie_word_embeddings key = lm_head_keys shard tie_word_embeddings key ++
      (end_name shard tie_word_embeddings key).toList :=
  remapped_keys_end h.1 fun layer_idx hnames hholds =>
    h.2 layer_idx hnames (holds_bounds T hshard hholds)

theorem embeds_embed_key : embeds shard (embed_key rest) = shard.is_first_shard := by
  have hmodel : startswith (embed_key rest) "model." = true := by
    rw [embed_key_eq, startswith_model]
  unfold embeds
  rw [embed_key_embed, hmodel, Bool.and_true, Bool.and_true]

/-- What the shards make of the embedding, when it is not taken for a layer. -/
theorem embed_names_iff : (∀ name, name ∈ lm_head_keys shard tie_word_embeddings (embed_key rest) ++
      (end_name shard tie_word_embeddings (embed_key rest)).toList ↔
      shard.is_first_shard = true ∧ name = "embed_tokens." ++ rest ∨
      shard.is_last_shard = true ∧ tie_word_embeddings = true ∧ name = "lm_head." ++ rest) ↔
    (shard.is_last_shard = true → tie_word_embeddings = true →
      contains rest "embed_tokens" = false) ∧
    (shard.is_last_shard = true → shard.is_first_shard = false → contains rest "lm_head" = false ∧
      (contains rest "model.norm" = true → tie_word_embeddings = true)) := by
  have hhead : as_lm_head (without_model (embed_key rest)) = "lm_head." ++ rest ↔
      contains rest "embed_tokens" = false := by
    rw [without_model_embed_key, as_lm_head_dotted, head_name_eq, ← as_lm_head_eq_iff]
    exact ⟨fun h => (dotted_inj (by decide) (by decide) h).2, fun h => by rw [h]⟩
  have hne : "embed_tokens." ++ rest ≠ "lm_head." ++ rest := by
    rw [embed_name_eq, head_name_eq]
    exact dotted_ne (by decide) (by decide) (by decide)
  have hne' : embed_key rest ≠ "lm_head." ++ rest := by
    rw [embed_key_eq, head_name_eq]
    exact dotted_ne (by decide) (by decide) (by decide)
  have hembed : without_model (embed_key rest) = "embed_tokens." ++ rest := by
    rw [without_model_embed_key, embed_name_eq]
  rw [← hhead]
  unfold lm_head_keys end_name
  rw [embeds_embed_key, embed_key_norm, embed_key_head, embed_key_embed, embed_key_tied, hembed]
  generalize as_lm_head ("embed_tokens." ++ rest) = tied at *
  generalize "embed_tokens." ++ rest = name at *
  generalize "lm_head." ++ rest = head at *
  rcases shard.is_first_shard with _ | _
  · rcases shard.is_last_shard with _ | _
    · simp
    · rcases contains rest "lm_head" with _ | _
      · rcases tie_word_embeddings with _ | _
        · rcases contains rest "model.norm" with _ | _
          · simp
          · simp
        · simp
      · -- The key itself is the name.
        simp
        exact ⟨_, fun h => hne' (h.mp rfl).2⟩
  · rcases shard.is_last_shard with _ | _
    · simp
    · rcases tie_word_embeddings with _ | _
      · simp
      · simp
        constructor
        · intro h
          exact (((h head).mpr (Or.inr rfl)).resolve_right hne.symm).symm
        · rintro rfl x
          exact or_comm

theorem embeddings_iff (T : Tiling num_layers ranges) :
    (∀ shard ∈ shards num_layers ranges, ∀ name,
      name ∈ remapped_keys shard tie_word_embeddings (embed_key rest) ↔
        shard.is_first_shard = true ∧ name = "embed_tokens." ++ rest ∨
        shard.is_last_shard = true ∧ tie_word_embeddings = true ∧ name = "lm_head." ++ rest) ↔
    PlainEmbedding num_layers ranges tie_word_embeddings rest := by
  constructor
  · intro h
    have hunlayered : Unlayered num_layers (embed_key rest) := by
      refine unlayered_of_loaded T h ?_ ?_
      · obtain ⟨shard, hshard, hfirst⟩ := exists_first T
        refine ⟨shard, hshard, _, Or.inl ⟨hfirst, rfl⟩, ?_⟩
        intro hmem
        unfold lm_head_keys at hmem
        split at hmem
        · have heq := List.mem_singleton.mp hmem
          rw [without_model_embed_key, as_lm_head_dotted, embed_name_eq] at heq
          exact dotted_ne (by decide) (by decide) (by decide) heq
        · cases hmem
      · rintro shard name (⟨_, rfl⟩ | ⟨_, _, rfl⟩) k
        · rw [embed_name_eq]
          exact layer_name_ne k _ (by decide) (by decide)
        · rw [head_name_eq]
          exact layer_name_ne k _ (by decide) (by decide)
    have hplain : ∀ shard ∈ shards num_layers ranges, _ := fun shard hshard =>
      embed_names_iff.mp (by
        rw [← remapped_keys_unlayered T hunlayered hshard]
        exact h shard hshard)
    obtain ⟨last, hlast, hislast⟩ := exists_last T
    exact ⟨hunlayered, (hplain last hlast).1 hislast, fun shard hshard => (hplain shard hshard).2⟩
  · intro h shard hshard
    rw [remapped_keys_unlayered T h.unlayered hshard]
    exact embed_names_iff.mpr ⟨fun _ => h.embed, h.ends shard hshard⟩

theorem norm_names_iff : (∀ name, name ∈ lm_head_keys shard tie_word_embeddings (norm_key rest) ++
      (end_name shard tie_word_embeddings (norm_key rest)).toList ↔
      shard.is_last_shard = true ∧ name = "norm." ++ rest) ↔
    (contains rest "embed_tokens" = true → shard.is_first_shard = true →
      shard.is_last_shard = true ∧ tie_word_embeddings = false) ∧
    (contains rest "lm_head" = true → shard.is_last_shard = true →
      shard.is_first_shard = true ∧ contains rest "embed_tokens" = true) := by
  have hcontains : contains (norm_key rest) "embed_tokens" = contains rest "embed_tokens" :=
    contains_norm_key rest (by decide) (by decide) (by decide)
  have hembeds : embeds shard (norm_key rest) =
      (shard.is_first_shard && contains rest "embed_tokens") := by
    unfold embeds
    rw [hcontains, norm_key_eq, startswith_model, Bool.and_true]
  have hhead : contains (norm_key rest) "lm_head" = contains rest "lm_head" :=
    contains_norm_key rest (by decide) (by decide) (by decide)
  have hnorm : without_model (norm_key rest) = "norm." ++ rest := by
    rw [without_model_norm_key, norm_name_eq]
  have htied : as_lm_head ("norm." ++ rest) = "norm." ++ rest ↔
      contains rest "embed_tokens" = false := by
    have hword : contains "norm" "embed_tokens" = false := by decide
    rw [as_lm_head_eq_iff, norm_name_eq, contains_dotted (by decide), hword, Bool.false_or]
  have hne : norm_key rest ≠ "norm." ++ rest := by
    rw [norm_key_eq, norm_name_eq]
    exact dotted_ne (by decide) (by decide) (by decide)
  unfold lm_head_keys end_name
  rw [hembeds, norm_key_norm, hhead, norm_key_tied, hnorm, hcontains]
  generalize as_lm_head ("norm." ++ rest) = tied at *
  generalize "norm." ++ rest = name at *
  rcases shard.is_first_shard with _ | _
  · rcases shard.is_last_shard with _ | _
    · simp
    · rcases contains rest "lm_head" with _ | _
      · simp
      · simp [hne]
  · rcases hembed : contains rest "embed_tokens" with _ | _
    · rcases shard.is_last_shard with _ | _
      · simp
      · rcases contains rest "lm_head" with _ | _
        · simp
        · simp [hne]
    · have htied' : tied ≠ name := fun h => by
        rw [htied.mp h] at hembed
        cases hembed
      rcases shard.is_last_shard with _ | _
      · simp
      · rcases tie_word_embeddings with _ | _
        · simp
        · simp [htied']

theorem norms_iff (T : Tiling num_layers ranges) :
    (∀ shard ∈ shards num_layers ranges, ∀ name,
      name ∈ remapped_keys shard tie_word_embeddings (norm_key rest) ↔
        shard.is_last_shard = true ∧ name = "norm." ++ rest) ↔
    PlainNorm num_layers ranges tie_word_embeddings rest := by
  constructor
  · intro h
    have hunlayered : Unlayered num_layers (norm_key rest) := by
      refine unlayered_of_loaded T h ?_ ?_
      · obtain ⟨shard, hshard, hlast⟩ := exists_last T
        refine ⟨shard, hshard, _, ⟨hlast, rfl⟩, ?_⟩
        intro hmem
        unfold lm_head_keys at hmem
        split at hmem
        · rename_i hcond
          have heq := List.mem_singleton.mp hmem
          simp only [Bool.and_eq_true, embeds] at hcond
          have hembed : contains ("norm." ++ rest) "embed_tokens" = true := by
            have hword : contains "norm" "embed_tokens" = false := by decide
            rw [norm_name_eq, contains_dotted (by decide), hword, Bool.false_or,
              ← contains_norm_key rest (by decide) (by decide) (by decide)]
            exact hcond.1.1.1.2
          rw [without_model_norm_key, ← norm_name_eq, eq_comm, as_lm_head_eq_iff, hembed] at heq
          cases heq
        · cases hmem
      · rintro shard name ⟨_, rfl⟩ k
        rw [norm_name_eq]
        exact layer_name_ne k _ (by decide) (by decide)
    have hplain : ∀ shard ∈ shards num_layers ranges, _ := fun shard hshard =>
      norm_names_iff.mp (by
        rw [← remapped_keys_unlayered T hunlayered hshard]
        exact h shard hshard)
    exact ⟨hunlayered, fun hembed shard hshard => (hplain shard hshard).1 hembed,
      fun hhead shard hshard => (hplain shard hshard).2 hhead⟩
  · intro h shard hshard
    rw [remapped_keys_unlayered T h.unlayered hshard]
    exact norm_names_iff.mpr ⟨fun hembed => h.embed hembed shard hshard,
      fun hhead => h.head hhead shard hshard⟩

theorem heads_iff (T : Tiling num_layers ranges) :
    (∀ shard ∈ shards num_layers ranges, ∀ name,
      name ∈ remapped_keys shard tie_word_embeddings (head_key rest) ↔
        shard.is_last_shard = true ∧ name = "lm_head." ++ rest) ↔
    Unlayered num_layers (head_key rest) := by
  have hembeds : ∀ shard, embeds shard (head_key rest) = false := by
    intro shard
    unfold embeds
    rw [head_key_model, Bool.and_false]
  have hheads : ∀ shard, lm_head_keys shard tie_word_embeddings (head_key rest) = [] := by
    intro shard
    unfold lm_head_keys
    simp [hembeds shard]
  constructor
  · intro h
    refine unlayered_of_loaded T h ?_ ?_
    · obtain ⟨shard, hshard, hlast⟩ := exists_last T
      exact ⟨shard, hshard, _, ⟨hlast, rfl⟩, by simp [hheads shard]⟩
    · rintro shard name ⟨_, rfl⟩ k
      rw [head_name_eq]
      exact layer_name_ne k _ (by decide) (by decide)
  · intro h shard hshard name
    rw [remapped_keys_unlayered T h hshard, hheads shard]
    unfold end_name
    rw [hembeds shard, head_key_head]
    have hname : head_key rest = "lm_head." ++ rest := rfl
    rcases shard.is_last_shard with _ | _
    · simp
    · simp [hname, eq_comm]

theorem layers_iff (T : Tiling num_layers ranges) :
    (∀ shard ∈ shards num_layers ranges, ∀ name,
      name ∈ remapped_keys shard tie_word_embeddings (layer_key i rest) ↔
        Holds shard i ∧ name = s!"layers.{(i : Int) - shard.start_layer}.{rest}") ↔
    PlainLayer num_layers ranges tie_word_embeddings i rest := by
  have hstart : ∀ shard ∈ shards num_layers ranges, _ := fun shard hshard =>
    @layer_loaded_iff shard tie_word_embeddings i rest (start_of_first hshard)
  constructor
  · intro h
    refine ⟨fun hi => ?_, fun hembed shard hshard hfirst => ?_, fun hends shard hshard hlast => ?_⟩
    · obtain ⟨shard, hshard, hholds⟩ := exists_holder T (Int.natCast_nonneg i) hi
      exact ((hstart shard hshard).mp (h shard hshard)).1 hholds
    · exact ((hstart shard hshard).mp (h shard hshard)).2.1 hembed hfirst
    · exact ((hstart shard hshard).mp (h shard hshard)).2.2 hends hlast
  · intro h shard hshard
    exact (hstart shard hshard).mpr ⟨fun hholds => h.readable (holds_bounds T hshard hholds).2,
      fun hembed => h.embed hembed shard hshard, fun hends => h.ends hends shard hshard⟩

end kinds

/-! ## Names of their own -/

section apart

variable {num_layers : Int} {ranges : List (Int × Int)} {tie_word_embeddings : Bool}
  {keys : List String} {shard : ShardedModel} {key key' name : String}

/-- Where a name comes from, by its first part and the rest. -/
def Origin (shard : ShardedModel) (tie_word_embeddings : Bool) (key first rest : String) : Prop :=
  first = "layers" ∧ (∃ (i : Nat) (rest' : String), shard.start_layer ≤ (i : Int) ∧ key = layer_key i rest' ∧
      rest = dotted (toString ((i : Int) - shard.start_layer)) rest') ∨
    first = "embed_tokens" ∧ key = embed_key rest ∨ first = "norm" ∧ key = norm_key rest ∨
    first = "lm_head" ∧ (key = head_key rest ∨ tie_word_embeddings = true ∧ key = embed_key rest)

theorem Origin.no_dot {first rest : String}
    (h : Origin shard tie_word_embeddings key first rest) : '.' ∉ first.toList := by
  rcases h with ⟨rfl, _⟩ | ⟨rfl, _⟩ | ⟨rfl, _⟩ | ⟨rfl, _⟩ <;> decide

theorem toString_natCast_inj {i j : Int} (hi : 0 ≤ i) (hj : 0 ≤ j) (h : toString i = toString j) :
    i = j := by
  obtain ⟨m, rfl⟩ := Int.eq_ofNat_of_zero_le hi
  obtain ⟨n, rfl⟩ := Int.eq_ofNat_of_zero_le hj
  rw [repr_inj h]

theorem dot_not_mem_toString {i : Int} (hi : 0 ≤ i) : '.' ∉ (toString i).toList := by
  obtain ⟨m, rfl⟩ := Int.eq_ofNat_of_zero_le hi
  exact dot_not_mem_repr m

/-- A name has one key, and a tied model may have two. -/
theorem Origin.unique {first rest : String} (h : Origin shard tie_word_embeddings key first rest)
    (h' : Origin shard tie_word_embeddings key' first rest) :
    key = key' ∨ tie_word_embeddings = true ∧
      (key = embed_key rest ∧ key' = head_key rest ∨ key = head_key rest ∧ key' = embed_key rest) := by
  rcases h with ⟨rfl, i, r, hi, rfl, rfl⟩ | ⟨rfl, rfl⟩ | ⟨rfl, rfl⟩ | ⟨rfl, h⟩
  · rcases h' with ⟨_, j, r', hj, rfl, heq⟩ | ⟨hne, _⟩ | ⟨hne, _⟩ | ⟨hne, _⟩
    · obtain ⟨hnum, rfl⟩ := dotted_inj (dot_not_mem_toString (by omega))
        (dot_not_mem_toString (by omega)) heq
      have hint := toString_natCast_inj (by omega) (by omega) hnum
      have hij : i = j := by omega
      exact Or.inl (by rw [hij])
    all_goals exact absurd hne (by decide)
  · rcases h' with ⟨hne, _⟩ | ⟨_, rfl⟩ | ⟨hne, _⟩ | ⟨hne, _⟩
    · exact absurd hne (by decide)
    · exact Or.inl rfl
    all_goals exact absurd hne (by decide)
  · rcases h' with ⟨hne, _⟩ | ⟨hne, _⟩ | ⟨_, rfl⟩ | ⟨hne, _⟩
    · exact absurd hne (by decide)
    · exact absurd hne (by decide)
    · exact Or.inl rfl
    · exact absurd hne (by decide)
  · rcases h' with ⟨hne, _⟩ | ⟨hne, _⟩ | ⟨hne, _⟩ | ⟨_, h'⟩
    · exact absurd hne (by decide)
    · exact absurd hne (by decide)
    · exact absurd hne (by decide)
    · rcases h with rfl | ⟨htie, rfl⟩
      · rcases h' with rfl | ⟨htie, rfl⟩
        · exact Or.inl rfl
        · exact Or.inr ⟨htie, Or.inr ⟨rfl, rfl⟩⟩
      · rcases h' with rfl | ⟨_, rfl⟩
        · exact Or.inr ⟨htie, Or.inl ⟨rfl, rfl⟩⟩
        · exact Or.inl rfl

/-- The known keys that are loaded as they should be get their names from their starts. -/
theorem origin_of_loaded
    (h : LoadsKnownKeys num_layers ranges tie_word_embeddings keys)
    (hshard : shard ∈ shards num_layers ranges) (hkey : key ∈ keys) (hstray : ¬ Stray key)
    (hname : name ∈ remapped_keys shard tie_word_embeddings key) :
    ∃ first rest, name = dotted first rest ∧ Origin shard tie_word_embeddings key first rest := by
  unfold Stray at hstray
  push Not at hstray
  obtain ⟨rest, hstart⟩ := hstray
  by_cases hlayer : ∃ i : Nat, key = layer_key i rest
  · obtain ⟨i, rfl⟩ := hlayer
    obtain ⟨hholds, rfl⟩ := (h.layers i rest hkey shard hshard name).mp hname
    exact ⟨_, _, layers_name_eq rest _, Or.inl ⟨rfl, i, rest, hholds.1, rfl, rfl⟩⟩
  · by_cases hembed : key = embed_key rest
    · subst hembed
      rcases (h.embeddings rest hkey shard hshard name).mp hname with ⟨_, rfl⟩ | ⟨_, htie, rfl⟩
      · exact ⟨_, _, embed_name_eq rest, Or.inr (Or.inl ⟨rfl, rfl⟩)⟩
      · exact ⟨_, _, head_name_eq rest, Or.inr (Or.inr (Or.inr ⟨rfl, Or.inr ⟨htie, rfl⟩⟩))⟩
    · by_cases hnorm : key = norm_key rest
      · subst hnorm
        obtain ⟨_, rfl⟩ := (h.norms rest hkey shard hshard name).mp hname
        exact ⟨_, _, norm_name_eq rest, Or.inr (Or.inr (Or.inl ⟨rfl, rfl⟩))⟩
      · have hhead := hstart (fun i h => hlayer ⟨i, h⟩) hembed hnorm
        subst hhead
        obtain ⟨_, rfl⟩ := (h.heads rest hkey shard hshard name).mp hname
        exact ⟨_, _, head_name_eq rest, Or.inr (Or.inr (Or.inr ⟨rfl, Or.inl rfl⟩))⟩

end apart

/-- The shards load a partition of the checkpoint if and only if the checkpoint is plain. -/
theorem loads_partition_iff {num_layers : Int} {ranges : List (Int × Int)}
    (tie_word_embeddings : Bool) (keys : List String) (T : Tiling num_layers ranges) :
    LoadsPartition num_layers ranges tie_word_embeddings keys ↔
      Plain num_layers ranges tie_word_embeddings keys := by
  constructor
  · intro h
    refine ⟨fun i rest hkey => (layers_iff T).mp (h.layers i rest hkey),
      fun rest hkey => (embeddings_iff T).mp (h.embeddings rest hkey),
      fun rest hkey => (norms_iff T).mp (h.norms rest hkey),
      fun rest hkey => (heads_iff T).mp (h.heads rest hkey), ?_, ?_⟩
    · intro htie rest hembed hhead
      obtain ⟨shard, hshard, hlast⟩ := exists_last T
      have hne : embed_key rest ≠ head_key rest := by
        rw [embed_key_eq, head_key_eq]
        exact dotted_ne (by decide) (by decide) (by decide)
      exact h.apart shard hshard _ hembed _ hhead hne _
        ((h.embeddings rest hembed shard hshard _).mpr (Or.inr ⟨hlast, htie, rfl⟩))
        ((h.heads rest hhead shard hshard _).mpr ⟨hlast, rfl⟩)
    · intro key hkey _ key' hkey' hne shard hshard
      exact h.apart shard hshard key hkey key' hkey' hne.symm
  · intro h
    have hknown : LoadsKnownKeys num_layers ranges tie_word_embeddings keys :=
      ⟨fun i rest hkey => (layers_iff T).mpr (h.layers i rest hkey),
        fun rest hkey => (embeddings_iff T).mpr (h.embeddings rest hkey),
        fun rest hkey => (norms_iff T).mpr (h.norms rest hkey),
        fun rest hkey => (heads_iff T).mpr (h.heads rest hkey)⟩
    refine ⟨hknown, ?_⟩
    intro shard hshard key hkey key' hkey' hne name hname hname'
    by_cases hstray : Stray key
    · exact h.strays key hkey hstray key' hkey' hne.symm shard hshard name hname hname'
    · by_cases hstray' : Stray key'
      · exact h.strays key' hkey' hstray' key hkey hne shard hshard name hname' hname
      · obtain ⟨first, rest, hsplit, horigin⟩ :=
          origin_of_loaded hknown hshard hkey hstray hname
        obtain ⟨first', rest', hsplit', horigin'⟩ :=
          origin_of_loaded hknown hshard hkey' hstray' hname'
        obtain ⟨rfl, rfl⟩ := dotted_inj horigin.no_dot horigin'.no_dot (hsplit.symm.trans hsplit')
        rcases horigin.unique horigin' with heq | ⟨htie, ⟨rfl, rfl⟩ | ⟨rfl, rfl⟩⟩
        · exact hne heq
        · exact h.tied htie rest hkey hkey'
        · exact h.tied htie rest hkey' hkey

theorem two_shards_of_a_plain_model :
    LoadsPartition 2 [(0, 1), (1, 2)] false [embed_key "weight", layer_key 0 "mlp.weight",
      layer_key 1 "mlp.weight", norm_key "weight", head_key "weight"] ↔
    Plain 2 [(0, 1), (1, 2)] false [embed_key "weight", layer_key 0 "mlp.weight",
      layer_key 1 "mlp.weight", norm_key "weight", head_key "weight"] :=
  loads_partition_iff _ _ ⟨by decide, by decide, rfl, rfl, rfl⟩

/-- A checkpoint with an embedding in the layer behind the last one. -/
theorem layer_behind_the_model_is_loaded :
    ¬ ∀ num_layers ranges tie_word_embeddings keys, Tiling num_layers ranges →
      LoadsPartition num_layers ranges tie_word_embeddings keys := by
  intro h
  have hloads := (h 61 [(0, 31), (31, 61)] false [layer_key 61 "embed_tokens.weight"]
    ⟨by decide, by decide, rfl, rfl, rfl⟩).layers 61 "embed_tokens.weight"
    (List.mem_singleton_self _) (.init 61 0 31) (by decide) "layers.61.embed_tokens.weight"
  have hmem : "layers.61.embed_tokens.weight" ∈
      remapped_keys (.init 61 0 31) false (layer_key 61 "embed_tokens.weight") := by
    decide +kernel
  exact absurd (hloads.mp hmem).1 (by decide)

end parallax.shard_loader
