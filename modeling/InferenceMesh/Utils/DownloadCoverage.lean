-- Does the downloader bring every file that the loader of the shard wants to
-- open? It is called without a config, so it takes every model for one with a
-- head of its own, and it stops at a key whose layer is not a number.
import InferenceMesh.Utils.WeightFilter

open ordered_dict python python_string

namespace parallax.weight_filter_utils

/-! ## One key -/

/-- The key is included for its name, whatever its layer is. -/
def wanted_by_name (key : String) (is_first_shard is_last_shard tie_word_embeddings : Bool) : Bool :=
  is_first_shard && contains key "embed_tokens" && startswith key "model." ||
  is_last_shard && (contains key "model.norm" || contains key "lm_head") ||
  is_last_shard && (tie_word_embeddings && contains key "embed" &&
    startswith key "model.embed_tokens")

/-- The part behind the first part `layers`. -/
def layer_part : List (List Char) → Option (List Char)
  | part :: next :: rest =>
    if part = "layers".toList then some next else layer_part (next :: rest)
  | _ => none

/-- The key would be included for its layer, if that was a number. -/
def Unreadable (key : String) (is_first_shard is_last_shard tie_word_embeddings : Bool) : Prop :=
  wanted_by_name key is_first_shard is_last_shard tie_word_embeddings = false ∧
    ∃ part, layer_part (split_dots key) = some part ∧ int part = none

theorem in_layers_eq (start_layer end_layer : Int) (parts : List (List Char)) :
    in_layers start_layer end_layer parts =
      match layer_part parts with
      | none => .ok false
      | some part =>
        match int part with
        | none => .error (.ValueError
            s!"invalid literal for int() with base 10: '{String.ofList part}'")
        | some l => .ok (start_layer ≤ l && l < end_layer) := by
  induction parts with
  | nil => rfl
  | cons part parts ih =>
    rcases parts with _ | ⟨next, rest⟩
    · rfl
    · simp only [in_layers, layer_part]
      split
      · rfl
      · exact ih

theorem layer_part_split {parts : List (List Char)} {next : List Char}
    (h : layer_part parts = some next) :
    ∃ before after, parts = before ++ "layers".toList :: next :: after := by
  induction parts with
  | nil => cases h
  | cons part parts ih =>
    rcases parts with _ | ⟨q, rest⟩
    · cases h
    · simp only [layer_part] at h
      split at h
      · rename_i hpart
        cases h
        exact ⟨[], rest, by rw [hpart]; rfl⟩
      · obtain ⟨before, after, hsplit⟩ := ih h
        exact ⟨part :: before, after, by rw [hsplit]; rfl⟩

/-- A key with a layer has the text that is looked for first. -/
theorem contains_layers {key : String} {next : List Char}
    (h : layer_part (split_dots key) = some next) : contains key "layers." = true := by
  obtain ⟨before, after, hsplit⟩ := layer_part_split h
  exact contains_iff.mpr (part_before_dot hsplit)

theorem should_include_weight_key.spec (key : String) (start_layer end_layer : Int)
    (first last tie : Bool) :
    should_include_weight_key key start_layer end_layer first last tie =
      if wanted_by_name key first last tie then .ok true
      else in_layers start_layer end_layer (split_dots key) := by
  have hlayers : contains key "layers." = false →
      in_layers start_layer end_layer (split_dots key) = .ok false := by
    intro hno
    rw [in_layers_eq]
    rcases hpart : layer_part (split_dots key) with _ | part
    · rfl
    · rw [contains_layers hpart] at hno
      cases hno
  unfold should_include_weight_key wanted_by_name
  split
  · rename_i h
    simp [h]
  · rename_i h
    split
    · rename_i h'
      simp [h']
    · rename_i h'
      split
      · rename_i h''
        simp [h'']
      · rename_i h''
        simp only [Bool.not_eq_true] at h h' h''
        rw [h, h', h'']
        simp only [Bool.or_self, Bool.false_eq_true, if_false]
        split
        · rfl
        · rename_i hno
          exact (hlayers (by simpa using hno)).symm

section

variable {key : String} {start_layer end_layer : Int} {first last tie : Bool}

/-- A key is included for its name, or for a layer in the range. -/
theorem include_iff :
    should_include_weight_key key start_layer end_layer first last tie = .ok true ↔
      wanted_by_name key first last tie = true ∨ ∃ part l,
        layer_part (split_dots key) = some part ∧ int part = some l ∧
          start_layer ≤ l ∧ l < end_layer := by
  rw [should_include_weight_key.spec]
  split
  · rename_i h
    simp [h]
  · rename_i h
    rw [in_layers_eq]
    rcases hpart : layer_part (split_dots key) with _ | part
    · simp [h]
    · rcases hint : int part with _ | l
      · simp [h, hint]
      · simp [h, hint]

theorem include_raises_iff :
    (∃ e, should_include_weight_key key start_layer end_layer first last tie = .error e) ↔
      Unreadable key first last tie := by
  unfold Unreadable
  rw [should_include_weight_key.spec]
  split
  · rename_i h
    simp [h]
  · rename_i h
    rw [in_layers_eq]
    rcases hpart : layer_part (split_dots key) with _ | part
    · simp
    · rcases hint : int part with _ | l
      · simp [h, hint]
      · simp [hint]

end

/-! ## All keys -/

/-- Where a key cannot be read, its file is there already. -/
def EachFound (should_include : String → Except Exn Bool) (items : List (String × String))
    (needed_files : List String) : Prop :=
  ∀ before key filename after, items = before ++ (key, filename) :: after →
    (∃ e, should_include key = .error e) →
      filename ∈ needed_files ∨ ∃ key', (key', filename) ∈ before ∧ should_include key' = .ok true

theorem EachFound.tail {should_include : String → Except Exn Bool} {key filename : String}
    {rest : List (String × String)} {needed_files needed_files' : List String}
    (h : EachFound should_include ((key, filename) :: rest) needed_files)
    (hsub : ∀ f ∈ needed_files, f ∈ needed_files')
    (hnew : should_include key = .ok true → filename ∈ needed_files') :
    EachFound should_include rest needed_files' := by
  intro before k f after hsplit hraises
  rcases h ((key, filename) :: before) k f after (by rw [hsplit]; rfl) hraises with
    hf | ⟨key', hmem, hyes⟩
  · exact Or.inl (hsub f hf)
  · rcases List.mem_cons.mp hmem with heq | hmem
    · cases heq
      exact Or.inl (hnew hyes)
    · exact Or.inr ⟨key', hmem, hyes⟩

theorem EachFound.cons {should_include : String → Except Exn Bool} {key filename : String}
    {rest : List (String × String)} {needed_files needed_files' : List String}
    (h : EachFound should_include rest needed_files')
    (hhead : (∃ e, should_include key = .error e) → filename ∈ needed_files)
    (hnew : ∀ f ∈ needed_files', f ∈ needed_files ∨ f = filename ∧ should_include key = .ok true) :
    EachFound should_include ((key, filename) :: rest) needed_files := by
  intro before k f after hsplit hraises
  rcases before with _ | ⟨x, before⟩
  · cases hsplit
    exact Or.inl (hhead hraises)
  · obtain ⟨rfl, hrest⟩ := List.cons.inj hsplit
    rcases h before k f after hrest hraises with hf | ⟨key', hmem, hyes⟩
    · rcases hnew f hf with hf | ⟨rfl, hyes⟩
      · exact Or.inl hf
      · exact Or.inr ⟨key, List.mem_cons_self, hyes⟩
    · exact Or.inr ⟨key', List.mem_cons_of_mem _ hmem, hyes⟩

theorem included_cons {should_include : String → Except Exn Bool} {key filename f : String}
    {rest : List (String × String)} :
    (∃ k, (k, f) ∈ (key, filename) :: rest ∧ should_include k = .ok true) ↔
      (f = filename ∧ should_include key = .ok true) ∨
        ∃ k, (k, f) ∈ rest ∧ should_include k = .ok true := by
  constructor
  · rintro ⟨k, hk, hyes⟩
    rcases List.mem_cons.mp hk with heq | hk
    · cases heq
      exact Or.inl ⟨rfl, hyes⟩
    · exact Or.inr ⟨k, hk, hyes⟩
  · rintro (⟨rfl, hyes⟩ | ⟨k, hk, hyes⟩)
    · exact ⟨key, List.mem_cons_self, hyes⟩
    · exact ⟨k, List.mem_cons_of_mem _ hk, hyes⟩

/-- The files of the included keys are found, exactly when no key stops the loop. -/
theorem add_needed_files.spec (should_include : String → Except Exn Bool)
    (items : List (String × String)) (needed_files : List String) :
    (EachFound should_include items needed_files ↔
      ∃ files, add_needed_files should_include items needed_files = .ok files) ∧
    ∀ files, add_needed_files should_include items needed_files = .ok files →
      ∀ f, f ∈ files ↔ f ∈ needed_files ∨
        ∃ key, (key, f) ∈ items ∧ should_include key = .ok true := by
  induction items generalizing needed_files with
  | nil =>
    refine ⟨⟨fun _ => ⟨needed_files, rfl⟩, fun _ => ?_⟩, ?_⟩
    · intro before key filename after hsplit
      simp at hsplit
    · intro files hfiles f
      cases hfiles
      simp
  | cons x rest ih =>
    obtain ⟨key, filename⟩ := x
    unfold add_needed_files
    by_cases hmem : filename ∈ needed_files
    · -- The key is not asked about.
      obtain ⟨hreturns, hfiles⟩ := ih needed_files
      rw [if_pos hmem]
      refine ⟨⟨fun h => hreturns.mp (h.tail (fun _ hf => hf) (fun _ => hmem)),
        fun h => (hreturns.mpr h).cons (fun _ => hmem) (fun f hf => Or.inl hf)⟩, ?_⟩
      intro files hrun f
      rw [hfiles files hrun f, included_cons]
      constructor
      · exact fun h => h.imp_right Or.inr
      · rintro (hf | ⟨rfl, _⟩ | hrest)
        · exact Or.inl hf
        · exact Or.inl hmem
        · exact Or.inr hrest
    · rw [if_neg hmem]
      rcases hasked : should_include key with e | included
      · refine ⟨⟨fun h => ?_, fun ⟨_, h⟩ => by cases h⟩, nofun⟩
        rcases h [] key filename rest rfl ⟨e, hasked⟩ with hf | ⟨_, hnone, _⟩
        · exact absurd hf hmem
        · cases hnone
      · have hreads : (∃ e, should_include key = .error e) → filename ∈ needed_files := by
          rintro ⟨e, he⟩
          rw [hasked] at he
          cases he
        rcases included with _ | _
        · obtain ⟨hreturns, hfiles⟩ := ih needed_files
          refine ⟨⟨fun h => hreturns.mp (h.tail (fun _ hf => hf) ?_),
            fun h => (hreturns.mpr h).cons hreads (fun f hf => Or.inl hf)⟩, ?_⟩
          · rw [hasked]
            nofun
          intro files hrun f
          rw [hfiles files hrun f, included_cons, hasked]
          simp
        · obtain ⟨hreturns, hfiles⟩ := ih (needed_files ++ [filename])
          refine ⟨⟨fun h => hreturns.mp (h.tail (fun f hf => List.mem_append_left _ hf)
            (fun _ => by simp)), fun h => (hreturns.mpr h).cons hreads ?_⟩, ?_⟩
          · intro f hf
            rcases List.mem_append.mp hf with hf | hf
            · exact Or.inl hf
            · exact Or.inr ⟨List.mem_singleton.mp hf, hasked⟩
          intro files hrun f
          rw [hfiles files hrun f, included_cons, hasked, List.mem_append, List.mem_singleton]
          simp [or_assoc]

/-- The keys that cannot be read are skipped, for their files are there when their turn comes. -/
def NoneStops (items : List (String × String)) (start_layer end_layer : Int)
    (first last tie : Bool) : Prop :=
  ∀ before key filename after, items = before ++ (key, filename) :: after →
    Unreadable key first last tie → ∃ key', (key', filename) ∈ before ∧
      should_include_weight_key key' start_layer end_layer first last tie = .ok true

theorem noneStops_iff {items : List (String × String)} {start_layer end_layer : Int}
    {first last tie : Bool} :
    NoneStops items start_layer end_layer first last tie ↔ EachFound
      (fun key => should_include_weight_key key start_layer end_layer first last tie) items [] := by
  unfold NoneStops EachFound
  simp only [include_raises_iff, List.not_mem_nil, false_or]

end parallax.weight_filter_utils

namespace parallax.shard_loader

open parallax.weight_filter_utils parallax.selective_download

/-! ## The downloader and the loader -/

/-- What the downloader takes for the last shard. -/
def downloads_last (config : Config) (end_layer : Int) : Bool :=
  decide (end_layer ≥ config.num_hidden_layers.getD 0)

/-- What the loader takes for the last shard. -/
def loads_last (config : Config) (end_layer : Int) : Bool :=
  decide (some end_layer = config.num_hidden_layers)

def tied (config : Config) : Bool := config.tie_word_embeddings.getD false

theorem downloads_last_of_loads {config : Config} {end_layer : Int}
    (h : loads_last config end_layer = true) : downloads_last config end_layer = true := by
  unfold loads_last downloads_last at *
  rw [decide_eq_true_eq] at *
  simp [← h]

/-- The downloader includes the key. -/
def Downloads (config : Config) (start_layer end_layer : Int) (key : String) : Prop :=
  should_include_weight_key key start_layer end_layer (decide (start_layer = 0))
    (downloads_last config end_layer) false = .ok true

/-- The loader opens the files with the key, or takes its tensor. -/
def Needs (config : Config) (start_layer end_layer : Int) (key : String) : Prop :=
  should_include_weight_key key start_layer end_layer (decide (start_layer = 0))
      (loads_last config end_layer) (tied config) = .ok true ∨
    reads_tensor key start_layer end_layer (decide (start_layer = 0))
      (loads_last config end_layer) (tied config) = true

/-- A shard at the end of a model with tied embeddings, but not at its start, needs them for its
head. -/
def TiedHead (config : Config) (start_layer end_layer : Int) (key : String) : Prop :=
  tied config = true ∧ loads_last config end_layer = true ∧ start_layer ≠ 0 ∧
    startswith key "model.embed_tokens" = true

/-- The loader takes the third part of a key for its layer, which is not the part behind the first
part `layers`. -/
def StrayLayer (start_layer end_layer : Int) (key : String) : Prop :=
  contains key "model.layers" = true ∧
    (∃ l, layer_of key = some l ∧ start_layer ≤ l ∧ l < end_layer) ∧
      layer_part (split_dots key) ≠ (split_dots key)[2]?

/-- The downloader brings the files of all keys that the loader needs, and neither of them raises. -/
structure DownloadCoversLoad (config : Config) (weight_map : Dict String String)
    (single_weight_files : List String) (start_layer end_layer : Int) : Prop where
  downloads : ∃ files,
    needed_weight_files ⟨some config, some weight_map, single_weight_files⟩ start_layer end_layer =
      .ok files ∧
    ∀ key filename, (key, filename) ∈ weight_map.items → Needs config start_layer end_layer key →
      filename ∈ files
  loads : ∀ files, ∃ opened,
    weight_files ⟨some config, some weight_map, single_weight_files⟩ config files start_layer
      end_layer = .ok opened

section

variable {config : Config} {start_layer end_layer : Int} {key : String}

theorem wanted_by_name_cases
    (h : wanted_by_name key (decide (start_layer = 0)) (loads_last config end_layer) (tied config) =
      true) :
    wanted_by_name key (decide (start_layer = 0)) (downloads_last config end_layer) false = true ∨
      TiedHead config start_layer end_layer key := by
  unfold wanted_by_name at *
  simp only [Bool.or_eq_true, Bool.and_eq_true, Bool.false_and, Bool.and_false, Bool.or_false] at *
  rcases h with (hembeds | ⟨hlast, hname⟩) | ⟨hlast, ⟨htied, _⟩, hstarts⟩
  · exact Or.inl (Or.inl hembeds)
  · exact Or.inl (Or.inr ⟨downloads_last_of_loads hlast, hname⟩)
  · by_cases hfirst : start_layer = 0
    · refine Or.inl (Or.inl ⟨⟨decide_eq_true hfirst, ?_⟩, ?_⟩)
      · exact contains_of_startswith hstarts (by decide)
      · exact startswith_trans hstarts (by decide)
    · exact Or.inr ⟨htied, hlast, hfirst, hstarts⟩

/-- The loader takes a tensor for the name of its key, or for the third part of it. -/
theorem reads_tensor_cases {first last tie : Bool}
    (h : reads_tensor key start_layer end_layer first last tie = true) :
    wanted_by_name key first last tie = true ∨ contains key "model.layers" = true ∧
      ∃ l, layer_of key = some l ∧ start_layer ≤ l ∧ l < end_layer := by
  have hhead : startswith key "model.embed_tokens" = true → contains key "embed" = true :=
    fun hstarts => contains_of_startswith hstarts (by decide)
  have hneeded : (if (first && contains key "embed_tokens" && startswith key "model.") = true then
        true
      else if last = true then
        contains key "model.norm" || contains key "lm_head" ||
          (tie && contains key "embed_tokens" && startswith key "model.embed_tokens")
      else false) = true → wanted_by_name key first last tie = true := by
    unfold wanted_by_name
    intro hn
    simp only [Bool.or_eq_true, Bool.and_eq_true]
    split at hn
    · rename_i hembeds
      simp only [Bool.and_eq_true] at hembeds
      exact Or.inl (Or.inl hembeds)
    · split at hn
      · rename_i hlast
        simp only [Bool.or_eq_true, Bool.and_eq_true] at hn
        rcases hn with hname | ⟨⟨htie, _⟩, hstarts⟩
        · exact Or.inl (Or.inr ⟨hlast, hname⟩)
        · exact Or.inr ⟨hlast, ⟨htie, hhead hstarts⟩, hstarts⟩
      · cases hn
  unfold reads_tensor at h
  dsimp only at h
  split at h
  · rename_i hlayers
    split at h
    · -- Only the tied head was read, for a key that the first test wants.
      simp only [Bool.and_eq_true] at h
      left
      unfold wanted_by_name
      simp [h]
    · rename_i l hl
      rw [Bool.or_eq_true] at h
      rcases h with hn | hrange
      · exact Or.inl (hneeded hn)
      · rw [Bool.and_eq_true, decide_eq_true_eq, decide_eq_true_eq] at hrange
        exact Or.inr ⟨hlayers, l, hl, hrange⟩
  · exact Or.inl (hneeded h)

/-- What the loader needs is downloaded, but for two kinds of keys. -/
theorem needs_cases (h : Needs config start_layer end_layer key) :
    Downloads config start_layer end_layer key ∨ TiedHead config start_layer end_layer key ∨
      StrayLayer start_layer end_layer key := by
  have hname : wanted_by_name key (decide (start_layer = 0)) (loads_last config end_layer)
      (tied config) = true → Downloads config start_layer end_layer key ∨
        TiedHead config start_layer end_layer key ∨ StrayLayer start_layer end_layer key := by
    intro hwanted
    rcases wanted_by_name_cases hwanted with hdownloads | htied
    · exact Or.inl (include_iff.mpr (Or.inl hdownloads))
    · exact Or.inr (Or.inl htied)
  rcases h with hincluded | hreads
  · rcases include_iff.mp hincluded with hwanted | hlayer
    · exact hname hwanted
    · exact Or.inl (include_iff.mpr (Or.inr hlayer))
  · rcases reads_tensor_cases hreads with hwanted | ⟨hlayers, l, hl, hrange⟩
    · exact hname hwanted
    · by_cases hsame : layer_part (split_dots key) = (split_dots key)[2]?
      · obtain ⟨part, hpart, hint⟩ := Option.bind_eq_some_iff.mp hl
        exact Or.inl (include_iff.mpr (Or.inr ⟨part, l, hsame.trans hpart, hint, hrange⟩))
      · exact Or.inr (Or.inr ⟨hlayers, ⟨l, hl, hrange⟩, hsame⟩)

theorem TiedHead.needs (h : TiedHead config start_layer end_layer key) :
    Needs config start_layer end_layer key := by
  obtain ⟨htied, hlast, _, hstarts⟩ := h
  left
  rw [include_iff, htied, hlast]
  left
  have hembed : contains key "embed" = true := contains_of_startswith hstarts (by decide)
  simp [wanted_by_name, hstarts, hembed]

theorem StrayLayer.needs (h : StrayLayer start_layer end_layer key) :
    Needs config start_layer end_layer key := by
  obtain ⟨hlayers, ⟨l, hl, hs, he⟩, _⟩ := h
  right
  unfold reads_tensor
  simp [hlayers, hl, hs, he]

end

theorem needed_weight_files_eq {config : Config} {weight_map : Dict String String}
    (hne : weight_map.items ≠ []) (single_weight_files : List String) (start_layer end_layer : Int) :
    needed_weight_files ⟨some config, some weight_map, single_weight_files⟩ start_layer end_layer =
      match add_needed_files (fun key => should_include_weight_key key start_layer end_layer
          (decide (start_layer = 0)) (downloads_last config end_layer) false) weight_map.items [] with
      | .error e => .error e
      | .ok needed_files => .ok (needed_files.insertionSort (· ≤ ·)) := by
  unfold needed_weight_files determine_needed_weight_files_for_download
  exact if_neg hne

theorem weight_files_eq {config : Config} {weight_map : Dict String String}
    (hne : weight_map.items ≠ []) (single_weight_files files : List String)
    (start_layer end_layer : Int) :
    weight_files ⟨some config, some weight_map, single_weight_files⟩ config files start_layer
        end_layer =
      match add_needed_files (fun key => should_include_weight_key key start_layer end_layer
          (decide (start_layer = 0)) (loads_last config end_layer) (tied config))
          weight_map.items [] with
      | .error e => .error e
      | .ok needed_files =>
        if needed_files = [] then .ok files
        else .ok (files.filter (fun wf => wf ∈ needed_files)) := by
  unfold weight_files filter_weight_files_by_layer_range_for_load
  exact if_neg hne

/-- The download covers the load exactly when no key stops either of them, and each file with a
head tied to the embeddings, or with a stray layer, also has a key that is downloaded. -/
theorem download_covers_load_iff (config : Config) (weight_map : Dict String String)
    (single_weight_files : List String) (start_layer end_layer : Int) :
    DownloadCoversLoad config weight_map single_weight_files start_layer end_layer ↔
      NoneStops weight_map.items start_layer end_layer (decide (start_layer = 0))
        (downloads_last config end_layer) false ∧
      NoneStops weight_map.items start_layer end_layer (decide (start_layer = 0))
        (loads_last config end_layer) (tied config) ∧
      ∀ key filename, (key, filename) ∈ weight_map.items →
        TiedHead config start_layer end_layer key ∨ StrayLayer start_layer end_layer key →
          ∃ key', (key', filename) ∈ weight_map.items ∧
            Downloads config start_layer end_layer key' := by
  by_cases hempty : weight_map.items = []
  · have hstops : ∀ last tie, NoneStops weight_map.items start_layer end_layer
        (decide (start_layer = 0)) last tie := by
      intro last tie before key filename after hsplit
      rw [hempty] at hsplit
      simp at hsplit
    constructor
    · intro _
      refine ⟨hstops _ _, hstops _ _, fun key filename hmem => ?_⟩
      rw [hempty] at hmem
      cases hmem
    · intro _
      refine ⟨⟨[], ?_, fun key filename hmem => ?_⟩, fun files => ⟨files, ?_⟩⟩
      · simp [needed_weight_files, determine_needed_weight_files_for_download, hempty]
      · rw [hempty] at hmem
        cases hmem
      · simp [weight_files, filter_weight_files_by_layer_range_for_load, hempty]
  · obtain ⟨hdownloads, hfound⟩ := add_needed_files.spec
      (fun key => should_include_weight_key key start_layer end_layer (decide (start_layer = 0))
        (downloads_last config end_layer) false) weight_map.items []
    obtain ⟨hloads, _⟩ := add_needed_files.spec
      (fun key => should_include_weight_key key start_layer end_layer (decide (start_layer = 0))
        (loads_last config end_layer) (tied config)) weight_map.items []
    rw [noneStops_iff, noneStops_iff, hdownloads, hloads]
    constructor
    · rintro ⟨⟨files, hrun, hcovers⟩, hopened⟩
      rw [needed_weight_files_eq hempty] at hrun
      obtain ⟨opened, hopen⟩ := hopened []
      rw [weight_files_eq hempty] at hopen
      refine ⟨?_, ?_, ?_⟩
      · split at hrun
        · cases hrun
        · rename_i needed hneeded
          exact ⟨needed, hneeded⟩
      · split at hopen
        · cases hopen
        · rename_i needed hneeded
          exact ⟨needed, hneeded⟩
      · intro key filename hmem hoverlooked
        have hneeds := hcovers key filename hmem
          (hoverlooked.elim TiedHead.needs StrayLayer.needs)
        split at hrun
        · cases hrun
        · rename_i needed hneeded
          cases hrun
          have hmember := (List.perm_insertionSort _ _).mem_iff.mp hneeds
          exact ((hfound needed hneeded filename).mp hmember).resolve_left List.not_mem_nil
    · rintro ⟨⟨needed, hneeded⟩, ⟨opened, hopened⟩, hrest⟩
      refine ⟨⟨needed.insertionSort (· ≤ ·), ?_, ?_⟩, ?_⟩
      · rw [needed_weight_files_eq hempty, hneeded]
      · intro key filename hmem hneeds
        apply (List.perm_insertionSort _ _).mem_iff.mpr
        apply (hfound needed hneeded filename).mpr
        rcases needs_cases hneeds with hdownload | hoverlooked
        · exact Or.inr ⟨key, hmem, hdownload⟩
        · exact Or.inr (hrest key filename hmem hoverlooked)
      · intro files
        rw [weight_files_eq hempty, hopened]
        dsimp only
        split
        · exact ⟨_, rfl⟩
        · exact ⟨_, rfl⟩

/-! ## Two files -/

/-- A model of two layers in two files, with its embeddings in the first one. -/
def two_files : Dict String String :=
  Dict.empty.insert "model.embed_tokens.weight" "model-00001-of-00002.safetensors"
    |>.insert "model.layers.0.mlp.weight" "model-00001-of-00002.safetensors"
    |>.insert "model.layers.1.mlp.weight" "model-00002-of-00002.safetensors"
    |>.insert "model.norm.weight" "model-00002-of-00002.safetensors"

/-- The last shard of a model with tied embeddings is left without them. -/
theorem tied_head_is_not_downloaded :
    ¬ ∀ (config : Config) (weight_map : Dict String String) (single_weight_files : List String)
      (start_layer end_layer : Int), 0 ≤ start_layer → start_layer < end_layer →
        (∃ n, config.num_hidden_layers = some n ∧ end_layer ≤ n) →
          DownloadCoversLoad config weight_map single_weight_files start_layer end_layer := by
  intro hall
  obtain ⟨⟨files, hrun, hcovers⟩, _⟩ := hall ⟨some 2, some true⟩ two_files [] 1 2 (by decide)
    (by decide) ⟨2, rfl, le_rfl⟩
  have hdownloaded : needed_weight_files ⟨some ⟨some 2, some true⟩, some two_files, []⟩ 1 2 =
      .ok ["model-00002-of-00002.safetensors"] := by decide +kernel
  rw [hdownloaded] at hrun
  cases hrun
  have hmissing := hcovers "model.embed_tokens.weight" "model-00001-of-00002.safetensors"
    (by decide +kernel) (Or.inl (by decide +kernel))
  revert hmissing
  decide

end parallax.shard_loader
