-- Which weight files a shard needs (parallax/utils/weight_filter_utils.py and
-- the loop over the weights in parallax/server/shard_loader.py). The downloader
-- and the loader ask the question about each key on their own.
import InferenceMesh.Lib.Dict
import InferenceMesh.Lib.PyExn
import InferenceMesh.Lib.PyString

open ordered_dict python python_string

namespace parallax.weight_filter_utils

/-- What is read of a model config. -/
structure Config where
  num_hidden_layers : Option Int
  tie_word_embeddings : Option Bool

/-- The files in the directory of a model: the config, the map from the keys to the weight files
that hold them, and the weight file of a model that has only one. -/
structure ModelPath where
  config : Option Config
  weight_map : Option (Dict String String)
  single_weight_files : List String

/-- The layer in a key is the part behind the first part `layers`. -/
def in_layers (start_layer end_layer : Int) : List (List Char) → Except Exn Bool
  | part :: next :: rest =>
    if part = "layers".toList then
      match int next with
      | none => .error (.ValueError
          s!"invalid literal for int() with base 10: '{String.ofList next}'")
      | some layer_idx => .ok (start_layer ≤ layer_idx && layer_idx < end_layer)
    else in_layers start_layer end_layer (next :: rest)
  | _ => .ok false

def should_include_weight_key (key : String) (start_layer end_layer : Int)
    (is_first_shard is_last_shard tie_word_embeddings : Bool) : Except Exn Bool :=
  if is_first_shard && contains key "embed_tokens" && startswith key "model." then .ok true
  else if is_last_shard && (contains key "model.norm" || contains key "lm_head") then .ok true
  else if is_last_shard && (tie_word_embeddings && contains key "embed" &&
      startswith key "model.embed_tokens") then .ok true
  else if contains key "layers." then in_layers start_layer end_layer (split_dots key)
  else .ok false

/-- The files of the keys that are included. A key is not asked about when its file is there. -/
def add_needed_files (should_include : String → Except Exn Bool) :
    List (String × String) → List String → Except Exn (List String)
  | [], needed_files => .ok needed_files
  | (key, filename) :: rest, needed_files =>
    if filename ∈ needed_files then add_needed_files should_include rest needed_files
    else
      match should_include key with
      | .error e => .error e
      | .ok true => add_needed_files should_include rest (needed_files ++ [filename])
      | .ok false => add_needed_files should_include rest needed_files

/-- The weight files, given by their names in the directory of the model, that the loader opens. -/
def filter_weight_files_by_layer_range_for_load (model_path : ModelPath)
    (weight_files : List String) (start_layer end_layer : Int)
    (is_first_shard is_last_shard : Bool) (config : Option Config) : Except Exn (List String) :=
  match model_path.weight_map with
  | none => .ok weight_files
  | some weight_map =>
    if weight_map.items = [] then .ok weight_files
    else
      let tie_word_embeddings :=
        ((config.or model_path.config).bind Config.tie_word_embeddings).getD false
      match add_needed_files (fun key => should_include_weight_key key start_layer end_layer
          is_first_shard is_last_shard tie_word_embeddings) weight_map.items [] with
      | .error e => .error e
      | .ok needed_files =>
        if needed_files = [] then .ok weight_files
        else .ok (weight_files.filter (fun wf => wf ∈ needed_files))

/-- The weight files that are downloaded for a range of layers. -/
def determine_needed_weight_files_for_download (model_path : ModelPath)
    (start_layer end_layer : Int) (config : Option Config) : Except Exn (List String) :=
  let is_first_shard := decide (start_layer = 0)
  let is_last_shard :=
    match config.or model_path.config with
    | none => false
    | some config => decide (end_layer ≥ config.num_hidden_layers.getD 0)
  match model_path.weight_map with
  | none => .ok (model_path.single_weight_files.take 1)
  | some weight_map =>
    if weight_map.items = [] then .ok []
    else
      let tie_word_embeddings := (config.bind Config.tie_word_embeddings).getD false
      match add_needed_files (fun key => should_include_weight_key key start_layer end_layer
          is_first_shard is_last_shard tie_word_embeddings) weight_map.items [] with
      | .error e => .error e
      | .ok needed_files => .ok (needed_files.insertionSort (· ≤ ·))

end parallax.weight_filter_utils

namespace parallax.selective_download

open parallax.weight_filter_utils

/-- The call of the downloader. It passes no config. -/
def needed_weight_files (model_path : ModelPath) (start_layer end_layer : Int) :
    Except Exn (List String) :=
  determine_needed_weight_files_for_download model_path start_layer end_layer none

end parallax.selective_download

namespace parallax.shard_loader

open parallax.weight_filter_utils

/-- The part of a key that the loader takes for its layer. -/
def layer_of (key : String) : Option Int := ((split_dots key)[2]?).bind int

/-- The loader takes the tensor of the key out of its file. -/
def reads_tensor (key : String) (start_layer end_layer : Int)
    (is_first_shard is_last_shard tie_word_embeddings : Bool) : Bool :=
  let embeds := is_first_shard && contains key "embed_tokens" && startswith key "model."
  let tied_head := embeds && is_last_shard && tie_word_embeddings
  let is_needed :=
    if embeds then true
    else if is_last_shard then
      contains key "model.norm" || contains key "lm_head" ||
        (tie_word_embeddings && contains key "embed_tokens" && startswith key "model.embed_tokens")
    else false
  if contains key "model.layers" then
    match layer_of key with
    -- The rest of the loop body is skipped, and only the tied head was read before.
    | none => tied_head
    | some layer_idx => is_needed || (start_layer ≤ layer_idx && layer_idx < end_layer)
  else is_needed

/-- The files that the loader opens for a shard. -/
def weight_files (model_path : ModelPath) (config : Config) (files : List String)
    (start_layer end_layer : Int) : Except Exn (List String) :=
  filter_weight_files_by_layer_range_for_load model_path files start_layer end_layer
    (decide (start_layer = 0)) (decide (some end_layer = config.num_hidden_layers)) (some config)

end parallax.shard_loader
