-- Any split of a model into shards computes what the whole model computes. Each
-- shard is fed with what comes out of the one before it, step by step, and only the
-- rows of a step are handed on. So a pipeline decodes as the plain model does.
import InferenceMesh.Server.ModelPartition
import InferenceMesh.Server.ShardSoundness

open python state_exn causal_stages parallax.metal.paged_attention mlx online_softmax
open parallax.models.dense parallax.server.cache_manager parallax.server.executor
open parallax.server.mlx_executor parallax.server.request
open CacheManager
open parallax.p2p.message_util (exact_wire_lawful)
open parallax.shard_loader (Tiling)

namespace parallax.server.model

set_option linter.unusedSectionVars false

variable {X K L : Type} [Field K] [LinearOrder K] [Add X] [Inhabited X]

/-! ## Stacks -/

theorem stack_append (lib : Library K) (e : Exp K) (before behind : List (Block X K)) :
    stack lib e (before ++ behind) = compose (stack lib e behind) (stack lib e before) := by
  induction before with
  | nil => exact (compose_last _ _).symm
  | cons block before ih =>
    rw [List.cons_append, stack, stack, ih, compose_assoc]

namespace Worker

variable (v : Worker X K L)

/-- The peer that has the layers of a range. -/
def part (range : Int × Int) : Worker X K L :=
  { v with shard := .init v.weights.layers.length range.1 range.2 }

/-- The shards of a split, by their peers. -/
def shards (ranges : List (Int × Int)) (j : Nat) : Shard := (v.part (ranges[j]?.getD (0, 0))).plain

variable {v} {ranges : List (Int × Int)} {range : Int × Int} {j : Nat}

/-- The layers up to the end of a range. -/
theorem part_layers (hstart : 0 ≤ range.1) (hle : range.1 ≤ range.2) :
    v.weights.layers.take range.1.toNat ++ (v.part range).shard.layers v.weights =
      v.weights.layers.take range.2.toNat := by
  have hsum : range.2.toNat = range.1.toNat + (range.2 - range.1).toNat := by omega
  show _ ++ (v.weights.layers.drop range.1.toNat).take (range.2 - range.1).toNat = _
  rw [hsum, List.take_add]

theorem shards_at (hrange : ranges[j]? = some range) :
    v.shards ranges j = (v.part range).plain := by
  unfold shards
  rw [hrange]
  rfl

/-- The rows that a shard hands on in a step are read as they were. -/
theorem read_hidden (hload : ∀ x, v.weights.load (v.weights.store x) = x) (fed : List Rows) :
    v.weights.read (.hidden (v.plain.hidden fed)) =
      last_chunk (stack v.lib v.exp (v.shard.layers v.weights)) (fed.map v.weights.read) := by
  have hlast : ((fed.map v.weights.read).getLastD []).length = (fed.getLastD (.tokens [])).len := by
    induction fed using List.reverseRecOn with
    | nil => rfl
    | append_singleton fed x _ =>
      rw [List.map_append, List.map_singleton, List.getLastD_concat, List.getLastD_concat,
        v.weights.read_length]
  unfold last_chunk
  rw [hlast, ← List.flatMap_def]
  show (((outputs _ _).rtake _).map v.weights.store).map v.weights.load = _
  rw [List.map_map]
  exact List.map_id'' hload _

/-- What peer `j` is fed are the outputs of all layers before its own. -/
theorem fused_outputs (T : Tiling v.weights.layers.length ranges)
    (hload : ∀ x, v.weights.load (v.weights.store x) = x) (fed : List Rows)
    (hrange : ranges[j]? = some range) :
    (outputs (fused (v.shards ranges) j) fed).flatMap v.weights.read =
      outputs (stack v.lib v.exp (v.weights.layers.take range.1.toNat))
        (fed.flatMap v.weights.read) := by
  induction j generalizing range with
  | zero =>
    rw [T.tiles.first hrange]
    show (outputs (fun fed => fed.getLastD _) fed).flatMap _ =
      outputs (fun xs => xs.getLastD default) _
    rw [outputs_last, outputs_last]
  | succ j ih =>
    obtain ⟨before, hbefore⟩ : ∃ before, ranges[j]? = some before :=
      ⟨_, List.getElem?_eq_getElem (by have := (List.getElem?_eq_some_iff.mp hrange).1; omega)⟩
    have hmem := List.mem_of_getElem? hbefore
    have hstart := ((T.tiles.bounds T.nonempty).2 before hmem).1
    have hstep : (fun fed => v.weights.read (.hidden ((v.part before).plain.hidden fed))) =
        fun fed => last_chunk (stack v.lib v.exp ((v.part before).shard.layers v.weights))
          (fed.map v.weights.read) := funext (read_hidden (v := v.part before) hload)
    have hfused : fused (v.shards ranges) (j + 1) =
        compose (fun fed => .hidden ((v.shards ranges j).hidden fed)) (fused (v.shards ranges) j) :=
      rfl
    rw [(T.tiles.next hbefore).2 range hrange, ← part_layers hstart (le_of_lt (T.nonempty _ hmem)),
      stack_append, outputs_compose, ← ih hbefore, List.flatMap_def, List.flatMap_def]
    rw [hfused, outputs_compose, ← outputs_map, shards_at hbefore, hstep, ← outputs_inputs,
      outputs_chunks]

theorem ranges_pos (T : Tiling v.weights.layers.length ranges) : 0 < ranges.length := by
  rcases ranges with _ | ⟨range, rest⟩
  · exact absurd T.tiles (ne_of_lt T.layers)
  · exact Nat.succ_pos _

/-- The peer that has the whole range has all layers. -/
theorem whole_layers :
    (v.part (0, v.weights.layers.length)).shard.layers v.weights = v.weights.layers := by
  show (v.weights.layers.drop 0).take ((v.weights.layers.length : Int) - 0).toNat = _
  rw [List.drop_zero, Int.sub_zero, Int.toNat_natCast, List.take_length]

/-- The shards in a row are all layers, whatever the split. -/
theorem whole_shards (T : Tiling v.weights.layers.length ranges)
    (hload : ∀ x, v.weights.load (v.weights.store x) = x) (fed : List Rows) :
    whole (v.shards ranges) ranges.length fed = v.pick (v.weights.lm_head (v.weights.norm
      (stack v.lib v.exp v.weights.layers (fed.flatMap v.weights.read)))) := by
  have hpos := ranges_pos T
  obtain ⟨range, hrange⟩ : ∃ range, ranges[ranges.length - 1]? = some range :=
    ⟨_, List.getElem?_eq_getElem (by omega)⟩
  have hmem := List.mem_of_getElem? hrange
  have hstart := ((T.tiles.bounds T.nonempty).2 range hmem).1
  have hstop := (T.tiles.next hrange).1 (by omega)
  have hall : v.weights.layers.take range.1.toNat ++ (v.part range).shard.layers v.weights =
      v.weights.layers := by
    rw [part_layers hstart (le_of_lt (T.nonempty _ hmem)), hstop, Int.toNat_natCast,
      List.take_length]
  have hstack : stack v.lib v.exp v.weights.layers =
      compose (stack v.lib v.exp ((v.part range).shard.layers v.weights))
        (stack v.lib v.exp (v.weights.layers.take range.1.toNat)) := by
    rw [← stack_append, hall]
  unfold whole
  rw [shards_at hrange, hstack]
  show v.pick (v.weights.lm_head (v.weights.norm (stack v.lib v.exp
    ((v.part range).shard.layers v.weights) ((outputs _ fed).flatMap v.weights.read)))) = _
  rw [fused_outputs T hload fed hrange]
  rfl

/-- In any split of the layers of a model into ranges, the shards in a row make the token that the
whole model makes. -/
theorem splits_compute_whole (T : Tiling v.weights.layers.length ranges)
    (hload : ∀ x, v.weights.load (v.weights.store x) = x) :
    whole (v.shards ranges) ranges.length =
      (v.part (0, v.weights.layers.length)).plain.token := by
  funext fed
  rw [whole_shards T hload]
  show _ = v.pick (v.weights.lm_head (v.weights.norm (stack v.lib v.exp
    ((v.part (0, v.weights.layers.length)).shard.layers v.weights) _)))
  rw [whole_layers]
  rfl

/-- One layer on each of two peers. -/
theorem one_layer_each : Tiling small_worker.weights.layers.length [(0, 1), (1, 2)] where
  layers := by decide
  nonempty := by decide
  tiles := ⟨rfl, rfl, rfl⟩

theorem two_small_shards_compute :
    whole (small_worker.shards [(0, 1), (1, 2)]) 2 = (small_worker.part (0, 2)).plain.token :=
  splits_compute_whole one_layer_each fun _ => rfl

/-! ## The pipeline -/

variable (v) in
/-- The next token of plain decoding: all layers, over all tokens so far. -/
def next_token (tokens : List Int) : Int :=
  v.pick (v.weights.lm_head (v.weights.norm
    (stack v.lib v.exp v.weights.layers (v.weights.read (.tokens tokens)))))

/-- The prompt and the tokens behind it are read as one row of tokens. -/
theorem read_feed (w : Weights X K L) (prompt tokens : List Int) :
    (feed prompt tokens).flatMap w.read = w.read (.tokens (prompt ++ tokens)) := by
  have hone : tokens.flatMap (fun token => w.read (.tokens [token])) = w.read (.tokens tokens) :=
    List.map_eq_flatMap.symm
  unfold feed
  rw [List.flatMap_cons, List.flatMap_map, hone]
  exact List.map_append.symm

/-- The shards in a row decode as the plain model does. -/
theorem decode_next_split (T : Tiling v.weights.layers.length ranges)
    (hload : ∀ x, v.weights.load (v.weights.store x) = x) (prompt tokens : List Int) :
    decode_next (whole (v.shards ranges) ranges.length) prompt tokens =
      v.next_token (prompt ++ tokens) := by
  unfold decode_next next_token
  rw [whole_shards T hload, read_feed]

/-- What came out of a pass for a request, on the last peer or on another one. -/
def made_in (is_last_shard : Bool) (x : Passed) : Made :=
  if is_last_shard then .token x.token else .hidden_states x.output

/-- What the peers did for a request is what their parts of the model did for it, each one in a run
of its own. -/
def Ran (v : Worker X K L) (ranges : List (Int × Int)) (p : Pipeline) (id : String) : Prop :=
  ∀ (j : Nat) (range : Int × Int), ranges[j]? = some range →
    ∃ (config : Config) (caches : List (Caches K)) (turns : List (Turn K (v.part range).peer)),
      config.needs_blocks = true ∧
      caches.length = ((v.part range).shard.layers v.weights).length ∧
      let s := (Memory.init config caches).run (v.part range) turns
      s.fed id = p.inputs j id ∧
        s.made id = (p.passed_at j id).map (made_in (v.part range).shard.is_last_shard)

section ran

variable [IsStrictOrderedRing K] {c : Setup} {p p₀ : Pipeline} {id : String}

theorem Lawful.part (h : (v.part (0, v.weights.layers.length)).Lawful) (range : Int × Int) :
    (v.part range).Lawful := by
  have hmem : ∀ block ∈ (v.part range).shard.layers v.weights,
      block ∈ (v.part (0, v.weights.layers.length)).shard.layers v.weights := by
    intro block hblock
    rw [whole_layers]
    exact List.mem_of_mem_drop (List.mem_of_mem_take hblock)
  exact ⟨h.rotates, h.attends, fun block hblock => h.head_dim block (hmem block hblock),
    fun block hblock => h.groups block (hmem block hblock)⟩

/-- What came out of the passes of a peer is what its part makes of what it was fed. -/
theorem Ran.made (h : Ran v ranges p id) (hlawful : (v.part (0, v.weights.layers.length)).Lawful)
    (hrange : ranges[j]? = some range) :
    (p.passed_at j id).map (made_in (v.part range).shard.is_last_shard) =
      outputs (v.part range).makes (p.inputs j id) := by
  obtain ⟨config, caches, turns, hb, hcaches, hfed, hmade⟩ := h j range hrange
  rw [← hmade, ← hfed]
  exact ((Sound.start hb hcaches).run hb (hlawful.part range) turns).made id

theorem Ran.computes (h : Ran v ranges p id) (T : Tiling v.weights.layers.length ranges)
    (hlawful : (v.part (0, v.weights.layers.length)).Lawful) :
    Computes (v.shards ranges) ranges.length p id where
  hidden := by
    intro j hj
    obtain ⟨range, hrange⟩ : ∃ range, ranges[j]? = some range :=
      ⟨_, List.getElem?_eq_getElem (by omega)⟩
    obtain ⟨behind, hbehind⟩ : ∃ behind, ranges[j + 1]? = some behind :=
      ⟨_, List.getElem?_eq_getElem hj⟩
    have hlast : (v.part range).shard.is_last_shard = false := by
      have hmem := List.mem_of_getElem? hbehind
      have hstart := (T.tiles.next hrange).2 behind hbehind
      have hlt := T.nonempty behind hmem
      have hle := ((T.tiles.bounds T.nonempty).2 behind hmem).2
      exact decide_eq_false (by omega)
    have hmade := h.made hlawful hrange
    have hmakes : (v.part range).makes =
        fun fed => .hidden_states ((v.part range).plain.hidden fed) := by
      funext fed
      unfold makes
      rw [hlast]
      rfl
    rw [hlast, hmakes, outputs_map] at hmade
    rw [shards_at hrange]
    refine List.map_injective_iff.mpr (fun _ _ heq => Made.hidden_states.inj heq)
      (Eq.trans ?_ hmade)
    rw [List.map_map]
    rfl
  token := by
    have hpos := ranges_pos T
    obtain ⟨range, hrange⟩ : ∃ range, ranges[ranges.length - 1]? = some range :=
      ⟨_, List.getElem?_eq_getElem (by omega)⟩
    have hlast : (v.part range).shard.is_last_shard = true :=
      decide_eq_true ((T.tiles.next hrange).1 (by omega))
    have hmade := h.made hlawful hrange
    have hmakes : (v.part range).makes = fun fed => .token ((v.part range).plain.token fed) := by
      funext fed
      unfold makes
      rw [hlast]
      rfl
    rw [hlast, hmakes, outputs_map] at hmade
    rw [shards_at hrange]
    refine List.map_injective_iff.mpr (fun _ _ heq => Made.token.inj heq) (Eq.trans ?_ hmade)
    rw [List.map_map]
    rfl

end ran

/-- Attention that adds nothing. -/
noncomputable def blind_projections : Projections ℤ ℝ where
  n_heads := 1
  n_kv_heads := 1
  head_dim := 1
  scale := 1
  q_proj x _ := x
  k_proj x _ := x
  v_proj x _ := x
  o_proj _ := 0

noncomputable def doubling_block : Block ℤ ℝ where
  self_attn := blind_projections.llama_attention
  input_layernorm x := x
  post_attention_layernorm x := x
  mlp x := x

noncomputable def doubling_weights : Weights ℤ ℝ ℤ where
  embed_tokens token_id := token_id
  layers := [doubling_block, doubling_block]
  norm x := x
  lm_head x := x
  load row := (row.headD 0).num
  store x := [x]

/-- A single node with both layers. -/
noncomputable def doubling_worker : Worker ℤ ℝ ℤ where
  shard := .init 2 0 2
  weights := doubling_weights
  lib := real_library
  exp := real_exp
  pick logits := logits
  dtype := .float32
  pad_token_id := 0

def doubling_pass : ForwardPass := { one_pass with tokens := fun _ => 28 }

/-- The node has made the first token for five tokens `7`. -/
noncomputable def doubled : Pipeline :=
  node_entered.after_batch 1 0
    (stateOf (process_batch exact_setup 0 ⟨.ok doubling_pass, .ok doubling_pass⟩ entered_node))

theorem doubled_run : PipelineRun exact_setup 1 one_node doubled :=
  .step node_entered_run (.batch 0 ⟨.ok doubling_pass, .ok doubling_pass⟩ (by decide)
    (ok_of_returned (by decide +kernel)))

theorem doubling_worker_lawful : (doubling_worker.part (0, 2)).Lawful where
  rotates := real_library_rotates
  attends := real_library_attends
  head_dim block hblock := by
    obtain rfl : block = doubling_block := by simpa [part, doubling_worker, ShardedModel.layers,
      ShardedModel.init, doubling_weights] using hblock
    decide
  groups block hblock := by
    obtain rfl : block = doubling_block := by simpa [part, doubling_worker, ShardedModel.layers,
      ShardedModel.init, doubling_weights] using hblock
    decide

def five_sevens : PrefillBatch (doubling_worker.part (0, 2)).peer where
  requests := [cut_request]
  distinct := by decide
  whole := by
    intro req hreq
    obtain rfl := List.mem_singleton.mp hreq
    exact ⟨.tokens (List.replicate 5 7), rfl, rfl, by decide⟩

theorem doubled_ran : Ran doubling_worker [(0, 2)] doubled "a" := by
  intro j range hrange
  obtain ⟨rfl, rfl⟩ : j = 0 ∧ range = (0, 2) := by
    rcases j with _ | j
    · exact ⟨rfl, (Option.some.inj hrange).symm⟩
    · cases hrange
  have hs : (doubling_worker.part (0, 2)).Sound hybrid (Memory.init hybrid empty_caches) :=
    Sound.start rfl rfl
  obtain ⟨inputs, m, hprep⟩ : ∃ inputs m, prepare_prefill_batch (doubling_worker.part (0, 2)).peer
      five_sevens.requests (Memory.init hybrid empty_caches).manager = .ok (some inputs) m :=
    ⟨_, _, rfl⟩
  obtain ⟨⟨caches, out, hcall⟩, _⟩ :=
    hs.prefill (show hybrid.needs_blocks = true from rfl) doubling_worker_lawful in_order hprep
  have hfed : ((Memory.init hybrid empty_caches).run (doubling_worker.part (0, 2))
      [.prefill five_sevens in_order]).fed "a" = [.tokens (List.replicate 5 7)] := by
    unfold Memory.run Memory.fed
    rw [List.foldl_cons, List.foldl_nil]
    unfold Memory.step
    dsimp only
    rw [hprep]
    dsimp only
    rw [hcall, log_of_place (show Machine.place five_sevens.toBatch "a" = some (0, cut_request)
      from rfl)]
    rfl
  have hmade := (hs.run (show hybrid.needs_blocks = true from rfl) doubling_worker_lawful
    [.prefill five_sevens in_order]).made "a"
  rw [hfed] at hmade
  refine ⟨hybrid, empty_caches, [.prefill five_sevens in_order], rfl, rfl, ?_, ?_⟩
  · rw [hfed]
    exact (show doubled.inputs 0 "a" = [.tokens (List.replicate 5 7)] by decide +kernel).symm
  · rw [hmade]
    exact (show (doubled.passed_at 0 "a").map (made_in true) = [.token 28] by decide +kernel).symm

theorem both_layers : Tiling doubling_worker.weights.layers.length [(0, 2)] where
  layers := by decide
  nonempty := by decide
  tiles := ⟨rfl, rfl⟩

end Worker

end parallax.server.model
