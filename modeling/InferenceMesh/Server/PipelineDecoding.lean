-- A pipeline decodes as one node does. When the model of each peer is a function of
-- what it was fed for a request, the tokens of the request are those of all shards
-- in a row, fed with the prompt and then with each token. So they do not depend on
-- the peers, on the batches, on the other requests or on the order of events.
import InferenceMesh.Lib.CausalStages
import InferenceMesh.Server.StepAgreement

open ordered_dict python state_exn causal_stages
open parallax.server.cache_manager parallax.server.mlx_executor parallax.server.request
open parallax.server.scheduler
open parallax.p2p.message_util

namespace parallax.server.executor

variable {c : Setup} {k i j : Nat} {id : String} {P made : List Int} {d : Nat → Nat}
  {p p₀ : Pipeline}

/-! ## The model -/

/-- The part of the model that a peer has. With its caches it is a function of all that it was fed
for a request. The last peer makes a token of it, each other one hidden states. -/
structure Shard where
  hidden : List Rows → Tensor
  token : List Rows → Int

/-- The input of a request in a batch, as the batch of its kind is prepared. -/
def Passed.input (is_first_peer : Bool) (x : Passed) : Option Rows :=
  rows_of ⟨is_first_peer, false, 0⟩
    (if x.request.is_prefill then x.request.input_ids else [x.request.output_ids.getLastD 0])
    x.request

/-- What peer `j` was fed for a request, step by step. -/
def Pipeline.inputs (p : Pipeline) (j : Nat) (id : String) : List Rows :=
  (p.passed_at j id).filterMap (Passed.input (decide (j = 0)))

/-- The forward passes of a request are those of the shards. -/
structure Computes (shards : Nat → Shard) (k : Nat) (p : Pipeline) (id : String) : Prop where
  hidden : ∀ j, j + 1 < k →
    (p.passed_at j id).map Passed.output = outputs (shards j).hidden (p.inputs j id)
  token : (p.passed_at (k - 1) id).map Passed.token =
    outputs (shards (k - 1)).token (p.inputs (k - 1) id)

/-! ## A single node -/

/-- What peer `j` is fed, as a function of what the first peer was fed. -/
def fused (shards : Nat → Shard) : Nat → List Rows → Rows
  | 0 => fun xs => xs.getLastD (.tokens [])
  | j + 1 => compose (fun xs => .hidden ((shards j).hidden xs)) (fused shards j)

/-- The whole model: the shards of all peers in a row. -/
def whole (shards : Nat → Shard) (k : Nat) : List Rows → Int :=
  compose (shards (k - 1)).token (fused shards (k - 1))

/-- What a node is fed for a request: its prompt, and then each token that it has made. -/
def feed (prompt tokens : List Int) : List Rows :=
  .tokens prompt :: tokens.map (fun token => .tokens [token])

/-- The next token of a node with the whole model. -/
def decode_next (model : List Rows → Int) (prompt tokens : List Int) : Int :=
  model (feed prompt tokens)

theorem feed_take (prompt tokens : List Int) (t : Nat) :
    (feed prompt tokens).take (t + 1) = feed prompt (tokens.take t) := by
  unfold feed
  rw [List.take_succ_cons, List.map_take]

theorem feed_getElem?_succ (prompt tokens : List Int) (t : Nat) :
    (feed prompt tokens)[t + 1]? = tokens[t]?.map (fun token => .tokens [token]) := by
  unfold feed
  rw [List.getElem?_cons_succ, List.getElem?_map]

/-! ## The inputs of the peers -/

/-- The inputs of a peer, when each of its requests has one. -/
theorem inputs_of {xs : List Rows}
    (h : (p.passed_at j id).map (Passed.input (decide (j = 0))) = xs.map some) :
    p.inputs j id = xs := by
  have hall := congrArg (List.filterMap (fun x => x)) h
  rw [List.filterMap_map, List.filterMap_map] at hall
  unfold Pipeline.inputs
  rw [show (Passed.input (decide (j = 0))) = (fun x => x) ∘ Passed.input (decide (j = 0)) from rfl,
    hall]
  exact List.filterMap_some

/-- The first peer is fed with the prompt and then with the tokens that came back to it. -/
theorem Logged.inputs_first (hk : 0 < k) (h : Logged k p id P d made)
    (hround : d 0 ≤ made.length + 1) : p.inputs 0 id = (feed P made).take (d 0) := by
  have hlength := h.passed_length hk
  refine inputs_of (List.ext_getElem? fun t => ?_)
  rw [List.getElem?_map, List.getElem?_map]
  cases hx : (p.passed_at 0 id)[t]? with
  | none =>
    have hle := List.getElem?_eq_none_iff.mp hx
    rw [List.getElem?_eq_none (by rw [List.length_take]; omega)]
    rfl
  | some x =>
    have hlt := (List.getElem?_eq_some_iff.mp hx).1
    rw [hlength] at hlt
    obtain ⟨hprefill, hids, houtput⟩ := h.prompts t x hx
    rw [List.getElem?_take_of_lt hlt, Option.map_some]
    unfold Passed.input rows_of
    rw [hprefill, hids, houtput]
    cases t with
    | zero => rfl
    | succ t =>
      have ht : t < made.length := by omega
      rw [feed_getElem?_succ, List.getElem?_eq_getElem ht, List.take_succ_eq_append_getElem ht,
        List.getLastD_concat]
      rfl

/-- No peer is ahead of the one before it. -/
theorem Logged.behind (h : Logged k p id P d made) (hj : j + 1 < k) : d (j + 1) ≤ d j := by
  have hlength := h.passed_length hj
  have hlength' := h.passed_length (show j < k by omega)
  by_contra hlt
  have hd : d j < (p.passed_at (j + 1) id).length := by omega
  obtain ⟨y, hy, _⟩ := h.chained j hj _ _ (List.getElem?_eq_getElem hd)
  have hbound := (List.getElem?_eq_some_iff.mp hy).1
  omega

/-- Each other peer is fed with what came out of the one before it. -/
theorem Logged.inputs_next (h : Logged k p id P d made) (hj : j + 1 < k) :
    p.inputs (j + 1) id = (((p.passed_at j id).map Passed.output).map Rows.hidden).take
      (d (j + 1)) := by
  have hlength := h.passed_length hj
  have hlength' := h.passed_length (show j < k by omega)
  have hbehind := h.behind hj
  refine inputs_of (List.ext_getElem? fun t => ?_)
  rw [List.getElem?_map, List.getElem?_map]
  cases hx : (p.passed_at (j + 1) id)[t]? with
  | none =>
    have hle := List.getElem?_eq_none_iff.mp hx
    rw [List.getElem?_eq_none (by rw [List.length_take]; omega)]
    rfl
  | some x =>
    have hlt := (List.getElem?_eq_some_iff.mp hx).1
    rw [hlength] at hlt
    obtain ⟨y, hy, hhidden⟩ := h.chained j hj t x hx
    rw [List.getElem?_take_of_lt hlt, List.getElem?_map, List.getElem?_map, hy]
    rw [Option.map_some, Option.map_some, Option.map_some, Option.map_some]
    unfold Passed.input rows_of
    rw [decide_eq_false (Nat.succ_ne_zero j), hhidden]
    rfl

/-- What each peer was fed follows from what the first peer was fed. -/
theorem Logged.inputs_fused {shards : Nat → Shard} (h : Logged k p id P d made)
    (hcomputes : Computes shards k p id) (hround : d 0 ≤ made.length + 1) (hj : j < k) :
    p.inputs j id = (outputs (fused shards j) (feed P made)).take (d j) := by
  induction j with
  | zero =>
    unfold fused
    rw [outputs_last]
    exact h.inputs_first hj hround
  | succ j ih =>
    have hbehind := h.behind hj
    unfold fused
    rw [h.inputs_next hj, hcomputes.hidden j hj, ← outputs_map, ih (by omega), outputs_compose,
      outputs_take, List.take_take, Nat.min_eq_left hbehind]

/-- The tokens of a request are those that a single node with the whole model makes. -/
theorem Logged.decodes {shards : Nat → Shard} (hk : 0 < k) (h : Logged k p id P d made)
    (hcomputes : Computes shards k p id) (hround : d 0 ≤ made.length + 1) :
    made = unroll (decode_next (whole shards k) P) made.length := by
  have hlast : k - 1 < k := by omega
  have hmade : made = (outputs (whole shards k) (feed P made)).take (d (k - 1)) := by
    unfold whole
    calc made = (p.passed_at (k - 1) id).map Passed.token := h.produced.symm
      _ = outputs (shards (k - 1)).token (p.inputs (k - 1) id) := hcomputes.token
      _ = _ := by rw [h.inputs_fused hcomputes hround hlast, outputs_take, outputs_compose]
  refine eq_unroll fun t token htoken => ?_
  have ht := (List.getElem?_eq_some_iff.mp htoken).1
  have hfeed : t < (feed P made).length := by
    unfold feed
    rw [List.length_cons, List.length_map]
    omega
  rw [hmade] at htoken
  have hd : t < d (k - 1) := by
    have hbound := (List.getElem?_eq_some_iff.mp htoken).1
    rw [List.length_take] at hbound
    omega
  rw [List.getElem?_take_of_lt hd, outputs_getElem? hfeed, feed_take] at htoken
  cases htoken
  rfl

/-! ## Runs -/

/-- The first peer is not two steps ahead of the tokens that were made. -/
theorem Logged.round (hk : 0 < k) (h : Logged k p id P d made) (hnear : d 0 ≤ d (k - 1) + 1) :
    d 0 ≤ made.length + 1 := by
  have hlength := h.passed_length (show k - 1 < k by omega)
  have hproduced := congrArg List.length h.produced
  unfold Pipeline.produced at hproduced
  rw [List.length_map] at hproduced
  omega

/-- The history of a request that came from a client, with its own prompt. -/
theorem Traced.history {prompt : List Int} (hk : 0 < k) (h : Traced c k p id)
    (hprompt : p.prompts id = some prompt) :
    ∃ d, d 0 ≤ ((p.peers 0).committed id ++ p.tokens_back id).length + 1 ∧
      Logged k p id prompt d ((p.peers 0).committed id ++ p.tokens_back id) := by
  obtain ⟨P, d, hP, hd, hlogged⟩ := h.logged hk
  rw [hprompt] at hP
  rcases hP with hP | hP
  · cases hP
  · cases hP
    exact ⟨d, hlogged.round hk (hd (k - 1) (by omega)).2, hlogged⟩

/-- In every run, the tokens of a request that were committed or are on their way back are those
that a single node with the whole model makes for its prompt, and each peer was fed with what the
shards before it make of the inputs of that node. -/
theorem pipeline_decodes {shards : Nat → Shard} {prompt : List Int} (hk : 0 < k)
    (hw : c.wire.Lawful) (hstart : Starts k p₀) (hrun : PipelineRun c k p₀ p)
    (hprompt : p.prompts id = some prompt) (hcomputes : Computes shards k p id) :
    (p.peers 0).committed id ++ p.tokens_back id =
        unroll (decode_next (whole shards k) prompt)
          ((p.peers 0).committed id ++ p.tokens_back id).length ∧
      ∀ j < k, p.inputs j id <+: outputs (fused shards j)
        (feed prompt ((p.peers 0).committed id ++ p.tokens_back id)) := by
  obtain ⟨d, hround, hlogged⟩ := ((hrun.sound hw hk hstart).traced id).history hk hprompt
  refine ⟨hlogged.decodes hk hcomputes hround, fun j hj => ?_⟩
  rw [hlogged.inputs_fused hcomputes hround hj]
  exact List.take_prefix ..

/-- A single node that has just been started. -/
def one_node : Pipeline where
  peers i := { short_sequences with
    is_first_peer := decide (i = 0)
    is_last_peer := decide (i + 1 = 1)
    scheduler := .init 8 64 2 (decide (i = 0)) (some (small_cache 8)) 600 (some (.one 2)) none }
  forwards _ := []
  aborts _ := []
  prompts _ := none
  passed _ := []
  evicted := []

theorem one_node_start : Starts 1 one_node where
  peers i _ := ⟨rfl, rfl, rfl, fun _ => by simp [one_node, Scheduler.init], rfl, rfl,
    ⟨_, List.cons_ne_nil _ _, rfl⟩, rfl, rfl⟩
  forwards _ := rfl
  aborts _ := rfl
  prompts _ := rfl
  passed _ := rfl
  evicted := rfl

/-- The single node with the request in its queue. -/
def entered_node : Executor := stateOf (handle_input_requests 0 [cut_request] (one_node.peers 0))

def node_entered : Pipeline :=
  { one_node.with_peer 0 entered_node with
    prompts := Function.update one_node.prompts "a" (some cut_request.input_ids) }

/-- What the first batch of the single node has done. -/
noncomputable def node_batch : Batch :=
  stateOf (process_batch exact_setup 0 ⟨.ok one_pass, .ok one_pass⟩ entered_node)

/-- The single node has made the first token. -/
noncomputable def node_decoded : Pipeline := node_entered.after_batch 1 0 node_batch

theorem node_entered_run : PipelineRun exact_setup 1 one_node node_entered := by
  have hraw : handle_raw_request (one_node.peers 0).max_sequence_length long_raw_request =
      .ok cut_request := rfl
  exact .step .start (.submit 0 long_raw_request hraw (by decide) rfl
    (ok_of_returned (by decide +kernel)))

theorem node_decoded_run : PipelineRun exact_setup 1 one_node node_decoded :=
  .step node_entered_run (.batch 0 ⟨.ok one_pass, .ok one_pass⟩ (by decide)
    (ok_of_returned (by decide +kernel)))

/-- A shard that always makes the same. -/
def same_shard : Shard := ⟨fun _ => [[1]], fun _ => 5⟩

theorem node_computes : Computes (fun _ => same_shard) 1 node_decoded "a" where
  hidden j hj := by omega
  token := by decide +kernel

theorem node_decodes :
    (node_decoded.peers 0).committed "a" ++ node_decoded.tokens_back "a" =
        unroll (decode_next (whole (fun _ => same_shard) 1) cut_request.input_ids)
          ((node_decoded.peers 0).committed "a" ++ node_decoded.tokens_back "a").length ∧
      ∀ j < 1, node_decoded.inputs j "a" <+: outputs (fused (fun _ => same_shard) j)
        (feed cut_request.input_ids
          ((node_decoded.peers 0).committed "a" ++ node_decoded.tokens_back "a")) :=
  pipeline_decodes (by decide) exact_wire_lawful one_node_start node_decoded_run rfl node_computes

/-- Two pipelines that split the same model get the same tokens for the same prompt, as far as both
have come: the tokens do not depend on the split, the batches, the other requests or the order of
events. -/
theorem splits_agree {c' : Setup} {k' : Nat} {id' : String} {p' p₀' : Pipeline}
    {shards shards' : Nat → Shard} {prompt : List Int} (hk : 0 < k) (hk' : 0 < k')
    (hw : c.wire.Lawful) (hw' : c'.wire.Lawful) (hstart : Starts k p₀) (hstart' : Starts k' p₀')
    (hrun : PipelineRun c k p₀ p) (hrun' : PipelineRun c' k' p₀' p')
    (hprompt : p.prompts id = some prompt) (hprompt' : p'.prompts id' = some prompt)
    (hcomputes : Computes shards k p id) (hcomputes' : Computes shards' k' p' id')
    (hsplit : whole shards k = whole shards' k') :
    (p.peers 0).committed id <+: (p'.peers 0).committed id' ∨
      (p'.peers 0).committed id' <+: (p.peers 0).committed id := by
  obtain ⟨d, hround, hlogged⟩ := ((hrun.sound hw hk hstart).traced id).history hk hprompt
  obtain ⟨d', hround', hlogged'⟩ := ((hrun'.sound hw' hk' hstart').traced id').history hk' hprompt'
  have hmade := hlogged.decodes hk hcomputes hround
  have hmade' := hlogged'.decodes hk' hcomputes' hround'
  rw [← hsplit] at hmade'
  have hstarts := List.prefix_append ((p.peers 0).committed id) (p.tokens_back id)
  have hstarts' := List.prefix_append ((p'.peers 0).committed id') (p'.tokens_back id')
  rw [hmade] at hstarts
  rw [hmade'] at hstarts'
  rcases Nat.le_total ((p.peers 0).committed id ++ p.tokens_back id).length
    ((p'.peers 0).committed id' ++ p'.tokens_back id').length with hle | hle
  · exact List.prefix_or_prefix_of_prefix (hstarts.trans (unroll_starts _ hle)) hstarts'
  · exact List.prefix_or_prefix_of_prefix hstarts (hstarts'.trans (unroll_starts _ hle))

theorem two_peers_compute :
    Computes (fun _ => same_shard) 2 (entered.after_batch 2 0 first_batch) "a" where
  hidden j hj := by
    have hj0 : j = 0 := by omega
    subst hj0
    decide +kernel
  token := by decide +kernel

/-- Two peers that have made the first half of a step, and a single node that has made it. -/
theorem two_peers_like_one :
    ((entered.after_batch 2 0 first_batch).peers 0).committed "a" <+:
        (node_decoded.peers 0).committed "a" ∨
      (node_decoded.peers 0).committed "a" <+:
        ((entered.after_batch 2 0 first_batch).peers 0).committed "a" :=
  splits_agree (by decide) (by decide) exact_wire_lawful exact_wire_lawful two_peers_start
    one_node_start two_peers_batch_run node_decoded_run rfl rfl two_peers_compute node_computes rfl

end parallax.server.executor
