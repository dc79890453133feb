-- A shard over whole runs: batches of prefills and decodes go through its layers,
-- while requests come, grow and go. Its layers have one cache each, and the inputs of
-- a layer are the outputs of the one before it.
import InferenceMesh.Models.CausalBlocks
import InferenceMesh.Server.PipelineDecoding
import InferenceMesh.Server.ShardedModel

open ordered_dict python state_exn online_softmax causal_stages parallax.metal.paged_attention mlx
open parallax.models.dense parallax.utils parallax.server.cache_manager
open parallax.server.mlx_executor parallax.server.request
open CacheManager
open parallax.server.executor (Shard request_of)

namespace parallax.server.model

set_option linter.unusedSectionVars false

variable {X K L : Type} [Field K] [LinearOrder K] [Add X] [Inhabited X]

/-! ## The shard as a function -/

/-- Blocks in a row, as one stage. -/
def stack (lib : Library K) (e : Exp K) : List (Block X K) → List X → X
  | [] => fun xs => xs.getLastD default
  | block :: blocks => compose (stack lib e blocks) (block.stage lib e)

/-- A peer with its part of the model. -/
structure Worker (X K L : Type) [Field K] [LinearOrder K] where
  shard : ShardedModel
  weights : Weights X K L
  lib : Library K
  exp : Exp K
  pick : L → Int
  dtype : Dtype
  pad_token_id : Int

namespace Worker

variable (v : Worker X K L)

def peer : Peer := ⟨v.shard.is_first_shard, v.shard.is_last_shard, v.pad_token_id⟩

/-- What the layers of the peer make of the last row that a request was fed. -/
def last_row (fed : List Rows) : X :=
  stack v.lib v.exp (v.shard.layers v.weights) (fed.flatMap v.weights.read)

/-- The part of the model as a function of all that it was fed for a request. -/
def plain : Shard where
  hidden fed := ((outputs (stack v.lib v.exp (v.shard.layers v.weights))
    (fed.flatMap v.weights.read)).rtake (fed.getLastD (.tokens [])).len).map v.weights.store
  token fed := v.pick (v.weights.lm_head (v.weights.norm (v.last_row fed)))

/-- What the peer makes for a request in the last of its steps. -/
def makes (fed : List Rows) : Made :=
  if v.shard.is_last_shard then .token (v.plain.token fed) else .hidden_states (v.plain.hidden fed)

/-- The functions of MLX are as documented, and the kernel has room for the heads. -/
structure Lawful : Prop where
  rotates : RotatesByPosition v.lib
  attends : AttendsWithMask v.lib v.exp
  head_dim : ∀ block ∈ v.shard.layers v.weights, block.self_attn.head_dim ≤ 256
  groups : ∀ block ∈ v.shard.layers v.weights,
    block.self_attn.n_kv_heads ∣ block.self_attn.n_heads

end Worker

/-! ## Runs -/

/-- The requests of a prefill come with all their rows. -/
structure PrefillBatch (peer : Peer) extends Batch where
  whole : ∀ req ∈ requests, ∃ x, rows_of peer req.input_ids req = some x ∧
    x.len = req.total_length ∧ 0 < x.len

/-- The requests of a decode come with one row each. -/
structure DecodeBatch (peer : Peer) extends Batch where
  single : ∀ req ∈ requests, ∃ x, rows_of peer [req.output_ids.getLastD 0] req = some x ∧ x.len = 1

/-- One step of a peer: a call on the cache manager, or a batch that goes through the model. -/
inductive Turn (K : Type) (peer : Peer) where
  | call (c : parallax.server.cache_manager.Call)
  | prefill (batch : PrefillBatch peer) (threads : Nat → Threads K)
  | decode (batch : DecodeBatch peer) (threads : Nat → Threads K)

/-- The memory of a peer. `log` is kept for the statement only: what a request was fed and what came
out, step by step since its prefill. A request whose batch was not prepared, or that a call was made
for, has none. -/
structure Memory (K : Type) where
  manager : CacheManager
  caches : List (Caches K)
  log : String → List (Rows × Made)

namespace Memory

variable (v : Worker X K L) (s : Memory K)

def fed (id : String) : List Rows := (s.log id).map Prod.fst

def made (id : String) : List Made := (s.log id).map Prod.snd

def forget (batch : Batch) (id : String) : List (Rows × Made) :=
  if id ∈ batch.requests.map Request.request_id then [] else s.log id

/-- The state after a batch went through the model. -/
def after_call (m : CacheManager) (batch : Batch)
    (result : List (Caches K) × Except Exn (Nat → Nat → X ⊕ L))
    (entries : (Nat → Nat → X ⊕ L) → Nat → Request → List (Rows × Made)) : Memory K :=
  match result.2 with
  | .error _ => ⟨m, result.1, s.forget batch⟩
  | .ok out => ⟨m, result.1, fun id =>
      match Machine.place batch id with
      | none => s.log id
      | some (i, req) => entries out i req⟩

/-- A request whose prefill found no memory of its own starts a log. -/
def prefill_entries (inputs : BatchInputs) (out : Nat → Nat → X ⊕ L) (i : Nat) (req : Request) :
    List (Rows × Made) :=
  match s.manager.context_lengths.get? req.request_id, rows_of v.peer req.input_ids req with
  | none, some x => [(x, made_of v.weights v.pick inputs out i req)]
  | _, _ => []

/-- A request with a log goes on with it. -/
def decode_entries (inputs : BatchInputs) (out : Nat → Nat → X ⊕ L) (i : Nat) (req : Request) :
    List (Rows × Made) :=
  match s.log req.request_id, rows_of v.peer [req.output_ids.getLastD 0] req with
  | entry :: rest, some x => entry :: rest ++ [(x, made_of v.weights v.pick inputs out i req)]
  | _, _ => []

/-- The call of the model for a prefill batch. -/
def prefill_call (batch : Batch) (threads : Nat → Threads K) (m : CacheManager)
    (inputs : BatchInputs) : List (Caches K) × Except Exn (Nat → Nat → X ⊕ L) :=
  v.shard.call v.weights v.lib v.exp threads inputs m.block_size
    (mask_of v.dtype v.peer batch.requests) s.caches

/-- The call of the model for a decode batch. -/
def decode_call (threads : Nat → Threads K) (m : CacheManager) (inputs : BatchInputs) :
    List (Caches K) × Except Exn (Nat → Nat → X ⊕ L) :=
  v.shard.call v.weights v.lib v.exp threads inputs m.block_size none s.caches

def step : Turn K v.peer → Memory K
  | .call c =>
    { s with manager := s.manager.after c, log := Function.update s.log (request_of c) [] }
  | .prefill batch threads =>
    match prepare_prefill_batch v.peer batch.requests s.manager with
    | .ok (some inputs) m =>
      s.after_call m batch.toBatch (s.prefill_call v batch.toBatch threads m inputs)
        (s.prefill_entries v inputs)
    | .ok none m => { s with manager := m }
    | .error _ m => { s with manager := m, log := s.forget batch.toBatch }
  | .decode batch threads =>
    match prepare_decode_batch v.peer batch.requests s.manager with
    | .ok (some inputs) m =>
      s.after_call m batch.toBatch (s.decode_call v threads m inputs) (s.decode_entries v inputs)
    | .ok none m => { s with manager := m }
    | .error _ m => { s with manager := m, log := s.forget batch.toBatch }

def run (turns : List (Turn K v.peer)) : Memory K := turns.foldl (step v) s

/-- The memory of a peer that has just been started. -/
def init (c : Config) (caches : List (Caches K)) : Memory K := ⟨.init c, caches, fun _ => []⟩

end Memory

/-! ## The caches of all layers -/

section layers

variable {lib : Library K} {e : Exp K} {blocks : List (Block X K)} {block_size : Nat}
  {m m' : CacheManager} {caches : List (Caches K)} {hist hist' : String → List X}

/-- The cache of each layer has the keys and values of the inputs of the layer, which are the
outputs of the one before it. -/
def Held (lib : Library K) (e : Exp K) (block_size : Nat) (m : CacheManager) :
    List (Block X K) → List (Caches K) → (String → List X) → Prop
  | [], _, _ => True
  | _ :: _, [], _ => False
  | block :: blocks, cache :: caches, hist =>
    Coherent (block.self_attn.shape block_size) m cache (block.held lib hist) ∧
      Held lib e block_size m blocks caches (fun id => outputs (block.stage lib e) (hist id))

/-- Nothing is known before the first batch. -/
theorem Held.start (hlength : caches.length = blocks.length) :
    Held lib e block_size m blocks caches (fun _ => []) := by
  induction blocks generalizing caches with
  | nil => trivial
  | cons block blocks ih =>
    cases caches with
    | nil => cases hlength
    | cons cache caches =>
      refine ⟨fun id p kv hkv => ?_, ih (Nat.succ.inj hlength)⟩
      cases hkv

/-- A request stays in the caches while its blocks stay, and it may be forgotten. -/
theorem Held.keeps (h : Held lib e block_size m blocks caches hist)
    (hkeep : ∀ id, hist' id = [] ∨ hist' id = hist id ∧ Grows id m m') :
    Held lib e block_size m' blocks caches hist' := by
  induction blocks generalizing caches hist hist' with
  | nil => trivial
  | cons block blocks ih =>
    cases caches with
    | nil => exact h.elim
    | cons cache caches =>
      obtain ⟨hcoherent, hrest⟩ := h
      refine ⟨fun id p kv hkv => ?_, ih hrest fun id => ?_⟩
      · rcases hkeep id with hnil | ⟨hsame, hgrows⟩
        · unfold Block.held at hkv
          rw [hnil] at hkv
          cases hkv
        · unfold Block.held at hkv
          rw [hsame] at hkv
          obtain ⟨s, hs, hcells⟩ := hcoherent id p kv hkv
          exact ⟨s, hgrows.slot_of hs, hcells⟩
      · rcases hkeep id with hnil | ⟨hsame, hgrows⟩
        · exact Or.inl (by rw [hnil]; rfl)
        · exact Or.inr ⟨by rw [hsame], hgrows⟩

variable [IsStrictOrderedRing K] {spans : List Span} {c : Call X K}

/-- The layers give each row of a batch what the plain layers give it, and keep it. -/
theorem run_layers.spec (threads : Nat → Threads K) (hplaced : Placed m spans c)
    (hm : BlocksOwned m) (hrope : RotatesByPosition lib) (hattend : AttendsWithMask lib e)
    (hd : ∀ block ∈ blocks, block.self_attn.head_dim ≤ 256)
    (hgroup : ∀ block ∈ blocks, block.self_attn.n_kv_heads ∣ block.self_attn.n_heads)
    (hheld : Held lib e c.block_size m blocks caches hist) (hgrown : Grown spans hist hist' c.x) :
    ∃ caches' out, run_layers lib e blocks threads caches c = (caches', .ok out) ∧
      Held lib e c.block_size m blocks caches' hist' ∧
      Grown spans (fun id => outputs (stack lib e blocks) (hist id))
        (fun id => outputs (stack lib e blocks) (hist' id)) out := by
  induction blocks generalizing threads caches hist hist' c with
  | nil =>
    refine ⟨caches, c.x, rfl, trivial, ?_⟩
    simp only [stack, outputs_last]
    exact hgrown
  | cons block blocks ih =>
    cases caches with
    | nil => exact hheld.elim
    | cons cache caches =>
      obtain ⟨hcoherent, hrest⟩ := hheld
      obtain ⟨hd₁, hd₂⟩ := List.forall_mem_cons.mp hd
      obtain ⟨hgroup₁, hgroup₂⟩ := List.forall_mem_cons.mp hgroup
      have hfirst : Placed m spans { c with
          caches := cache
          store_order := (threads 0).store_order
          attend_order := (threads 0).attend_order
          unwritten := (threads 0).unwritten } :=
        hplaced.relaunch _ _ _ _ _
      obtain ⟨cache', out, hforward, hcoherent', hgrown'⟩ :=
        block.forward_spec hfirst hm hrope hattend hd₁ hgroup₁ hgrown hcoherent
      have hnext : Placed m spans { c with x := out } :=
        hplaced.relaunch _ _ _ _ _
      obtain ⟨caches', out', hrun, hheld', hgrown''⟩ :=
        ih (fun l => threads (l + 1)) hnext hd₂ hgroup₂ hrest hgrown'
      refine ⟨cache' :: caches', out', ?_, ⟨hcoherent', hheld'⟩, ?_⟩
      · unfold run_layers
        rw [hforward]
        dsimp only
        rw [hrun]
      · simp only [stack, outputs_compose]
        exact hgrown''

end layers

end parallax.server.model
