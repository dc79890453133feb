-- The part of a model on one peer (parallax/server/model.py), its call in the
-- executor (mlx_executor.py, `process_batch`), and what of the output goes on for
-- each request (base_executor.py, `prepare_next_batch_requests`).
import InferenceMesh.Models.DenseBlocks
import InferenceMesh.Server.PrepareBatch
import InferenceMesh.Server.ShardLoader

open python online_softmax parallax.metal.paged_attention parallax.models.dense parallax.utils mlx
open parallax.server.cache_manager parallax.server.mlx_executor parallax.server.request

namespace parallax.server.model

variable {X K L : Type} [Field K] [LinearOrder K] [Add X] [Inhabited X]

/-! ## The model -/

/-- The modules of the whole model. Hidden states go from peer to peer as rows of numbers, which
are stored from a vector and loaded as one. -/
structure Weights (X K L : Type) where
  embed_tokens : Int → X
  norm_in : Option (X → X) := none
  layers : List (Block X K)
  norm : X → X
  lm_head : X → L
  load : List Rat → X
  store : X → List Rat

/-- The threads of the launches of a layer, and its output before a kernel writes it. -/
structure Threads (K : Type) where
  store_order : Order
  attend_order : Order
  unwritten : Nat → K

/-- The input of one request: the first shard gets token ids, and the others hidden states. -/
def Weights.read (w : Weights X K L) : Rows → List X
  | .tokens ids => ids.map (fun id =>
    match w.norm_in with
    | none => w.embed_tokens id
    | some norm_in => norm_in (w.embed_tokens id))
  | .hidden rows => rows.map w.load

/-- The input of a call, by row and place. -/
def Weights.input (w : Weights X K L) (h_or_tokens : List Rows) (b t : Nat) : X :=
  ((h_or_tokens[b]?.map w.read).getD [])[t]?.getD default

/-- The loop over the layers. A layer that raises ends it, and those before it have written to their
caches. -/
def run_layers (lib : Library K) (e : Exp K) : List (Block X K) → (Nat → Threads K) →
    List (Caches K) → Call X K → List (Caches K) × Except Exn (Nat → Nat → X)
  | [], _, caches, c => (caches, .ok c.x)
  | _ :: _, _, [], _ => ([], .error (.IndexError "list index out of range"))
  | block :: blocks, threads, cache :: caches, c =>
    match block.forward lib e { c with
      caches := cache
      store_order := (threads 0).store_order
      attend_order := (threads 0).attend_order
      unwritten := (threads 0).unwritten } with
    | .error err => (cache :: caches, .error err)
    | .ok (cache', h) =>
      let (caches', out) := run_layers lib e blocks (fun l => threads (l + 1)) caches
        { c with x := h }
      (cache' :: caches', out)

namespace ShardedModel

variable (shard : ShardedModel) (w : Weights X K L)

/-- The layers of the range of the shard. -/
def layers : List (Block X K) :=
  (w.layers.drop shard.start_layer.toNat).take (shard.end_layer - shard.start_layer).toNat

/-- The last shard gives logits, and the others hidden states. -/
def output (h : X) : X ⊕ L :=
  if shard.is_last_shard then .inr (w.lm_head (w.norm h)) else .inl h

/-- The arguments of the layers in a call for a batch. -/
def layer_call (inputs : BatchInputs) (block_size : Nat) (mask : Option (Nat → Nat → Nat → K)) :
    Call X K where
  batch := inputs.h_or_tokens.length
  target_len := padded_len inputs.h_or_tokens
  x := w.input inputs.h_or_tokens
  mask
  block_size
  caches := ⟨fun _ => 0, fun _ => 0⟩
  block_tables := inputs.block_tables
  context_lengths := inputs.context_lengths
  slot_mapping := inputs.slot_mapping
  store_order := .in_grid
  attend_order := .in_grid
  unwritten := fun _ => 0

/-- One call of the model for a batch. -/
def call (lib : Library K) (e : Exp K) (threads : Nat → Threads K) (inputs : BatchInputs)
    (block_size : Nat) (mask : Option (Nat → Nat → Nat → K)) (caches : List (Caches K)) :
    List (Caches K) × Except Exn (Nat → Nat → X ⊕ L) :=
  if padded_len inputs.h_or_tokens > 1 ∧ mask.isNone then
    (caches, .error (.ValueError "ShardedModel: mask cannot be None for prefill."))
  else
    let (caches', h) := run_layers lib e (shard.layers w) threads caches
      (layer_call w inputs block_size mask)
    (caches', h.map (fun h b t => shard.output w (h b t)))

end ShardedModel

/-! ## In the executor -/

/-- What comes out for a request: hidden states, or a token on the last peer. -/
inductive Made where
  | hidden_states (rows : Tensor)
  | token (token_id : Int)
  deriving DecidableEq

/-- The rows of a request that are its own: all but the padding of a prefill, and one of a decode. -/
def true_length (inputs : BatchInputs) (i : Nat) (req : Request) : Nat :=
  if req.is_prefill then inputs.context_lengths[i]?.getD 0 else 1

/-- What comes out for a request of a batch. The token is picked from the logits of its last row. -/
def made_of (w : Weights X K L) (pick : L → Int) (inputs : BatchInputs)
    (out : Nat → Nat → X ⊕ L) (i : Nat) (req : Request) : Made :=
  let n := true_length inputs i req
  match out i (n - 1) with
  | .inl _ => .hidden_states
      ((List.range n).map (fun t => ((out i t).getLeft?.map w.store).getD []))
  | .inr logits => .token (pick logits)

/-- The mask of a prefill batch, by the lengths of its inputs before they are padded. -/
def mask_of (dtype : Dtype) (peer : Peer) (reqs : List Request) : Option (Nat → Nat → Nat → K) :=
  some (prefill_mask dtype
    (reqs.map (fun req => ((rows_of peer req.input_ids req).map Rows.len).getD 0)))

end parallax.server.model
