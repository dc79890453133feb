-- The batches of the MLX executor (parallax/server/executor/mlx_executor.py,
-- `_prepare_prefill_batch` and `_prepare_decode_batch`): the block tables,
-- the context lengths and the slot of each token of a batch.
import InferenceMesh.Cache.CacheManager
import InferenceMesh.Lib.StateExn
import InferenceMesh.Server.Request

open ordered_dict python
open parallax.server.cache_manager parallax.server.request

namespace parallax.server.mlx_executor

/-- What a peer knows of itself. -/
structure Peer where
  is_first_peer : Bool
  is_last_peer : Bool
  pad_token_id : Int := 0
  deriving DecidableEq

/-! ## Padding -/

/-- The input of one request: token ids on the first peer, hidden states on the others. -/
inductive Rows where
  | tokens (ids : List Int)
  | hidden (rows : Tensor)
  deriving DecidableEq

def Rows.len : Rows → Nat
  | .tokens ids => ids.length
  | .hidden rows => rows.length

/-- The rows with padding at the end: the pad token, or rows of zeros of the same width. -/
def Rows.pad (pad_value : Int) (max_len : Nat) : Rows → Rows
  | .tokens ids => .tokens (ids ++ List.replicate (max_len - ids.length) pad_value)
  | .hidden rows =>
    let zeros := List.replicate (rows.headD []).length 0
    .hidden (rows ++ List.replicate (max_len - rows.length) zeros)

def maxLen (ls : List Nat) : Nat := ls.foldl max 0

/-- The rows padded to the longest of them. -/
def pad_inputs (pad_value : Int) (inputs : List Rows) : List Rows :=
  inputs.map (Rows.pad pad_value (maxLen (inputs.map Rows.len)))

/-- The block tables padded with zeros to the longest of them. -/
def pad_block_tables (block_tables : List (List Nat)) : List (List Nat) :=
  let max_blocks := maxLen (block_tables.map List.length)
  block_tables.map (fun bt => bt ++ List.replicate (max_blocks - bt.length) 0)

/-! ## Batches -/

/-- The inputs of the sharded model for one batch. A slot of -1 is a padding token. -/
structure BatchInputs where
  h_or_tokens : List Rows
  requests : List Request
  block_tables : List (List Nat)
  context_lengths : List Nat
  slot_mapping : Option (List Int)
  state_slot_mapping : Option (List (Option Nat))

/-- The padded length of the rows: `padded_inputs.shape[1]`. -/
def padded_len (h_or_tokens : List Rows) : Nat := maxLen (h_or_tokens.map Rows.len)

abbrev CacheM : Type → Type := EStateM Exn CacheManager

/-- What the loop over the requests gathers for one of them. A packet may come without hidden
states; the loop does not look. -/
structure Row where
  rows : Option Rows
  block_table : List Nat
  context_length : Nat

/-- The input of one request on this peer. -/
def rows_of (peer : Peer) (tokens : List Int) (req : Request) : Option Rows :=
  if peer.is_first_peer then some (.tokens tokens) else req.hidden_states.map .hidden

/-- One turn of the loop of `_prepare_prefill_batch`. -/
def prefill_row (peer : Peer) (req : Request) : CacheM Row := do
  if !req.is_prefill then
    throw (.RuntimeError s!"Request {req.request_id} is not a prefill request.")
  let success ← modifyGet (fun m => m.allocate_request req.request_id req.total_length)
  if !success then
    throw (.RuntimeError s!"OOM during prefill allocation for {req.request_id}")
  let m ← get
  return { rows := rows_of peer req.input_ids req
           block_table := m.get_block_table req.request_id
           context_length := req.total_length }

/-- One turn of the loop of `_prepare_decode_batch`. -/
def decode_row (peer : Peer) (req : Request) : CacheM Row := do
  if !req.is_decoding then
    throw (.AssertionError s!"Request {req.request_id} is not a decode request.")
  if peer.is_first_peer && req.output_ids.isEmpty then
    throw (.IndexError "list index out of range")
  let m ← get
  match m.append_slot req.request_id with
  | .error e => throw e
  | .ok (false, _) => throw (.RuntimeError s!"OOM during decode for {req.request_id}")
  | .ok (true, m') =>
    set m'
    return { rows := rows_of peer [req.output_ids.getLastD 0] req
             block_table := m'.get_block_table req.request_id
             context_length := m'.get_context_length req.request_id }

/-- The rows of a batch, one request after the other. -/
def gather (row : Request → CacheM Row) : List Request → CacheM (List Row)
  | [] => pure []
  | req :: rest => do
    let r ← row req
    let rs ← gather row rest
    return r :: rs

/-- The physical slot of the token at `seq_idx`, by the block table of its request. -/
def token_slot (block_size : Nat) (block_table : List Nat) (length seq_idx : Nat) :
    Except Exn Int :=
  if seq_idx < length then
    match block_table[seq_idx / block_size]? with
    | some physical_block => .ok (physical_block * block_size + seq_idx % block_size : Nat)
    | none => .error (.IndexError "list index out of range")
  else .ok (-1)

/-- The slots of each token of the padded batch, row after row. -/
def slot_mapping_flat (block_size max_len : Nat) : List Row → Except Exn (List Int)
  | [] => .ok []
  | row :: rest => do
    let slots ← (List.range max_len).mapM'
      (token_slot block_size row.block_table row.context_length)
    let others ← slot_mapping_flat block_size max_len rest
    return slots ++ others

def state_slots (m : CacheManager) (batched_requests : List Request) :
    Option (List (Option Nat)) :=
  if m.needs_slots then some (batched_requests.map (fun r => m.get_slot r.request_id)) else none

/-- The inputs of a batch, when each request has one. -/
def batch_rows : List Row → CacheM (List Rows)
  | [] => pure []
  | row :: rest =>
    match row.rows with
    | none => throw (.TypeError "Unsupported input type for padding")
    | some r => do
      let rs ← batch_rows rest
      return r :: rs

/-- Prepares inputs for the sharded model from a batch of prefill requests. -/
def prepare_prefill_batch (peer : Peer) (batched_requests : List Request) :
    CacheM (Option BatchInputs) := do
  if batched_requests.isEmpty then return none
  let rows ← gather (prefill_row peer) batched_requests
  let h_or_tokens ← batch_rows rows
  let padded_inputs := pad_inputs (if peer.is_first_peer then peer.pad_token_id else 0) h_or_tokens
  let m ← get
  match slot_mapping_flat m.block_size (padded_len padded_inputs) rows with
  | .error e => throw e
  | .ok slots =>
    return some
      { h_or_tokens := padded_inputs
        requests := batched_requests
        block_tables := pad_block_tables (rows.map Row.block_table)
        context_lengths := rows.map Row.context_length
        slot_mapping := some slots
        state_slot_mapping := state_slots m batched_requests }

/-- Prepares inputs for the sharded model from a batch of decode requests. -/
def prepare_decode_batch (peer : Peer) (batched_requests : List Request) :
    CacheM (Option BatchInputs) := do
  if batched_requests.isEmpty then return none
  let rows ← gather (decode_row peer) batched_requests
  let h_or_tokens ← batch_rows rows
  let m ← get
  return some
    { h_or_tokens
      requests := batched_requests
      block_tables := pad_block_tables (rows.map Row.block_table)
      context_lengths := rows.map Row.context_length
      slot_mapping := none
      state_slot_mapping := state_slots m batched_requests }

end parallax.server.mlx_executor
