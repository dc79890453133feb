-- The running batch of the SGLang backend (parallax/sglang/batch_info.py and
-- the parts of sglang_executor.py that edit it). The batch is a record of
-- parallel arrays: entry i of each array belongs to entry i of `reqs`.
import InferenceMesh.Lib.PyExn
import InferenceMesh.Lib.StateExn
import InferenceMesh.Server.Request

open python state_exn
open parallax.server.request

namespace parallax.sglang.batch_info

/-! ## The data of the backend -/

/-- A request of SGLang. -/
structure Req where
  rid : String
  req_pool_idx : Nat
  prefix_indices : List Nat := []
  deriving DecidableEq

/-- The arrays of a batch. A tensor that is None is empty here where no branch asks for it. -/
structure ScheduleBatch where
  reqs : List Req := []
  seq_lens : List Nat := []
  seq_lens_cpu : List Nat := []
  orig_seq_lens : List Nat := []
  req_pool_indices : List Nat := []
  out_cache_loc : Option (List Nat) := none
  output_ids : Option (List Int) := none
  deriving DecidableEq

def ScheduleBatch.is_empty (b : ScheduleBatch) : Bool := b.reqs.isEmpty

/-- The two memory pools: the token slots of each row of the request pool, and what was handed
back to each pool. -/
structure MemoryPools where
  page_size : Nat
  req_to_token : Nat → List Nat
  freed_tokens : List Nat := []
  freed_rows : List Nat := []

/-- What SGLang does to a batch. -/
structure Library where
  merge_batch : ScheduleBatch → ScheduleBatch → ScheduleBatch
  prepare_for_decode : ScheduleBatch → MemoryPools → Except Exn (ScheduleBatch × MemoryPools)
  /-- `get_model_worker_batch` and `ForwardBatch.init_new`. -/
  init_forward_batch : ScheduleBatch → Except Exn Unit

/-- A merge joins the arrays of the two batches. -/
structure Library.Lawful (sgl : Library) : Prop where
  reqs : ∀ b b', (sgl.merge_batch b b').reqs = b.reqs ++ b'.reqs
  seq_lens : ∀ b b', (sgl.merge_batch b b').seq_lens = b.seq_lens ++ b'.seq_lens
  seq_lens_cpu : ∀ b b', (sgl.merge_batch b b').seq_lens_cpu = b.seq_lens_cpu ++ b'.seq_lens_cpu
  orig_seq_lens : ∀ b b',
    (sgl.merge_batch b b').orig_seq_lens = b.orig_seq_lens ++ b'.orig_seq_lens
  req_pool_indices : ∀ b b',
    (sgl.merge_batch b b').req_pool_indices = b.req_pool_indices ++ b'.req_pool_indices

/-- What the executor holds. -/
structure Backend where
  running_batch : ScheduleBatch
  pools : MemoryPools

/-- A computation on the arrays that may raise. -/
def raising {α : Type} (x : Except Exn α) : EStateM Exn Backend α :=
  match x with
  | .ok a => pure a
  | .error e => throw e

/-! ## Indices -/

/-- Where an index of Python points in a list of the given length. -/
def position (length : Nat) (index : Int) : Option Nat :=
  if 0 ≤ index then
    if index.toNat < length then some index.toNat else none
  else if -index ≤ length then some (length - (-index).toNat)
  else none

def out_of_range : Exn := .IndexError "index out of range"

/-- `xs[index]` -/
def item {α : Type} (xs : List α) (index : Int) : Except Exn α :=
  match (position xs.length index).bind (fun i => xs[i]?) with
  | some x => .ok x
  | none => .error out_of_range

/-- `xs[indices]` -/
def gather {α : Type} (xs : List α) (indices : List Int) : Except Exn (List α) :=
  indices.mapM (item xs)

/-- `xs[indices] += 1`: an entry that is listed twice grows once. -/
def increment (xs : List Nat) (indices : List Int) : Except Exn (List Nat) :=
  match indices.mapM (position xs.length) with
  | some positions => .ok (xs.mapIdx (fun i x => if i ∈ positions then x + 1 else x))
  | none => .error out_of_range

/-- Finds the requests in the running batch by request_id, -1 when there is none. -/
def find_index (running_batch : ScheduleBatch) (request_id : String) : Int :=
  match running_batch.reqs.findIdx? (fun req => req.rid = request_id) with
  | some index => index
  | none => -1

/-! ## Decode -/

/-- Gathers an array that may be None. -/
def gather_optional {α : Type} (xs : Option (List α)) (indices : List Int) :
    Except Exn (Option (List α)) :=
  match xs with
  | some values => (gather values indices).map some
  | none => .ok none

/-- Copies a subset of requests to form a new batch. Every array is rebuilt. -/
def select_batch (origin_batch : ScheduleBatch) (keep_indices : List Int) :
    Except Exn (Option ScheduleBatch) :=
  if keep_indices.isEmpty then .ok none
  else do
    let reqs ← gather origin_batch.reqs keep_indices
    let seq_lens_cpu ← gather origin_batch.seq_lens_cpu keep_indices
    let req_pool_indices ← gather origin_batch.req_pool_indices keep_indices
    let seq_lens ← gather origin_batch.seq_lens keep_indices
    let orig_seq_lens ← gather origin_batch.orig_seq_lens keep_indices
    let out_cache_loc ← gather_optional origin_batch.out_cache_loc keep_indices
    let output_ids ← gather_optional origin_batch.output_ids keep_indices
    .ok (some {
      reqs, seq_lens, seq_lens_cpu, orig_seq_lens, req_pool_indices, out_cache_loc, output_ids })

/-- The indices of the requests that are in the batch. -/
def ready_indices (running_batch : ScheduleBatch) (requests : List Request) : List Int :=
  (requests.map (fun req => find_index running_batch req.request_id)).filter (· ≠ -1)

/-- The output ids of the step. Peers after the first set an empty tensor, whose values are not
read. -/
def step_output_ids (requests : List Request) (is_first_rank : Bool) (batch_size : Nat) :
    Except Exn (List Int) :=
  if is_first_rank then
    requests.mapM (fun request =>
      match request.output_ids.getLast? with
      | some id => .ok id
      | none => .error (.IndexError "list index out of range"))
  else .ok (List.replicate batch_size 0)

/-- The batch of the step, with the slots of its new tokens. -/
def prepare_selected (sgl : Library) (requests : List Request) (is_first_rank : Bool)
    (s : Backend) : Except Exn (ScheduleBatch × MemoryPools) := do
  let ready := ready_indices s.running_batch requests
  match ← select_batch s.running_batch ready with
  | none => .error (.TypeError "'NoneType' object has no attribute 'output_ids'")
  | some ret =>
    let output_ids ← step_output_ids requests is_first_rank ready.length
    sgl.prepare_for_decode { ret with output_ids := some output_ids } s.pools

/-- The selected batch is a copy, so the lengths of the running batch are counted up here. -/
def grow_running (running_batch : ScheduleBatch) (ready : List Int) :
    Except Exn ScheduleBatch := do
  let seq_lens ← increment running_batch.seq_lens ready
  let seq_lens_cpu ← increment running_batch.seq_lens_cpu ready
  let orig_seq_lens ← increment running_batch.orig_seq_lens ready
  .ok { running_batch with seq_lens, seq_lens_cpu, orig_seq_lens }

/-- Forms the decoding batch in this round. -/
def form_sgl_batch_decode (sgl : Library) (requests : List Request) (is_first_rank : Bool) :
    EStateM Exn Backend ScheduleBatch := do
  let s ← get
  let prepared ← raising (prepare_selected sgl requests is_first_rank s)
  let running_batch ← raising (grow_running s.running_batch (ready_indices s.running_batch requests))
  set ({ running_batch, pools := prepared.2 } : Backend)
  raising (sgl.init_forward_batch prepared.1)
  pure prepared.1

/-! ## Release -/

/-- The batch without the request at the place. Only `reqs` is changed. -/
def Backend.without (s : Backend) : Option Nat → Backend
  | some i => { s with running_batch := { s.running_batch with
      reqs := s.running_batch.reqs.eraseIdx i } }
  | none => s

/-- `reqs.pop(index)` -/
def pop_req (index : Int) : EStateM Exn Backend Req := do
  let s ← get
  let req ← raising (item s.running_batch.reqs index)
  set (s.without (position s.running_batch.reqs.length index))
  pure req

/-- Frees the slots of a request from its last page that is not shared on. -/
def free_kv_cache (req : Req) (seq_len : Nat) : EStateM Exn Backend Unit :=
  modify (fun s =>
    let last_uncached_pos := req.prefix_indices.length / s.pools.page_size * s.pools.page_size
    let token_indices :=
      ((s.pools.req_to_token req.req_pool_idx).take seq_len).drop last_uncached_pos
    { s with pools := { s.pools with
        freed_tokens := s.pools.freed_tokens ++ token_indices
        freed_rows := s.pools.freed_rows ++ [req.req_pool_idx] } })

/-- Releases KV Cache and other resources for finished/aborted requests. -/
def release_sglang_request (request_id : String) : EStateM Exn Backend Unit := do
  let s ← get
  if s.running_batch.is_empty then pure ()
  else
    let seq_lens_cpu := s.running_batch.seq_lens
    let idx := find_index s.running_batch request_id
    let req ← pop_req idx
    let seq_len ← raising (item seq_lens_cpu idx)
    free_kv_cache req seq_len

/-! ## The batch of a prefill -/

/-- What the batch holds of one request. -/
structure Entry where
  req : Req
  seq_len : Nat
  orig_seq_len : Nat
  deriving DecidableEq

/-- The batch of a prefill: the columns of its entries. -/
def ScheduleBatch.of_entries (entries : List Entry) : ScheduleBatch where
  reqs := entries.map (·.req)
  seq_lens := entries.map (·.seq_len)
  seq_lens_cpu := entries.map (·.seq_len)
  orig_seq_lens := entries.map (·.orig_seq_len)
  req_pool_indices := entries.map (·.req.req_pool_idx)

/-- The end of a prefill in `process_batch`: the batch joins the running batch. -/
def merge_cur_batch (sgl : Library) (cur_batch : ScheduleBatch) (s : Backend) : Backend :=
  if cur_batch.is_empty then s
  else if s.running_batch.is_empty then { s with running_batch := cur_batch }
  else { s with running_batch := sgl.merge_batch s.running_batch cur_batch }

end parallax.sglang.batch_info
