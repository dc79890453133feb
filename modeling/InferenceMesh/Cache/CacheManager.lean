-- The cache manager (parallax/server/cache_manager.py): it hands blocks of
-- the paged KV cache and state slots to requests. Each operation has its
-- failure exits, and an exit gives back what the call took.
import InferenceMesh.Cache.Allocator
import InferenceMesh.Lib.Dict
import InferenceMesh.Lib.PyExn

open ordered_dict python
open parallax.server.cache

namespace parallax.server.cache_manager

/-- The kind of one layer. -/
inductive LayerType where
  | attention
  | linear
  deriving DecidableEq, Repr

/-- What the constructor is given. A server only starts with a positive block size. -/
structure Config where
  layer_types : List LayerType
  block_size : Nat
  num_gpu_blocks : Nat
  max_num_seqs : Nat
  block_size_pos : 0 < block_size

/-- Any attention layer. -/
def Config.needs_blocks (c : Config) : Bool := c.layer_types.any (fun t => t = .attention)

/-- Any linear layer. -/
def Config.needs_slots (c : Config) : Bool := c.layer_types.any (fun t => t = .linear)

/-- Manages the layer caches and their memory allocation for requests. An allocator that no
layer needs is there with nothing to hand out, and no operation asks it. -/
structure CacheManager where
  config : Config
  allocator : BlockAllocator
  slot_allocator : SlotAllocator
  /-- request_id -> list of physical block indices -/
  block_tables : Dict String (List Nat)
  /-- request_id -> current context length -/
  context_lengths : Dict String Nat
  /-- request_id -> state slot index -/
  request_slots : Dict String Nat

namespace CacheManager

def init (c : Config) : CacheManager :=
  { config := c
    allocator := .init (if c.needs_blocks then c.num_gpu_blocks else 0) c.block_size
    slot_allocator := .init (if c.needs_slots then c.max_num_seqs else 0)
    block_tables := .empty
    context_lengths := .empty
    request_slots := .empty }

def needs_blocks (m : CacheManager) : Bool := m.config.needs_blocks

def needs_slots (m : CacheManager) : Bool := m.config.needs_slots

def block_size (m : CacheManager) : Nat := m.config.block_size

/-- The number of blocks that hold `num_tokens` tokens. -/
def num_blocks (m : CacheManager) (num_tokens : Nat) : Nat :=
  (num_tokens + m.block_size - 1) / m.block_size

def can_allocate (m : CacheManager) (num_tokens : Nat) : Bool :=
  if !m.needs_blocks then
    if m.needs_slots then decide (0 < m.slot_allocator.get_num_free_slots) else true
  else
    let blocks_ok := decide (m.num_blocks num_tokens ≤ m.allocator.get_num_free_blocks)
    let slots_ok :=
      if m.needs_slots then decide (0 < m.slot_allocator.get_num_free_slots) else true
    blocks_ok && slots_ok

/-- The slot of a new request, when there are slots: `none` is the exit with no free slot. -/
def take_slot (m : CacheManager) : Option (Option Nat × SlotAllocator) :=
  if m.needs_slots then
    match m.slot_allocator.allocate with
    | (some slot, a) => some (some slot, a)
    | (none, _) => none
  else some (none, m.slot_allocator)

/-- The blocks of a new request. `none` is the exit with too few free blocks; what was taken
is then given back. -/
def take_blocks (m : CacheManager) (prompt_len : Nat) : Option (List Nat × BlockAllocator) :=
  if m.needs_blocks then
    let blocks := m.allocator.allocate (m.num_blocks prompt_len)
    if blocks.1.length < m.num_blocks prompt_len then none else some blocks
  else some ([], m.allocator)

/-- The allocators after the exit with too few free blocks. -/
def give_back (m : CacheManager) (prompt_len : Nat) (slot : Option Nat) (a : SlotAllocator) :
    CacheManager :=
  let blocks := m.allocator.allocate (m.num_blocks prompt_len)
  { m with
    allocator := if blocks.1 ≠ [] then blocks.2.free blocks.1 else blocks.2
    slot_allocator := match slot with
      | some s => a.free s
      | none => a }

/-- The request is entered into the dictionaries. -/
def commit (m : CacheManager) (request_id : String) (prompt_len : Nat)
    (slot : Option Nat) (slots : SlotAllocator) (blocks : List Nat × BlockAllocator) :
    CacheManager :=
  { m with
    allocator := blocks.2
    slot_allocator := slots
    block_tables :=
      if m.needs_blocks then m.block_tables.insert request_id blocks.1 else m.block_tables
    context_lengths :=
      if m.needs_blocks then m.context_lengths.insert request_id prompt_len
      else m.context_lengths
    request_slots := match slot with
      | some s => m.request_slots.insert request_id s
      | none => m.request_slots }

def allocate_request (m : CacheManager) (request_id : String) (prompt_len : Nat) :
    Bool × CacheManager :=
  if m.block_tables.has request_id then (true, m)
  else
    match m.take_slot with
    | none => (false, m)
    | some (slot, slots) =>
      match m.take_blocks prompt_len with
      | none => (false, m.give_back prompt_len slot slots)
      | some blocks => (true, m.commit request_id prompt_len slot slots blocks)

def free_blocks_of (m : CacheManager) (request_id : String) : CacheManager :=
  if m.needs_blocks then
    match m.block_tables.get? request_id with
    | some blocks =>
      { m with
        allocator := m.allocator.free blocks
        block_tables := m.block_tables.erase request_id
        context_lengths := m.context_lengths.erase request_id }
    | none => m
  else m

def free_slot_of (m : CacheManager) (request_id : String) : CacheManager :=
  if m.needs_slots then
    match m.request_slots.get? request_id with
    | some slot =>
      { m with
        slot_allocator := m.slot_allocator.free slot
        request_slots := m.request_slots.erase request_id }
    | none => m
  else m

def free_request (m : CacheManager) (request_id : String) : CacheManager :=
  (m.free_blocks_of request_id).free_slot_of request_id

def release_request (m : CacheManager) (request_id : String) : CacheManager :=
  m.free_request request_id

def has_request (m : CacheManager) (request_id : String) : Bool :=
  if m.needs_blocks then m.block_tables.has request_id
  else if m.needs_slots then m.request_slots.has request_id
  else false

/-- Decode step allocation. -/
def append_slot (m : CacheManager) (request_id : String) : Except Exn (Bool × CacheManager) :=
  if !m.needs_blocks then .ok (true, m)
  else
    match m.block_tables.get? request_id with
    | none => .error (.ValueError s!"Request {request_id} not found")
    | some table =>
      match m.context_lengths.get? request_id with
      | none => .error (.KeyError request_id)
      | some current_len =>
        if current_len % m.block_size = 0 then
          match m.allocator.allocate 1 with
          | ([], _) => .ok (false, m)
          | (new_blocks, a) => .ok (true, { m with
              allocator := a
              block_tables := m.block_tables.insert request_id (table ++ new_blocks)
              context_lengths := m.context_lengths.insert request_id (current_len + 1) })
        else .ok (true, { m with
          context_lengths := m.context_lengths.insert request_id (current_len + 1) })

def get_block_table (m : CacheManager) (request_id : String) : List Nat :=
  (m.block_tables.get? request_id).getD []

def get_context_length (m : CacheManager) (request_id : String) : Nat :=
  (m.context_lengths.get? request_id).getD 0

/-- `none` stands for the -1 of the source. -/
def get_slot (m : CacheManager) (request_id : String) : Option Nat :=
  m.request_slots.get? request_id

end CacheManager

/-! ## Runs -/

/-- One call on the cache manager. -/
inductive Call where
  | allocate_request (request_id : String) (prompt_len : Nat)
  | append_slot (request_id : String)
  | free_request (request_id : String)
  deriving DecidableEq

/-- The state after one call. A call that raises leaves the state as it was. -/
def CacheManager.after (m : CacheManager) : Call → CacheManager
  | .allocate_request request_id prompt_len => (m.allocate_request request_id prompt_len).2
  | .append_slot request_id =>
    match m.append_slot request_id with
    | .ok (_, m') => m'
    | .error _ => m
  | .free_request request_id => m.free_request request_id

/-- The state after a run of calls. -/
def CacheManager.run (m : CacheManager) (calls : List Call) : CacheManager :=
  calls.foldl CacheManager.after m

end parallax.server.cache_manager
