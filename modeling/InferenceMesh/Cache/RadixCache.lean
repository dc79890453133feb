-- The prefix cache (parallax/server/radix_cache.py): a radix tree of token
-- sequences and their values, for page size 1. Its nodes are objects that
-- point at each other. A KV tensor is a list with one value per token.
import InferenceMesh.Lib.Dict
import InferenceMesh.Lib.Heap
import InferenceMesh.Lib.PyExn
import InferenceMesh.Lib.StackWalk
import InferenceMesh.Lib.StateExn

open ordered_dict python

namespace parallax.server.radix_cache

/-! ## Nodes -/

/-- Where a node lies in memory. -/
abbrev Ref : Type := Nat

/-- A node of the tree. `kv_cache` is missing until the node has been given one. -/
structure TreeNode (κ : Type) where
  children : Dict Int Ref := .empty
  parent : Option Ref := none
  key : List Int := []
  value : List Int := []
  kv_cache : Option (List κ) := none
  lock_ref : Nat := 0
  last_access_time : Rat

/-- What the cache finds outside: the readings of the clock, and the class of the KV caches, whose
objects keep the tensors that they are updated with, or whose calls raise. -/
structure Host (κ : Type) where
  monotonic : Nat → Rat
  KVCache : List κ → Except Exn (List κ)

/-- The length of the common beginning. -/
def key_match_page_size1 : List Int → List Int → Nat
  | k0 :: key0, k1 :: key1 => if k0 ≠ k1 then 0 else key_match_page_size1 key0 key1 + 1
  | _, _ => 0

/-- The cache, with the nodes that were ever created, how many these are, and how often the clock
was read. -/
structure RadixCache (κ : Type) where
  node : Ref → TreeNode κ
  counter : Nat
  readings : Nat
  root_node : Ref
  evictable_size_ : Int
  protected_size_ : Int
  max_num_tokens : Int
  req_to_token : Dict String (List Int)

abbrev RadixM (κ : Type) : Type → Type := EStateM Exn (RadixCache κ)

variable {κ : Type} (host : Host κ)

/-- An empty cache. The root has no tokens, and its lock is never released. -/
def RadixCache.init (max_num_tokens : Option Int) : RadixCache κ where
  node _ := { lock_ref := 1, last_access_time := host.monotonic 0 }
  counter := 1
  readings := 1
  root_node := 0
  evictable_size_ := 0
  protected_size_ := 0
  max_num_tokens := max_num_tokens.getD 10000
  req_to_token := .empty

namespace RadixCache

def modify_node (c : RadixCache κ) (r : Ref) (f : TreeNode κ → TreeNode κ) : RadixCache κ :=
  { c with node := Function.update c.node r (f (c.node r)) }

/-- `TreeNode()`, at the next free place. -/
def new_tree_node (c : RadixCache κ) : RadixCache κ :=
  { c with
    node := Function.update c.node c.counter { last_access_time := host.monotonic c.readings }
    counter := c.counter + 1
    readings := c.readings + 1 }

/-- `node.last_access_time = time.monotonic()`. -/
def touch (c : RadixCache κ) (r : Ref) : RadixCache κ :=
  { c.modify_node r (fun n => { n with last_access_time := host.monotonic c.readings }) with
    readings := c.readings + 1 }

def set_kv_cache (c : RadixCache κ) (r : Ref) (kv : List κ) : RadixCache κ :=
  c.modify_node r (fun n => { n with kv_cache := some kv })

/-- The links of a split: `new_node` has the first tokens of the child, and stands between it and
its parent. -/
def link_split (c : RadixCache κ) (new_node child parent : Ref) (first_key child_key : Int)
    (split_len : Nat) : RadixCache κ :=
  let n := c.node child
  ((c.modify_node new_node (fun m =>
      { m with
        children := Dict.empty.insert child_key child
        parent := some parent
        lock_ref := n.lock_ref
        key := n.key.take split_len
        value := n.value.take split_len })).modify_node child (fun m =>
      { m with
        parent := some new_node
        key := m.key.drop split_len
        value := m.value.drop split_len })).modify_node parent (fun m =>
      { m with children := m.children.insert first_key new_node })

/-- The links of a new leaf, which is not locked yet. -/
def link_leaf (c : RadixCache κ) (new_node node : Ref) (child_key : Int) (key value : List Int) :
    RadixCache κ :=
  let linked := (c.modify_node new_node (fun m =>
      { m with parent := some node, key := key, value := value })).modify_node node (fun m =>
      { m with children := m.children.insert child_key new_node })
  { linked with evictable_size_ := c.evictable_size_ + value.length }

/-- All nodes that the cache reaches from its root, in the order of its stack. -/
def tree_nodes (c : RadixCache κ) : List Ref :=
  stack_walk.walk (fun r => (c.node r).children.values) c.counter [c.root_node]

/-- The leaf nodes, in the order of the stack. -/
def collect_leaves (c : RadixCache κ) : List Ref :=
  c.tree_nodes.filter (fun r => (c.node r).children.size = 0)

/-- The number of tokens that are stored in the tree. -/
def total_size (c : RadixCache κ) : Nat :=
  (c.tree_nodes.map (fun r => (c.node r).value.length)).sum

end RadixCache

open RadixCache

/-! ## Matching and insertion -/

/-- `key[0]`. -/
def get_child_key_fn (key : List Int) : RadixM κ Int :=
  match key with
  | [] => throw (.IndexError "list index out of range")
  | token :: _ => pure token

/-- `node.kv_cache.fetch()`. -/
def fetch (node : Ref) : RadixM κ (List κ) := do
  let c ← get
  match (c.node node).kv_cache with
  | none => throw (.AttributeError "'NoneType' object has no attribute 'fetch'")
  | some kv => return kv

/-- `node.kv_cache = KVCache(...)`, updated with the given tensors. -/
def store_kv_cache (node : Ref) (kv : List κ) : RadixM κ Unit :=
  match host.KVCache kv with
  | .error e => throw e
  | .ok kv => modify (fun c => c.set_kv_cache node kv)

/-- Splits a node after some of its tokens, and returns the new upper part. -/
def split_node (key : List Int) (child : Ref) (split_len : Nat) : RadixM κ Ref := do
  let c ← get
  let new_node := c.counter
  set (c.new_tree_node host)
  let child_key ← get_child_key_fn (key.drop split_len)
  match (c.node child).parent with
  | none => throw (.AttributeError "'NoneType' object has no attribute 'children'")
  | some parent =>
    let first_key ← get_child_key_fn key
    modify (fun c => c.link_split new_node child parent first_key child_key split_len)
    let kv ← fetch child
    store_kv_cache host new_node (kv.take split_len)
    store_kv_cache host child (kv.drop split_len)
    return new_node

/-- Goes down along the key, and collects the values on the way. A node that is matched in part is
split, and its upper part ends the way. -/
def match_loop : Nat → Ref → List Int → List Int → RadixM κ (List Int × Ref)
  | 0, node, _, value => return (value, node)
  | _ + 1, node, [], value => return (value, node)
  | fuel + 1, node, child_key :: rest, value => do
    let c ← get
    match (c.node node).children.get? child_key with
    | none => return (value, node)
    | some child =>
      set (c.touch host child)
      let n := c.node child
      let prefix_len := key_match_page_size1 n.key (child_key :: rest)
      if prefix_len ≥ n.key.length then
        match_loop fuel child ((child_key :: rest).drop prefix_len) (value ++ n.value)
      else
        let new_node ← split_node host n.key child prefix_len
        let c ← get
        return (value ++ (c.node new_node).value, new_node)

/-- Finds the longest beginning of the key in the tree: its values and its last node. -/
def match_prefix (key : List Int) : RadixM κ (List Int × Ref) := do
  let c ← get
  if key.length = 0 then return ([], c.root_node)
  else
    set (c.touch host c.root_node)
    match_loop host key.length c.root_node key []

/-- Goes down along the key, and splits nodes that are matched in part. Returns the last node, what
is left of the key and of the values, and how much was matched. -/
def insert_loop : Nat → Ref → List Int → List Int → Nat →
    RadixM κ (Ref × List Int × List Int × Nat)
  | 0, node, key, value, total => return (node, key, value, total)
  | _ + 1, node, [], value, total => return (node, [], value, total)
  | fuel + 1, node, child_key :: rest, value, total => do
    let c ← get
    match (c.node node).children.get? child_key with
    | none => return (node, child_key :: rest, value, total)
    | some child =>
      set (c.touch host child)
      let n := c.node child
      let prefix_len := key_match_page_size1 n.key (child_key :: rest)
      let last ←
        if prefix_len < n.key.length then split_node host n.key child prefix_len else pure child
      insert_loop fuel last ((child_key :: rest).drop prefix_len) (value.drop prefix_len)
        (total + prefix_len)

/-- Gives the rest of the key to a new leaf. -/
def add_leaf (node : Ref) (key value : List Int) (total_prefix_length : Nat) (kv : List κ) :
    RadixM κ Ref := do
  let child_key ← get_child_key_fn key
  let c ← get
  let new_node := c.counter
  set ((c.new_tree_node host).link_leaf new_node node child_key key value)
  store_kv_cache host new_node (kv.drop total_prefix_length)
  return new_node

/-- Inserts a key with its values: how much of it was there, and its last node. The result for an
empty key is the bare number 0, which is `none` here. -/
def insert (key : List Int) (value : Option (List Int)) (kv : List κ) :
    RadixM κ (Option (Nat × Ref)) := do
  let value := value.getD key
  let c ← get
  set (c.touch host c.root_node)
  if key.length = 0 then return none
  else
    let (node, key, value, total_prefix_length) ←
      insert_loop host key.length c.root_node key value 0
    if key.length = 0 then return some (total_prefix_length, node)
    else
      let new_node ← add_leaf host node key value total_prefix_length kv
      return some (total_prefix_length, new_node)

/-! ## Locks -/

namespace RadixCache

/-- One more reference to a node, which is protected from now on. -/
def lock_node (c : RadixCache κ) (r : Ref) : RadixCache κ :=
  let size : Int := (c.node r).value.length
  let locked := c.modify_node r (fun n => { n with lock_ref := n.lock_ref + 1 })
  if (c.node r).lock_ref = 0 then
    { locked with
      evictable_size_ := c.evictable_size_ - size
      protected_size_ := c.protected_size_ + size }
  else locked

/-- One reference less to a node, if there is one. -/
def unlock_node (c : RadixCache κ) (r : Ref) : RadixCache κ :=
  let size : Int := (c.node r).value.length
  let unlocked := c.modify_node r (fun n => { n with lock_ref := n.lock_ref - 1 })
  if (c.node r).lock_ref = 1 then
    { unlocked with
      evictable_size_ := c.evictable_size_ + size
      protected_size_ := c.protected_size_ - size }
  else unlocked

end RadixCache

/-- Changes the nodes from one up to the root, which stays as it is. Returns the change of what can
be evicted. -/
def up_to_root (change : RadixCache κ → Ref → RadixCache κ) : Nat → Ref → Int → RadixM κ Int
  | 0, _, delta => return delta
  | fuel + 1, node, delta => do
    let c ← get
    if node = c.root_node then return delta
    else
      let c' := change c node
      set c'
      let delta := delta + (c'.evictable_size_ - c.evictable_size_)
      match (c.node node).parent with
      | none => throw (.AttributeError "'NoneType' object has no attribute 'lock_ref'")
      | some parent => up_to_root change fuel parent delta

def increase_lock_ref (node : Ref) : RadixM κ Int := do
  let c ← get
  up_to_root lock_node (c.counter + 1) node 0

def decrease_lock_ref (node : Ref) : RadixM κ Int := do
  let c ← get
  up_to_root unlock_node (c.counter + 1) node 0

/-! ## Eviction -/

/-- Takes a leaf from its parent. -/
def delete_leaf (node : Ref) : RadixM κ Ref := do
  let c ← get
  match (c.node node).parent with
  | none => throw (.AttributeError "'NoneType' object has no attribute 'children'")
  | some parent =>
    let c :=
      match (c.node parent).children.items.find? (fun x => x.2 = node) with
      | none => c
      | some (k, _) => c.modify_node parent (fun m => { m with children := m.children.erase k })
    set { c with evictable_size_ := c.evictable_size_ - (c.node node).key.length }
    return parent

/-- Takes leaves from the heap, the one that was not used for the longest time first, until enough
tokens are gone. A parent without children left is a leaf as well. -/
def evict_loop (num_tokens : Int) : Nat → List Ref → Int → RadixM κ Unit
  | 0, _, _ => return ()
  | fuel + 1, leaves, num_evicted => do
    let c ← get
    let time := fun r => (c.node r).last_access_time
    if num_evicted < num_tokens then
      match binary_heap.heappop time leaves with
      | none => return ()
      | some (x, leaves) =>
        if x = c.root_node then return ()
        else if (c.node x).lock_ref > 0 then evict_loop num_tokens fuel leaves num_evicted
        else
          let num_evicted := num_evicted + (c.node x).value.length
          let parent ← delete_leaf x
          let c ← get
          let leaves :=
            if (c.node parent).children.size = 0 then binary_heap.heappush time leaves parent
            else leaves
          evict_loop num_tokens fuel leaves num_evicted
    else return ()

/-- Removes tokens that are not locked, the given number or all of them. -/
def evict (num_tokens : Int) : RadixM κ Unit := do
  let c ← get
  evict_loop num_tokens (2 * c.counter)
    (binary_heap.heapify (fun r => (c.node r).last_access_time) c.collect_leaves) 0

/-! ## Requests -/

/-- More tokens for a request. -/
def update_req_to_token (req_id : String) (token_ids : List Int) : RadixM κ Unit :=
  modify (fun c =>
    let tokens := (c.req_to_token.get? req_id).getD [] ++ token_ids
    { c with req_to_token := c.req_to_token.insert req_id tokens })

def evict_request (req_id : String) : RadixM κ Unit := do
  let c ← get
  match c.req_to_token.get? req_id with
  | none => throw (.KeyError req_id)
  | some _ => set { c with req_to_token := c.req_to_token.erase req_id }

/-- Evicts what is over the limit. -/
def evict_over_limit : RadixM κ Unit := do
  let c ← get
  if c.protected_size_ > c.max_num_tokens then evict c.protected_size_
  else if c.protected_size_ + c.evictable_size_ > c.max_num_tokens then
    evict (c.protected_size_ + c.evictable_size_ - c.max_num_tokens)
  else return ()

/-- Caches the tokens of a request, changes the locks on the way to their last node, and evicts
what is over the limit. -/
def cache_request (change_lock_ref : Ref → RadixM κ Int) (req_id : String) (kv : List κ) :
    RadixM κ Unit := do
  let c ← get
  match c.req_to_token.get? req_id with
  | none => throw (.KeyError req_id)
  | some token_ids =>
    match ← insert host token_ids none kv with
    | none => throw (.TypeError "cannot unpack non-iterable int object")
    | some (_, node) =>
      let _ ← change_lock_ref node
      evict_over_limit

def cache_finished_request (req_id : String) (kv : List κ) : RadixM κ Unit :=
  cache_request host decrease_lock_ref req_id kv

def cache_unfinished_request (req_id : String) (kv : List κ) : RadixM κ Unit :=
  cache_request host increase_lock_ref req_id kv

end parallax.server.radix_cache
