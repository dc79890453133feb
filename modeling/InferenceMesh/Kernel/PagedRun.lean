-- The paged cache over whole runs. Prefill and decode batches write into it
-- while requests come, grow and go; the attention kernel reads what was last
-- written for each position of a request.
import InferenceMesh.Kernel.PagedAttention
import InferenceMesh.Server.SlotMapping
import Mathlib.Analysis.Complex.Exponential

open ordered_dict python state_exn scatter_memory online_softmax
open parallax.server.cache_manager parallax.server.request parallax.server.mlx_executor

namespace parallax.metal.paged_attention

open CacheManager

set_option linter.unusedSectionVars false
set_option linter.dupNamespace false

/-! ## The machine -/

variable {K : Type}

/-- The head dimensions of a layer. -/
structure Heads where
  num_kv_heads : Nat
  k_head_dim : Nat
  v_head_dim : Nat

/-- A layer's cache has the block size of its manager. -/
def Heads.shape (d : Heads) (m : CacheManager) : Shape :=
  ⟨d.num_kv_heads, d.k_head_dim, d.v_head_dim, m.block_size⟩

/-- The key and the value of one token, by head and dimension. -/
structure KV (K : Type) where
  key : Nat → Nat → K
  value : Nat → Nat → K

def Tokens.kv (c : Shape) (tokens : Tokens K) (token : Nat) : KV K where
  key := fun head i => tokens.key (src_idx c c.k_head_dim token head i)
  value := fun head i => tokens.value (src_idx c c.v_head_dim token head i)

/-- The requests of one batch. A scheduler keeps its requests by id. -/
structure Batch where
  requests : List Request
  distinct : (requests.map Request.request_id).Nodup

/-- One step of a server: a call on the manager, or a batch whose keys and values are written. -/
inductive Step (K : Type) where
  | call (c : Call)
  | prefill (peer : Peer) (batch : Batch) (order : Order) (tokens : Tokens K)
  | decode (peer : Peer) (batch : Batch) (order : Order) (tokens : Tokens K)

/-- The manager and the cache of one layer. `last` is kept for the statement only: what was last
written for a position since its request came in. -/
structure Machine (K : Type) where
  manager : CacheManager
  caches : Caches K
  last : String → Nat → Option (KV K)

namespace Machine

def init (c : Config) (caches : Caches K) : Machine K := ⟨.init c, caches, fun _ _ => none⟩

/-- The request of a batch with the id, and its place. -/
def place (batch : Batch) (id : String) : Option (Nat × Request) :=
  let i := (batch.requests.map Request.request_id).idxOf id
  batch.requests[i]?.map (fun req => (i, req))

/-- Row `i` of a prefill batch holds the positions of its request, up to the padded length. -/
def prefill_last (c : Shape) (batch : Batch) (tokens : Tokens K) (max_len : Nat)
    (last : String → Nat → Option (KV K)) (id : String) (p : Nat) : Option (KV K) :=
  match place batch id with
  | none => last id p
  | some (i, req) =>
    if p < max_len ∧ p < req.total_length then some (tokens.kv c (i * max_len + p)) else last id p

/-- Row `i` of a decode batch is the last position of its context. -/
def decode_last (c : Shape) (batch : Batch) (tokens : Tokens K) (context_lengths : List Nat)
    (last : String → Nat → Option (KV K)) (id : String) (p : Nat) : Option (KV K) :=
  match place batch id with
  | none => last id p
  | some (i, _) => if context_lengths[i]? = some (p + 1) then some (tokens.kv c i) else last id p

/-- A batch that was prepared is written. A launch that raises writes nothing. -/
def write (d : Heads) (order : Order) (tokens : Tokens K) (s : Machine K) (m : CacheManager)
    (inputs : BatchInputs) (last : String → Nat → Option (KV K)) : Machine K :=
  match reshape_and_cache (d.shape m) order tokens s.caches inputs.block_tables
      inputs.context_lengths inputs.slot_mapping with
  | .ok caches => ⟨m, caches, last⟩
  | .error _ => ⟨m, s.caches, s.last⟩

def step (d : Heads) (s : Machine K) : Step K → Machine K
  | .call c =>
    { s with
      manager := s.manager.after c
      last := fun id p => if c = .free_request id then none else s.last id p }
  | .prefill peer batch order tokens =>
    match prepare_prefill_batch peer batch.requests s.manager with
    | .ok (some inputs) m =>
      write d order tokens s m inputs (prefill_last (d.shape m) batch tokens
        (padded_len inputs.h_or_tokens) s.last)
    | .ok none m => { s with manager := m }
    | .error _ m => { s with manager := m }
  | .decode peer batch order tokens =>
    match prepare_decode_batch peer batch.requests s.manager with
    | .ok (some inputs) m =>
      write d order tokens s m inputs
        (decode_last (d.shape m) batch tokens inputs.context_lengths s.last)
    | .ok none m => { s with manager := m }
    | .error _ m => { s with manager := m }

def run (d : Heads) (s : Machine K) (steps : List (Step K)) : Machine K := steps.foldl (step d) s

end Machine

open Machine

theorem place_eq_some {batch : Batch} {id : String} {i : Nat} {req : Request} :
    place batch id = some (i, req) ↔ batch.requests[i]? = some req ∧ req.request_id = id := by
  have hids : ∀ i, (batch.requests.map Request.request_id)[i]? =
      batch.requests[i]?.map Request.request_id := fun i => List.getElem?_map
  unfold place
  simp only [Option.map_eq_some_iff, Prod.mk.injEq, exists_eq_right_right]
  constructor
  · rintro ⟨hreq, rfl⟩
    refine ⟨hreq, ?_⟩
    have hget := hids ((batch.requests.map Request.request_id).idxOf id)
    rw [hreq] at hget
    obtain ⟨hlt, hval⟩ := List.getElem?_eq_some_iff.mp hget
    rw [List.getElem_idxOf] at hval
    exact hval.symm
  · rintro ⟨hreq, rfl⟩
    have hget := hids i
    rw [hreq] at hget
    obtain ⟨hlt, hval⟩ := List.getElem?_eq_some_iff.mp hget
    have hidx : (batch.requests.map Request.request_id).idxOf req.request_id = i := by
      have h := batch.distinct.idxOf_getElem i hlt
      rwa [hval] at h
    exact ⟨by rw [hidx]; exact hreq, hidx⟩

/-! ## The call of the attention kernel -/

/-- A rectangular array in row-major order. -/
def row_major (rows : List (List Nat)) (n : Nat) : Nat := rows.flatten[n]?.getD 0

theorem row_major_eq {rows : List (List Nat)} {n i j x : Nat} {row : List Nat}
    (hrect : ∀ r ∈ rows, r.length = n) (hrow : rows[i]? = some row) (hx : row[j]? = some x) :
    row_major rows (i * n + j) = x := by
  rw [row_major, getElem?_flatten hrect hrow hx]
  rfl

/-- The attention of a batch, one query row for each request. -/
def paged_attention [Field K] [LinearOrder K] (e : Exp K) (c : Shape) (order : Order)
    (batch_size num_heads : Nat) (queries : Nat → K) (caches : Caches K)
    (block_tables : List (List Nat)) (context_lengths : List Nat) (scale : K) (output : Nat → K) :
    Nat → K :=
  let max_blocks := (block_tables.headD []).length
  paged_attention_kernel e ⟨c, batch_size, num_heads, max_blocks, scale⟩ order
    ⟨queries, caches, row_major block_tables, fun b => context_lengths[b]?.getD 0⟩ output

/-! ## What is written stays written -/

/-- The cells of a position hold what was last written for it. -/
def Coherent (c : Shape) (m : CacheManager) (caches : Caches K)
    (last : String → Nat → Option (KV K)) : Prop :=
  ∀ id p kv, last id p = some kv → ∃ s, slot_of m id p = some s ∧
    ∀ head, head < c.num_kv_heads →
      (∀ i, i < c.k_head_dim →
        caches.key_cache (slot_cell c c.k_head_dim s head i) = kv.key head i) ∧
      (∀ i, i < c.v_head_dim →
        caches.value_cache (slot_cell c c.v_head_dim s head i) = kv.value head i)

theorem Coherent.grows {c : Shape} {m m' : CacheManager} {caches : Caches K}
    {last : String → Nat → Option (KV K)} (h : Coherent c m caches last)
    (hg : ∀ id, Grows id m m') : Coherent c m' caches last := by
  intro id p kv hkv
  obtain ⟨s, hs, hcells⟩ := h id p kv hkv
  exact ⟨s, (hg id).slot_of hs, hcells⟩

/-- A launch writes the tokens of a batch to the slots of their positions and touches nothing
else. `target t id p` says that token `t` is position `p` of the request. -/
theorem kernel_coherent {c : Shape} {m : CacheManager} {order : Order} {tokens : Tokens K}
    {slots : List Int} {caches : Caches K} {last last' : String → Nat → Option (KV K)}
    (target : Nat → String → Nat → Prop) (hm : BlocksOwned m) (hb : 0 < c.block_size)
    (hlen : slots.length = tokens.num_tokens)
    (hmap : ∀ t s : Nat, slots[t]? = some (s : Int) ↔
      ∃ id p, target t id p ∧ slot_of m id p = some s)
    (hone : ∀ t t' id p, target t id p → target t' id p → t = t')
    (hslot : ∀ t id p, target t id p → ∃ s, slot_of m id p = some s)
    (hlast : ∀ id p kv, last' id p = some kv → (∃ t, target t id p ∧ kv = tokens.kv c t) ∨
      (∀ t, ¬ target t id p) ∧ last id p = some kv)
    (h : Coherent c m caches last) :
    Coherent c m (reshape_and_cache_kernel c order tokens slots caches) last' := by
  have hslots : ∀ t t' s : Nat, slots[t]? = some (s : Int) → slots[t']? = some (s : Int) →
      t = t' := by
    intro t t' s ht ht'
    obtain ⟨id, p, htarget, hs⟩ := (hmap t s).mp ht
    obtain ⟨id', p', htarget', hs'⟩ := (hmap t' s).mp ht'
    obtain ⟨rfl, rfl⟩ := slot_of_inj hm hs hs'
    exact hone t t' id p htarget htarget'
  intro id p kv hkv
  rcases hlast id p kv hkv with ⟨t, htarget, rfl⟩ | ⟨hnone, hold⟩
  · obtain ⟨s, hs⟩ := hslot t id p htarget
    have hentry := (hmap t s).mpr ⟨id, p, htarget, hs⟩
    refine ⟨s, hs, ?_⟩
    intro head hh
    exact ⟨fun i hi => (kernel.spec (Or.inl rfl) hb hlen hslots hh hi).1 t s hentry,
      fun i hi => (kernel.spec (Or.inr rfl) hb hlen hslots hh hi).1 t s hentry⟩
  · obtain ⟨s, hs, hcells⟩ := h id p kv hold
    have hnot : (s : Int) ∉ slots := by
      intro hmem
      obtain ⟨t, ht⟩ := List.getElem?_of_mem hmem
      obtain ⟨id', p', htarget, hs'⟩ := (hmap t s).mp ht
      obtain ⟨rfl, rfl⟩ := slot_of_inj hm hs' hs
      exact hnone t htarget
    refine ⟨s, hs, ?_⟩
    intro head hh
    obtain ⟨hkey, hvalue⟩ := hcells head hh
    exact ⟨fun i hi => ((kernel.spec (Or.inl rfl) hb hlen hslots hh hi).2 s hnot).trans (hkey i hi),
      fun i hi => ((kernel.spec (Or.inr rfl) hb hlen hslots hh hi).2 s hnot).trans (hvalue i hi)⟩

/-! ## Steps -/

/-- What every reachable machine keeps. -/
structure Sound (d : Heads) (c : Config) (s : Machine K) : Prop where
  config : s.manager.config = c
  blocks : BlocksOwned s.manager
  slots : SlotsOwned s.manager
  coherent : Coherent (d.shape s.manager) s.manager s.caches s.last

theorem Sound.clean {d : Heads} {c : Config} {s : Machine K} (h : Sound d c s)
    (hb : c.needs_blocks = true) {m : CacheManager} (hclean : Clean s.manager m) :
    Sound d c { s with manager := m } := by
  have hgrows := hclean.grows
  obtain ⟨calls, _, rfl⟩ := hclean
  have hnb : s.manager.needs_blocks = true := by rw [CacheManager.needs_blocks, h.config]; exact hb
  obtain ⟨hblocks, hslots⟩ := owned_run s.manager calls hnb h.blocks h.slots
  have hcfg := run_config s.manager calls
  have hshape : d.shape (s.manager.run calls) = d.shape s.manager := by
    simp only [Heads.shape, CacheManager.block_size, hcfg]
  exact ⟨hcfg.trans h.config, hblocks, hslots, by rw [hshape]; exact h.coherent.grows hgrows⟩

theorem reshape_and_cache_mapped {c : Shape} {order : Order} {tokens : Tokens K} {caches : Caches K}
    {caches' : Caches K} {tables : List (List Nat)} {ctxs : List Nat} {slots : List Int}
    (h : reshape_and_cache c order tokens caches tables ctxs (some slots) = .ok caches') :
    slots.length = tokens.num_tokens ∧
      caches' = reshape_and_cache_kernel c order tokens slots caches := by
  simp only [reshape_and_cache] at h
  split at h
  · cases h
  · rename_i hlen
    exact ⟨not_not.mp hlen, (Except.ok.inj h).symm⟩

theorem reshape_and_cache_decode {c : Shape} {order : Order} {tokens : Tokens K} {caches : Caches K}
    {caches' : Caches K} {tables : List (List Nat)} {ctxs : List Nat} {slots : List Int}
    (hslots : decode_slots c.block_size tables ctxs = .ok slots)
    (h : reshape_and_cache c order tokens caches tables ctxs none = .ok caches') :
    slots.length = tokens.num_tokens ∧
      caches' = reshape_and_cache_kernel c order tokens slots caches := by
  simp only [reshape_and_cache, hslots] at h
  split at h
  · cases h
  · rename_i hlen
    exact ⟨not_not.mp hlen, (Except.ok.inj h).symm⟩

/-- A prefill batch writes each position of its requests once, and its padding nowhere. -/
theorem prefill_sound {d : Heads} {c : Config} {s : Machine K} {peer : Peer} {batch : Batch}
    {order : Order} {tokens : Tokens K} {inputs : BatchInputs} {m : CacheManager}
    {caches' : Caches K} (hb : c.needs_blocks = true) (h : Sound d c s)
    (hprep : prepare_prefill_batch peer batch.requests s.manager = .ok (some inputs) m)
    (hwrite : reshape_and_cache (d.shape m) order tokens s.caches inputs.block_tables
      inputs.context_lengths inputs.slot_mapping = .ok caches') :
    Sound d c ⟨m, caches', prefill_last (d.shape m) batch tokens
      (padded_len inputs.h_or_tokens) s.last⟩ := by
  have hnb : s.manager.needs_blocks = true := by rw [CacheManager.needs_blocks, h.config]; exact hb
  have hm := h.clean hb (Keeps.ok (prepare_prefill_batch_clean _ _ _) (Clean.refl _) hprep)
  obtain ⟨-, slots, hmapping, hlen, -, hentry⟩ := prefill_mapping_follows_slots hnb hprep
  rw [hmapping] at hwrite
  obtain ⟨hnum, rfl⟩ := reshape_and_cache_mapped hwrite
  generalize padded_len inputs.h_or_tokens = n at *
  refine ⟨hm.config, hm.blocks, hm.slots, ?_⟩
  apply kernel_coherent (fun t id p => ∃ i req, place batch id = some (i, req) ∧ p < n ∧
    p < req.total_length ∧ t = i * n + p) hm.blocks m.config.block_size_pos hnum
  · intro t s'
    constructor
    · intro ht
      have htlt := (List.getElem?_eq_some_iff.mp ht).1
      rw [hlen] at htlt
      have hn : 0 < n := Nat.pos_of_ne_zero (by rintro rfl; simp at htlt)
      have hi : t / n < batch.requests.length := (Nat.div_lt_iff_lt_mul hn).mpr htlt
      have hp := Nat.mod_lt t hn
      have ht' : t / n * n + t % n = t := by rw [Nat.mul_comm]; exact Nat.div_add_mod t n
      obtain ⟨hreal, hpad⟩ := hentry (t / n) _ (List.getElem?_eq_getElem hi) (t % n) hp
      rw [ht', ht] at hreal hpad
      by_cases hlt : t % n < (batch.requests[t / n]).total_length
      · obtain ⟨s'', hs'', he⟩ := hreal hlt
        refine ⟨_, t % n, ⟨t / n, _, place_eq_some.mpr ⟨List.getElem?_eq_getElem hi, rfl⟩, hp, hlt,
          ht'.symm⟩, ?_⟩
        rw [hs'']
        congr 1
        exact (Int.ofNat.inj (Option.some.inj he)).symm
      · have hneg := Option.some.inj (hpad hlt)
        omega
    · rintro ⟨id, p, ⟨i, req, hplace, hp, hlt, rfl⟩, hs'⟩
      obtain ⟨hreq, rfl⟩ := place_eq_some.mp hplace
      obtain ⟨s'', hs'', he⟩ := (hentry i req hreq p hp).1 hlt
      rw [hs''] at hs'
      cases hs'
      exact he
  · rintro t t' id p ⟨i, req, hplace, _, _, rfl⟩ ⟨i', req', hplace', _, _, rfl⟩
    rw [hplace] at hplace'
    cases hplace'
    rfl
  · rintro t id p ⟨i, req, hplace, hp, hlt, rfl⟩
    obtain ⟨hreq, rfl⟩ := place_eq_some.mp hplace
    obtain ⟨s'', hs'', -⟩ := (hentry i req hreq p hp).1 hlt
    exact ⟨s'', hs''⟩
  · intro id p kv hkv
    simp only [prefill_last] at hkv
    rcases hplace : place batch id with _ | ⟨i, req⟩
    · rw [hplace] at hkv
      exact Or.inr ⟨(by rintro t ⟨i, req, hsome, -⟩; cases hsome), hkv⟩
    · rw [hplace] at hkv
      simp only at hkv
      split at hkv
      · rename_i hlt
        exact Or.inl ⟨i * n + p, ⟨i, req, rfl, hlt.1, hlt.2, rfl⟩, (Option.some.inj hkv).symm⟩
      · rename_i hnot
        refine Or.inr ⟨?_, hkv⟩
        rintro t ⟨i', req', hsome, hp, hlt, -⟩
        cases hsome
        exact hnot ⟨hp, hlt⟩
  · exact hm.coherent

/-- A decode batch writes the last position of each of its requests. -/
theorem decode_sound {d : Heads} {c : Config} {s : Machine K} {peer : Peer} {batch : Batch}
    {order : Order} {tokens : Tokens K} {inputs : BatchInputs} {m : CacheManager}
    {caches' : Caches K} (hb : c.needs_blocks = true) (h : Sound d c s)
    (hprep : prepare_decode_batch peer batch.requests s.manager = .ok (some inputs) m)
    (hwrite : reshape_and_cache (d.shape m) order tokens s.caches inputs.block_tables
      inputs.context_lengths inputs.slot_mapping = .ok caches') :
    Sound d c ⟨m, caches', decode_last (d.shape m) batch tokens inputs.context_lengths s.last⟩ := by
  have hnb : s.manager.needs_blocks = true := by rw [CacheManager.needs_blocks, h.config]; exact hb
  have hm := h.clean hb (Keeps.ok (prepare_decode_batch_clean _ _ _) (Clean.refl _) hprep)
  obtain ⟨hrun, slots, hslots, hlen, hentry⟩ :=
    decode_slots_follow_slots hnb h.blocks h.slots hprep
  have hbs : s.manager.block_size = (d.shape m).block_size := by
    show s.manager.block_size = m.block_size
    rw [hrun, CacheManager.block_size, CacheManager.block_size, run_config]
  obtain ⟨_, _, hnone, _⟩ := prepare_decode_batch.spec hprep
  rw [hbs] at hslots
  rw [hnone] at hwrite
  obtain ⟨hnum, rfl⟩ := reshape_and_cache_decode hslots hwrite
  refine ⟨hm.config, hm.blocks, hm.slots, ?_⟩
  apply kernel_coherent (fun t id p => ∃ req, place batch id = some (t, req) ∧
    inputs.context_lengths[t]? = some (p + 1)) hm.blocks m.config.block_size_pos hnum
  · intro t s'
    constructor
    · intro ht
      have htlt := (List.getElem?_eq_some_iff.mp ht).1
      rw [hlen] at htlt
      obtain ⟨p, s'', hctx, -, hs'', he⟩ := hentry t _ (List.getElem?_eq_getElem htlt)
      refine ⟨_, p, ⟨_, place_eq_some.mpr ⟨List.getElem?_eq_getElem htlt, rfl⟩, hctx⟩, ?_⟩
      rw [ht] at he
      rw [hs'']
      congr 1
      exact (Int.ofNat.inj (Option.some.inj he)).symm
    · rintro ⟨id, p, ⟨req, hplace, hctx⟩, hs'⟩
      obtain ⟨hreq, rfl⟩ := place_eq_some.mp hplace
      obtain ⟨p', s'', hctx', -, hs'', he⟩ := hentry t req hreq
      rw [hctx] at hctx'
      cases hctx'
      rw [hs''] at hs'
      cases hs'
      exact he
  · rintro t t' id p ⟨req, hplace, _⟩ ⟨req', hplace', _⟩
    rw [hplace] at hplace'
    cases hplace'
    rfl
  · rintro t id p ⟨req, hplace, hctx⟩
    obtain ⟨hreq, rfl⟩ := place_eq_some.mp hplace
    obtain ⟨p', s'', hctx', -, hs'', -⟩ := hentry t req hreq
    rw [hctx] at hctx'
    cases hctx'
    exact ⟨s'', hs''⟩
  · intro id p kv hkv
    simp only [decode_last] at hkv
    rcases hplace : place batch id with _ | ⟨i, req⟩
    · rw [hplace] at hkv
      exact Or.inr ⟨(by rintro t ⟨req, hsome, -⟩; cases hsome), hkv⟩
    · rw [hplace] at hkv
      simp only at hkv
      split at hkv
      · rename_i hctx
        exact Or.inl ⟨i, ⟨req, rfl, hctx⟩, (Option.some.inj hkv).symm⟩
      · rename_i hnot
        refine Or.inr ⟨?_, hkv⟩
        rintro t ⟨req', hsome, hctx⟩
        cases hsome
        exact hnot hctx
  · exact hm.coherent

/-- Each step keeps the machine sound. -/
theorem step_sound {d : Heads} {c : Config} {s : Machine K} (hb : c.needs_blocks = true)
    (h : Sound d c s) (st : Step K) : Sound d c (s.step d st) := by
  cases st with
  | call call =>
    have hnb : s.manager.needs_blocks = true := by
      rw [CacheManager.needs_blocks, h.config]; exact hb
    obtain ⟨hblocks, hslots⟩ := owned_after s.manager call hnb h.blocks h.slots
    have hcfg := after_config s.manager call
    have hshape : d.shape (s.manager.after call) = d.shape s.manager := by
      simp only [Heads.shape, CacheManager.block_size, hcfg]
    refine ⟨hcfg.trans h.config, hblocks, hslots, ?_⟩
    intro id p kv hkv
    simp only [Machine.step] at hkv
    split at hkv
    · cases hkv
    · rename_i hfree
      obtain ⟨slot, hslot, hcells⟩ := h.coherent id p kv hkv
      refine ⟨slot, (after_grows s.manager id call hfree).slot_of hslot, ?_⟩
      simp only [Machine.step, hshape]
      exact hcells
  | prefill peer batch order tokens =>
    simp only [Machine.step]
    rcases hprep : prepare_prefill_batch peer batch.requests s.manager with ⟨_ | inputs, m⟩ | ⟨e, m⟩
    · exact h.clean hb (Keeps.ok (prepare_prefill_batch_clean _ _ _) (Clean.refl _) hprep)
    · simp only [Machine.write]
      rcases hwrite : reshape_and_cache (d.shape m) order tokens s.caches inputs.block_tables
        inputs.context_lengths inputs.slot_mapping with e | caches'
      · exact h.clean hb (Keeps.ok (prepare_prefill_batch_clean _ _ _) (Clean.refl _) hprep)
      · exact prefill_sound hb h hprep hwrite
    · exact h.clean hb (Keeps.error (prepare_prefill_batch_clean _ _ _) (Clean.refl _) hprep)
  | decode peer batch order tokens =>
    simp only [Machine.step]
    rcases hprep : prepare_decode_batch peer batch.requests s.manager with ⟨_ | inputs, m⟩ | ⟨e, m⟩
    · exact h.clean hb (Keeps.ok (prepare_decode_batch_clean _ _ _) (Clean.refl _) hprep)
    · simp only [Machine.write]
      rcases hwrite : reshape_and_cache (d.shape m) order tokens s.caches inputs.block_tables
        inputs.context_lengths inputs.slot_mapping with e | caches'
      · exact h.clean hb (Keeps.ok (prepare_decode_batch_clean _ _ _) (Clean.refl _) hprep)
      · exact decode_sound hb h hprep hwrite
    · exact h.clean hb (Keeps.error (prepare_decode_batch_clean _ _ _) (Clean.refl _) hprep)

/-- Every run from an empty manager stays sound. -/
theorem run_sound {d : Heads} {c : Config} (caches : Caches K) (hb : c.needs_blocks = true)
    (steps : List (Step K)) : Sound d c ((Machine.init c caches).run d steps) := by
  have hall : ∀ (s : Machine K), Sound d c s → Sound d c (s.run d steps) := by
    induction steps with
    | nil => exact fun s hs => hs
    | cons st rest ih => exact fun s hs => ih (s.step d st) (step_sound hb hs st)
  apply hall
  refine ⟨rfl, blocksOwned_init c hb, slotsOwned_init c, ?_⟩
  intro id p kv hkv
  cases hkv

/-! ## The attention over what was last written -/

/-- The score of a query with the key of a position. -/
def plain_score [Field K] (d : Heads) (q : Nat → K) (scale : K) (kv : KV K) (kv_head : Nat) : K :=
  (∑ i ∈ Finset.range d.k_head_dim, q i * kv.key kv_head i) * scale

/-- After any run of calls, prefill batches and decode batches, the kernel's output for a request
is the softmax average of the values over the positions of its context, with the keys and the
values that were last written for those positions. The other rows of the batch, the padding of
the block tables and the order of the threads do not matter. A decode batch passes the kernel
such tables. -/
theorem paged_attention_is_plain_attention [Field K] [LinearOrder K] (e : Exp K) (c : Config)
    (hb : c.needs_blocks = true) (d : Heads) (hk : d.k_head_dim ≤ 256) (hv : d.v_head_dim ≤ 256)
    (caches : Caches K) (steps : List (Step K)) :
    let s := (Machine.init c caches).run d steps
    (∀ (order : Order) (batch_size num_heads : Nat) (queries : Nat → K)
      (block_tables : List (List Nat)) (context_lengths : List Nat) (scale : K) (output : Nat → K)
      (batch len : Nat) (id : String) (pad : List Nat) (kv : Nat → KV K),
    d.num_kv_heads ∣ num_heads →
    batch < batch_size →
    (∀ row ∈ block_tables, row.length = (block_tables.headD []).length) →
    block_tables[batch]? = some (s.manager.get_block_table id ++ pad) →
    context_lengths[batch]? = some len →
    1 ≤ len →
    (∀ p, p < len → s.last id p = some (kv p)) →
    ∀ head i, head < num_heads → i < d.v_head_dim →
      let kv_head := head / (num_heads / d.num_kv_heads)
      let q := fun j => queries (batch * num_heads * d.k_head_dim + head * d.k_head_dim + j)
      paged_attention e (d.shape s.manager) order batch_size num_heads queries s.caches block_tables
          context_lengths scale output
          (batch * num_heads * d.v_head_dim + head * d.v_head_dim + i) =
        (∑ p ∈ Finset.range len,
          e.exp (plain_score d q scale (kv p) kv_head) * (kv p).value kv_head i) /
        ∑ p ∈ Finset.range len, e.exp (plain_score d q scale (kv p) kv_head)) ∧
    (∀ (peer : Peer) (batch : Batch) (inputs : BatchInputs) (m : CacheManager),
      prepare_decode_batch peer batch.requests s.manager = .ok (some inputs) m →
      (∀ row ∈ inputs.block_tables, row.length = (inputs.block_tables.headD []).length) ∧
        ∀ (i : Nat) (req : Request), batch.requests[i]? = some req →
          (∃ pad, inputs.block_tables[i]? = some (m.get_block_table req.request_id ++ pad)) ∧
            inputs.context_lengths[i]? = m.context_lengths.get? req.request_id) := by
  intro s
  have hs : Sound d c s := run_sound caches hb steps
  refine ⟨?_, fun peer batch inputs m h => decode_batch_tables (by
    rw [CacheManager.needs_blocks, hs.config]; exact hb) hs.blocks hs.slots batch.distinct h⟩
  intro order batch_size num_heads queries block_tables context_lengths scale output batch len id
    pad kv hgroup hbatch hrect hrow hctx hlen hlast head i hh hi kv_head q
  let a : Launch K := ⟨d.shape s.manager, batch_size, num_heads, (block_tables.headD []).length, scale⟩
  let inp : Inputs K :=
    ⟨queries, s.caches, row_major block_tables, fun b => context_lengths[b]?.getD 0⟩
  have hcontext : inp.context_lengths batch = len := by
    show context_lengths[batch]?.getD 0 = len
    rw [hctx]
    rfl
  have hkv_head : kv_head < d.num_kv_heads := by
    obtain ⟨g, rfl⟩ := hgroup
    have hpos : 0 < d.num_kv_heads := Nat.pos_of_ne_zero (by rintro h0; simp [h0] at hh)
    show head / (d.num_kv_heads * g / d.num_kv_heads) < d.num_kv_heads
    rw [Nat.mul_div_cancel_left g hpos]
    exact Nat.div_lt_of_lt_mul (by rw [Nat.mul_comm]; exact hh)
  -- The row of the block tables leads to the slot that the manager gives a position.
  have hslot : ∀ p, p < len → ∀ slot, slot_of s.manager id p = some slot →
      position_slot a inp batch p = slot := by
    intro p hp slot hslot
    obtain ⟨t, b, ht, hblock, rfl⟩ := slot_of_eq_some.mp hslot
    have htable : s.manager.get_block_table id = t := by rw [get_block_table, ht]; rfl
    rw [htable] at hrow
    have hentry : (t ++ pad)[p / s.manager.block_size]? = some b := by
      rw [List.getElem?_append_left (List.getElem?_eq_some_iff.mp hblock).1, hblock]
    show row_major block_tables (batch * (block_tables.headD []).length +
      p / s.manager.block_size) * s.manager.block_size + p % s.manager.block_size = _
    rw [row_major_eq hrect hrow hentry]
  have hcells : ∀ p, p < len →
      score_at a inp batch head p = plain_score d q scale (kv p) kv_head ∧
        value_at a inp batch head i p = (kv p).value kv_head i := by
    intro p hp
    obtain ⟨slot, hs', hcell⟩ := hs.coherent id p (kv p) (hlast p hp)
    obtain ⟨hkey, hvalue⟩ := hcell kv_head hkv_head
    refine ⟨?_, ?_⟩
    · rw [score_at, plain_score, hslot p hp slot hs']
      congr 1
      apply Finset.sum_congr rfl
      intro j hj
      rw [← hkey j (Finset.mem_range.mp hj)]
      rfl
    · rw [value_at, hslot p hp slot hs']
      exact hvalue i hi
  have hspec := paged_attention_kernel.spec (e := e) (a := a) order (i := i)
    output s.manager.config.block_size_pos hk hv hbatch hh hi
    (by rw [hcontext]; exact hlen)
  rw [hcontext] at hspec
  refine hspec.trans ?_
  congr 1
  · apply Finset.sum_congr rfl
    intro p hp
    obtain ⟨hscore, hvalue⟩ := hcells p (Finset.mem_range.mp hp)
    rw [hscore, hvalue]
  · apply Finset.sum_congr rfl
    intro p hp
    rw [(hcells p (Finset.mem_range.mp hp)).1]

/-- A prompt of two tokens and a prompt of one, in one prefill batch. -/
def two_prompts : Batch where
  requests := [
    { request_id := "a", prompt_len := 2, input_ids := [5, 6], kind := .initial 4 8 },
    { request_id := "b", prompt_len := 1, input_ids := [7], kind := .initial 4 8 }]
  distinct := by decide

theorem two_prompts_attention :
    let steps := [Step.prefill ⟨true, true, 0⟩ two_prompts ⟨id, fun _ => .refl _⟩
      ⟨4, fun n => (n : ℝ), fun n => (n : ℝ)⟩]
    let s := (Machine.init hybrid ⟨fun _ => 0, fun _ => 0⟩).run ⟨1, 1, 1⟩ steps
    paged_attention ⟨Real.exp, Real.exp_add, Real.exp_pos⟩ (Heads.shape ⟨1, 1, 1⟩ s.manager)
        ⟨id, fun _ => .refl _⟩ 1 2 (fun _ => 1) s.caches [s.manager.get_block_table "a" ++ [0]] [2]
        1 (fun _ => 0) 1 =
      (Real.exp 0 * 0 + Real.exp 1 * 1) / (Real.exp 0 + Real.exp 1) := by
  intro steps s
  have h := (paged_attention_is_plain_attention ⟨Real.exp, Real.exp_add, Real.exp_pos⟩ hybrid
    (by decide) ⟨1, 1, 1⟩ (by decide) (by decide) ⟨fun _ => 0, fun _ => 0⟩ steps).1
    ⟨id, fun _ => .refl _⟩ 1 2 (fun _ => 1) [s.manager.get_block_table "a" ++ [0]] [2] 1
    (fun _ => 0) 0 2 "a" [0] (fun p => Tokens.kv (Heads.shape ⟨1, 1, 1⟩ s.manager)
      ⟨4, fun n => (n : ℝ), fun n => (n : ℝ)⟩ p)
    (by decide) (by decide) (by simp) rfl rfl (by decide)
    (fun p hp => match p, hp with
      | 0, _ => rfl
      | 1, _ => rfl)
    1 0 (by decide) (by decide)
  simpa [plain_score, Tokens.kv, src_idx, Heads.shape, Finset.sum_range_succ] using h

end parallax.metal.paged_attention
