-- The attention kernel (parallax/metal/paged_attention/paged_attention.metal).
-- A group of 32 lanes computes one head of one request: the lanes share out
-- the dimensions, and the loop over the context is an online softmax.
import InferenceMesh.Kernel.ReshapeAndCache
import InferenceMesh.Lib.Lanes
import InferenceMesh.Lib.OnlineSoftmax

open scatter_memory lanes online_softmax

namespace parallax.metal.paged_attention

set_option linter.unusedSectionVars false

variable {K : Type} [Field K] [LinearOrder K]

/-- The constants of a launch of the attention kernel. -/
structure Launch (K : Type) where
  shape : Shape
  batch_size : Nat
  num_heads : Nat
  max_blocks : Nat
  scale : K

/-- The arrays that the kernel reads. The queries have shape (batch, num_heads, k_head_dim) and
the block tables have shape (batch, max_blocks), in row-major order. -/
structure Inputs (K : Type) where
  queries : Nat → K
  caches : Caches K
  block_tables : Nat → Nat
  context_lengths : Nat → Nat

/-! ## One lane -/

/-- The part of the query that a lane loads: element `i` stands at `i / 32`. -/
def q_vec (a : Launch K) (inp : Inputs K) (batch_idx head_idx lane : Nat) : Nat → K :=
  let q_offset := batch_idx * a.num_heads * a.shape.k_head_dim + head_idx * a.shape.k_head_dim
  (strided 32 lane a.shape.k_head_dim).foldl
    (fun q i => if i < 256 then Function.update q (i / 32) (inp.queries (q_offset + i)) else q)
    (fun _ => 0)

/-- The part of a dot product that a lane adds up. -/
def partial_score (a : Launch K) (inp : Inputs K) (q : Nat → K) (k_base lane t : Nat) : K :=
  (strided 32 lane a.shape.k_head_dim).foldl
    (fun score i =>
      let k_val := inp.caches.key_cache (k_base + t * a.shape.k_head_dim + i)
      if i < 256 then score + q (i / 32) * k_val else score)
    0

/-- The score of one token: the lanes' parts summed up, times the scale. -/
def token_score (a : Launch K) (inp : Inputs K) (batch_idx head_idx k_base t : Nat) : K :=
  (∑ lane ∈ Finset.range 32,
    partial_score a inp (q_vec a inp batch_idx head_idx lane) k_base lane t) * a.scale

/-- The running statistics of a lane and its part of the accumulator. -/
structure Lane (K : Type) where
  m_i : WithBot K
  l_i : K
  acc_vec : Nat → K

def Lane.start : Lane K := ⟨⊥, 0, fun _ => 0⟩

/-- One token: the softmax update, and the values of the lane's dimensions. -/
def Lane.token (e : Exp K) (a : Launch K) (inp : Inputs K) (lane v_base t : Nat) (score : K)
    (s : Lane K) : Lane K :=
  let m_i := raise s.m_i score
  let alpha := e.gap s.m_i m_i
  let beta := e.exp (score - m_i)
  { m_i
    l_i := s.l_i * alpha + beta
    acc_vec := (strided 32 lane a.shape.v_head_dim).foldl
      (fun acc i =>
        let v_val := inp.caches.value_cache (v_base + t * a.shape.v_head_dim + i)
        if i < 256 then Function.update acc (i / 32) (acc (i / 32) * alpha + v_val * beta) else acc)
      s.acc_vec }

def kv_head_idx (a : Launch K) (head_idx : Nat) : Nat :=
  head_idx / (a.num_heads / a.shape.num_kv_heads)

/-- The base address of a block for one head, in a cache with `dim` cells for each token. -/
def block_base (a : Launch K) (dim block_num head_idx : Nat) : Nat :=
  let block_stride := a.shape.num_kv_heads * a.shape.block_size * dim
  let head_stride := a.shape.block_size * dim
  block_num * block_stride + kv_head_idx a head_idx * head_stride

def num_context_blocks (a : Launch K) (context_len : Nat) : Nat :=
  (context_len + a.shape.block_size - 1) / a.shape.block_size

def tokens_in_block (a : Launch K) (context_len b : Nat) : Nat :=
  if b = num_context_blocks a context_len - 1 then
    if context_len % a.shape.block_size = 0 then a.shape.block_size
    else context_len % a.shape.block_size
  else a.shape.block_size

/-- One block of the context: its tokens, one after the other. -/
def Lane.block (e : Exp K) (a : Launch K) (inp : Inputs K) (batch_idx head_idx lane : Nat)
    (s : Lane K) (b : Nat) : Lane K :=
  let block_num := inp.block_tables (batch_idx * a.max_blocks + b)
  let k_base := block_base a a.shape.k_head_dim block_num head_idx
  let v_base := block_base a a.shape.v_head_dim block_num head_idx
  (List.range (tokens_in_block a (inp.context_lengths batch_idx) b)).foldl
    (fun s t => s.token e a inp lane v_base t (token_score a inp batch_idx head_idx k_base t)) s

/-- All blocks of the context. -/
def Lane.blocks (e : Exp K) (a : Launch K) (inp : Inputs K) (batch_idx head_idx lane : Nat) :
    Lane K :=
  (List.range (num_context_blocks a (inp.context_lengths batch_idx))).foldl
    (Lane.block e a inp batch_idx head_idx lane) .start

/-- The stores of one thread into the output, of shape (batch, num_heads, v_head_dim). -/
def thread_output (e : Exp K) (a : Launch K) (inp : Inputs K) (gid : Thread) : List (Nat × K) :=
  let head_idx := gid.1 / 32
  let lane := gid.1 % 32
  let batch_idx := gid.2
  if head_idx ≥ a.num_heads then []
  else
    let s := Lane.blocks e a inp batch_idx head_idx lane
    let out_offset := batch_idx * a.num_heads * a.shape.v_head_dim + head_idx * a.shape.v_head_dim
    (strided 32 lane a.shape.v_head_dim).filterMap
      (fun i => if i < 256 then some (out_offset + i, s.acc_vec (i / 32) / s.l_i) else none)

/-- The output array after a launch, in any order of the threads. -/
def paged_attention_kernel (e : Exp K) (a : Launch K) (order : Order) (inp : Inputs K)
    (output : Nat → K) : Nat → K :=
  scatter ((order.arrange (grid (a.num_heads * 32) a.batch_size)).flatMap (thread_output e a inp))
    output

/-! ## What the lanes compute -/

/-- An element of the query of one head. -/
def query (a : Launch K) (inp : Inputs K) (batch_idx head_idx i : Nat) : K :=
  inp.queries (batch_idx * a.num_heads * a.shape.k_head_dim + head_idx * a.shape.k_head_dim + i)

/-- Each lane finds the query elements of its dimensions in its array. -/
theorem q_vec.spec {a : Launch K} {inp : Inputs K} {batch head lane i : Nat} (hl : lane < 32)
    (hd : a.shape.k_head_dim ≤ 256) (hi : i ∈ strided 32 lane a.shape.k_head_dim) :
    q_vec a inp batch head lane (i / 32) = query a inp batch head i := by
  have hloop : q_vec a inp batch head lane = (strided 32 lane a.shape.k_head_dim).foldl
      (fun q i => Function.update q (i / 32) (query a inp batch head i)) (fun _ => 0) := by
    apply List.foldl_ext
    intro q j hj
    have hlt := ((mem_strided hl).mp hj).1
    rw [if_pos (by omega)]
    rfl
  rw [hloop]
  exact foldl_update_of_mem (fun i => i / 32) (fun i _ => query a inp batch head i) _ _
    (nodup_strided_div hl) hi

/-- The lanes together compute the dot product. -/
theorem token_score.spec {a : Launch K} {inp : Inputs K} (batch head k_base t : Nat)
    (hd : a.shape.k_head_dim ≤ 256) :
    token_score a inp batch head k_base t = (∑ i ∈ Finset.range a.shape.k_head_dim,
      query a inp batch head i * inp.caches.key_cache (k_base + t * a.shape.k_head_dim + i)) *
        a.scale := by
  have hpart : ∀ lane ∈ Finset.range 32,
      partial_score a inp (q_vec a inp batch head lane) k_base lane t =
        ((strided 32 lane a.shape.k_head_dim).map (fun i => query a inp batch head i *
          inp.caches.key_cache (k_base + t * a.shape.k_head_dim + i))).sum := by
    intro lane hlane
    have hl := Finset.mem_range.mp hlane
    rw [← zero_add (List.sum _), ← foldl_add]
    apply List.foldl_ext
    intro score i hi
    have hlt := ((mem_strided hl).mp hi).1
    rw [if_pos (by omega), q_vec.spec hl hd hi]
  rw [token_score, Finset.sum_congr rfl hpart, sum_strided (by decide)]

/-- The running statistics with one cell of the accumulator. -/
def Lane.channel (s : Lane K) (j : Nat) : Running K := ⟨s.m_i, s.l_i, s.acc_vec j⟩

/-- A token is one step of the online softmax in each of the lane's dimensions. -/
theorem Lane.token_channel {e : Exp K} {a : Launch K} {inp : Inputs K} {lane i : Nat}
    (hl : lane < 32) (hd : a.shape.v_head_dim ≤ 256) (hi : i ∈ strided 32 lane a.shape.v_head_dim)
    (v_base t : Nat) (score : K) (s : Lane K) :
    (s.token e a inp lane v_base t score).channel (i / 32) = (s.channel (i / 32)).step e
      (score, inp.caches.value_cache (v_base + t * a.shape.v_head_dim + i)) := by
  have hloop : (s.token e a inp lane v_base t score).acc_vec =
      (strided 32 lane a.shape.v_head_dim).foldl
        (fun acc i => Function.update acc (i / 32)
          (acc (i / 32) * e.gap s.m_i (raise s.m_i score) +
            inp.caches.value_cache (v_base + t * a.shape.v_head_dim + i) *
              e.exp (score - raise s.m_i score))) s.acc_vec := by
    apply List.foldl_ext
    intro acc j hj
    have hlt := ((mem_strided hl).mp hj).1
    rw [if_pos (by omega)]
  have hcell := foldl_update_of_mem (fun i => i / 32)
    (fun i x => x * e.gap s.m_i (raise s.m_i score) +
      inp.caches.value_cache (v_base + t * a.shape.v_head_dim + i) *
        e.exp (score - raise s.m_i score))
    _ s.acc_vec (nodup_strided_div hl) hi
  rw [Lane.channel, hloop, hcell]
  rfl

/-! ## The loop over the context -/

/-- The blocks and offsets that the two loops visit. -/
def visited (a : Launch K) (c : Nat) : List (Nat × Nat) :=
  (List.range (num_context_blocks a c)).flatMap
    (fun b => (List.range (tokens_in_block a c b)).map (fun t => (b, t)))

theorem full_blocks (bs n : Nat) (hb : 0 < bs) :
    (List.range n).flatMap (fun b => (List.range bs).map (fun t => (b, t))) =
      (List.range (n * bs)).map (fun p => (p / bs, p % bs)) := by
  induction n with
  | zero => simp
  | succ n ih =>
    rw [List.range_succ, List.flatMap_append, ih, Nat.succ_mul, List.range_add, List.map_append]
    congr 1
    rw [List.flatMap_singleton, List.map_map]
    apply List.map_congr_left
    intro t ht
    have htb := List.mem_range.mp ht
    simp only [Function.comp, Nat.mul_comm n bs]
    rw [Nat.mul_add_div hb, Nat.mul_add_mod, Nat.div_eq_of_lt htb, Nat.mod_eq_of_lt htb,
      Nat.add_zero]

/-- The loops visit each position of the context once, in order. -/
theorem visited_eq (a : Launch K) (c : Nat) (hb : 0 < a.shape.block_size) (hc : 0 < c) :
    visited a c = (List.range c).map (fun p => (p / a.shape.block_size, p % a.shape.block_size)) := by
  obtain ⟨n, r, hr, hrb, rfl⟩ : ∃ n r, 0 < r ∧ r ≤ a.shape.block_size ∧
      c = n * a.shape.block_size + r := by
    have h := Nat.div_add_mod (c - 1) a.shape.block_size
    have hlt := Nat.mod_lt (c - 1) hb
    rw [Nat.mul_comm] at h
    exact ⟨(c - 1) / a.shape.block_size, (c - 1) % a.shape.block_size + 1, by omega, by omega,
      by omega⟩
  have hblocks : num_context_blocks a (n * a.shape.block_size + r) = n + 1 := by
    have hsum : n * a.shape.block_size + r + a.shape.block_size - 1 =
        a.shape.block_size * (n + 1) + (r - 1) := by
      rw [Nat.mul_succ, Nat.mul_comm n]
      omega
    rw [num_context_blocks, hsum, Nat.mul_add_div hb, Nat.div_eq_of_lt (by omega), Nat.add_zero]
  have hlast : tokens_in_block a (n * a.shape.block_size + r) n = r := by
    rw [tokens_in_block, hblocks, if_pos (by omega), Nat.mul_comm, Nat.mul_add_mod]
    rcases Nat.lt_or_eq_of_le hrb with hlt | rfl
    · rw [Nat.mod_eq_of_lt hlt, if_neg (by omega)]
    · rw [Nat.mod_self, if_pos rfl]
  have hfull : ∀ b ∈ List.range n,
      tokens_in_block a (n * a.shape.block_size + r) b = a.shape.block_size := by
    intro b hbn
    rw [tokens_in_block, hblocks, if_neg (by have := List.mem_range.mp hbn; omega)]
  have hbefore : (List.range n).flatMap (fun b =>
      (List.range (tokens_in_block a (n * a.shape.block_size + r) b)).map (fun t => (b, t))) =
        (List.range (n * a.shape.block_size)).map
          (fun p => (p / a.shape.block_size, p % a.shape.block_size)) := by
    rw [← full_blocks _ n hb]
    apply List.flatMap_congr
    intro b hbn
    rw [hfull b hbn]
  rw [visited, hblocks, List.range_succ, List.flatMap_append, List.flatMap_singleton, hlast,
    hbefore, List.range_add, List.map_append, List.map_map]
  congr 1
  apply List.map_congr_left
  intro t ht
  have htb : t < a.shape.block_size := lt_of_lt_of_le (List.mem_range.mp ht) hrb
  simp only [Function.comp, Nat.mul_comm n a.shape.block_size]
  rw [Nat.mul_add_div hb, Nat.mul_add_mod, Nat.div_eq_of_lt htb, Nat.mod_eq_of_lt htb, Nat.add_zero]

/-- The slot that the kernel reads for a position, by its row of the block tables. -/
def position_slot (a : Launch K) (inp : Inputs K) (batch_idx p : Nat) : Nat :=
  inp.block_tables (batch_idx * a.max_blocks + p / a.shape.block_size) * a.shape.block_size +
    p % a.shape.block_size

/-- The reader's address of a cell is the writer's address of it. -/
theorem block_base_eq (a : Launch K) (inp : Inputs K) (batch head dim p i : Nat)
    (hb : 0 < a.shape.block_size) :
    block_base a dim (inp.block_tables (batch * a.max_blocks + p / a.shape.block_size)) head +
        p % a.shape.block_size * dim + i =
      slot_cell a.shape dim (position_slot a inp batch p) (kv_head_idx a head) i := by
  have hmod := Nat.mod_lt p hb
  rw [slot_cell, position_slot, dest_idx, Nat.mul_comm (inp.block_tables _), Nat.mul_add_div hb,
    Nat.mul_add_mod, Nat.div_eq_of_lt hmod, Nat.mod_eq_of_lt hmod, Nat.add_zero, block_base]
  simp only [Nat.mul_assoc]

/-- The score of a position: the scaled dot product of the query with the key in its slot. -/
def score_at (a : Launch K) (inp : Inputs K) (batch_idx head_idx p : Nat) : K :=
  (∑ i ∈ Finset.range a.shape.k_head_dim, query a inp batch_idx head_idx i *
    inp.caches.key_cache (slot_cell a.shape a.shape.k_head_dim (position_slot a inp batch_idx p)
      (kv_head_idx a head_idx) i)) * a.scale

/-- The value of a position in one dimension. -/
def value_at (a : Launch K) (inp : Inputs K) (batch_idx head_idx i p : Nat) : K :=
  inp.caches.value_cache (slot_cell a.shape a.shape.v_head_dim (position_slot a inp batch_idx p)
    (kv_head_idx a head_idx) i)

/-- The loops over the context, where a test says which positions are taken in. -/
def Lane.kept_blocks (keep : Nat → Bool) (e : Exp K) (a : Launch K) (inp : Inputs K)
    (batch_idx head_idx lane : Nat) (start : Lane K) : Lane K :=
  (List.range (num_context_blocks a (inp.context_lengths batch_idx))).foldl
    (fun s b =>
      let block_num := inp.block_tables (batch_idx * a.max_blocks + b)
      let k_base := block_base a a.shape.k_head_dim block_num head_idx
      let v_base := block_base a a.shape.v_head_dim block_num head_idx
      (List.range (tokens_in_block a (inp.context_lengths batch_idx) b)).foldl
        (fun s t =>
          if keep (b * a.shape.block_size + t) then
            s.token e a inp lane v_base t (token_score a inp batch_idx head_idx k_base t)
          else s) s)
    start

/-- The scores and the values of the positions that are taken in. -/
def scored (a : Launch K) (inp : Inputs K) (batch_idx head_idx i : Nat) (positions : List Nat) :
    List (K × K) :=
  positions.map (fun p => (score_at a inp batch_idx head_idx p, value_at a inp batch_idx head_idx i p))

/-- The score and the value of the token at a block and an offset are those of its position. -/
theorem taken_eq {a : Launch K} {inp : Inputs K} (batch head i p : Nat)
    (hb : 0 < a.shape.block_size) (hk : a.shape.k_head_dim ≤ 256) :
    let base := fun dim => block_base a dim
      (inp.block_tables (batch * a.max_blocks + p / a.shape.block_size)) head
    (token_score a inp batch head (base a.shape.k_head_dim) (p % a.shape.block_size),
      inp.caches.value_cache (base a.shape.v_head_dim +
        p % a.shape.block_size * a.shape.v_head_dim + i)) =
    (score_at a inp batch head p, value_at a inp batch head i p) := by
  intro base
  refine Prod.ext ?_ ?_
  · refine (token_score.spec batch head _ _ hk).trans ?_
    rw [score_at]
    congr 1
    apply Finset.sum_congr rfl
    intro j _
    rw [← block_base_eq a inp batch head _ p j hb]
  · exact congrArg inp.caches.value_cache (block_base_eq a inp batch head _ p i hb)

/-- The loops of a lane are a run of the online softmax over the positions that are taken in. -/
theorem Lane.kept_blocks.spec {e : Exp K} {a : Launch K} {inp : Inputs K} {batch lane i : Nat}
    (keep : Nat → Bool) (start : Lane K) (head : Nat) (hl : lane < 32)
    (hb : 0 < a.shape.block_size) (hk : a.shape.k_head_dim ≤ 256) (hv : a.shape.v_head_dim ≤ 256)
    (hi : i ∈ strided 32 lane a.shape.v_head_dim) (hc : 0 < inp.context_lengths batch) :
    (Lane.kept_blocks keep e a inp batch head lane start).channel (i / 32) =
      (start.channel (i / 32)).run e (scored a inp batch head i
        ((List.range (inp.context_lengths batch)).filter keep)) := by
  let base := fun (dim b : Nat) => block_base a dim (inp.block_tables (batch * a.max_blocks + b)) head
  let taken := fun (bt : Nat × Nat) =>
    (token_score a inp batch head (base a.shape.k_head_dim bt.1) bt.2,
      inp.caches.value_cache (base a.shape.v_head_dim bt.1 + bt.2 * a.shape.v_head_dim + i))
  let visit := fun (r : Running K) (bt : Nat × Nat) =>
    if keep (bt.1 * a.shape.block_size + bt.2) then r.step e (taken bt) else r
  have hall : (Lane.kept_blocks keep e a inp batch head lane start).channel (i / 32) =
      (visited a (inp.context_lengths batch)).foldl visit (start.channel (i / 32)) := by
    rw [Lane.kept_blocks, visited, List.foldl_flatMap]
    symm
    apply List.foldl_hom (fun s : Lane K => s.channel (i / 32))
    intro s b
    rw [List.foldl_map]
    apply List.foldl_hom (fun s : Lane K => s.channel (i / 32))
    intro s t
    show visit (s.channel (i / 32)) (b, t) = _
    by_cases hkeep : keep (b * a.shape.block_size + t) = true
    · simp only [visit, hkeep, if_true]
      exact (Lane.token_channel hl hv hi _ t _ s).symm
    · simp only [visit, hkeep, Bool.false_eq_true, if_false]
  rw [hall, visited_eq a _ hb hc, List.foldl_map, Running.run, scored, List.foldl_map,
    List.foldl_filter]
  apply List.foldl_ext
  intro r p _
  have hp : p / a.shape.block_size * a.shape.block_size + p % a.shape.block_size = p := by
    rw [Nat.mul_comm]
    exact Nat.div_add_mod p a.shape.block_size
  simp only [visit, hp]
  rw [show taken (p / a.shape.block_size, p % a.shape.block_size) = _ from
    taken_eq batch head i p hb hk]

/-- The loops of a lane are a run of the online softmax over the positions of the context. -/
theorem Lane.blocks.spec {e : Exp K} {a : Launch K} {inp : Inputs K} {batch lane i : Nat}
    (head : Nat) (hl : lane < 32) (hb : 0 < a.shape.block_size) (hk : a.shape.k_head_dim ≤ 256)
    (hv : a.shape.v_head_dim ≤ 256) (hi : i ∈ strided 32 lane a.shape.v_head_dim)
    (hc : 0 < inp.context_lengths batch) :
    (Lane.blocks e a inp batch head lane).channel (i / 32) =
      Running.start.run e ((List.range (inp.context_lengths batch)).map
        (fun p => (score_at a inp batch head p, value_at a inp batch head i p))) := by
  have hkept : Lane.blocks e a inp batch head lane =
      Lane.kept_blocks (fun _ => true) e a inp batch head lane .start := by
    simp only [Lane.blocks, Lane.kept_blocks, if_true]
    rfl
  rw [hkept, Lane.kept_blocks.spec _ _ head hl hb hk hv hi hc, List.filter_true]
  rfl

/-! ## The output -/

/-- The index of an element of the output. -/
def output_idx (a : Launch K) (batch_idx head_idx i : Nat) : Nat :=
  batch_idx * a.num_heads * a.shape.v_head_dim + head_idx * a.shape.v_head_dim + i

theorem output_idx_inj {a : Launch K} {batch batch' head head' i i' : Nat} (hh : head < a.num_heads)
    (hh' : head' < a.num_heads) (hi : i < a.shape.v_head_dim) (hi' : i' < a.shape.v_head_dim)
    (he : output_idx a batch head i = output_idx a batch' head' i') :
    batch = batch' ∧ head = head' ∧ i = i' := by
  have hidx : ∀ batch head i, output_idx a batch head i =
      (batch * a.num_heads + head) * a.shape.v_head_dim + i := by
    intro batch head i
    rw [output_idx, Nat.add_mul]
  rw [hidx, hidx] at he
  obtain ⟨h1, rfl⟩ := digits_inj hi hi' he
  obtain ⟨rfl, rfl⟩ := digits_inj hh hh' h1
  exact ⟨rfl, rfl, rfl⟩

/-- The stores of one thread, for loops that end in the given statistics. -/
def lane_stores (a : Launch K) (loops : Nat → Nat → Nat → Lane K) (gid : Thread) :
    List (Nat × K) :=
  let head_idx := gid.1 / 32
  let lane := gid.1 % 32
  let batch_idx := gid.2
  if head_idx ≥ a.num_heads then []
  else
    let s := loops batch_idx head_idx lane
    let out_offset := batch_idx * a.num_heads * a.shape.v_head_dim + head_idx * a.shape.v_head_dim
    (strided 32 lane a.shape.v_head_dim).filterMap
      (fun i => if i < 256 then some (out_offset + i, s.acc_vec (i / 32) / s.l_i) else none)

theorem mem_lane_stores {a : Launch K} {loops : Nat → Nat → Nat → Lane K} {gid : Thread}
    {w : Nat × K} : w ∈ lane_stores a loops gid ↔ gid.1 / 32 < a.num_heads ∧
      ∃ i ∈ strided 32 (gid.1 % 32) a.shape.v_head_dim, i < 256 ∧
        w = (output_idx a gid.2 (gid.1 / 32) i,
          (loops gid.2 (gid.1 / 32) (gid.1 % 32)).acc_vec (i / 32) /
            (loops gid.2 (gid.1 / 32) (gid.1 % 32)).l_i) := by
  unfold lane_stores
  by_cases hh : gid.1 / 32 ≥ a.num_heads
  · simp [hh]
  · simp only [hh, if_false, List.mem_filterMap, Nat.lt_of_not_le hh, true_and]
    constructor
    · rintro ⟨i, hi, hw⟩
      split at hw
      · rename_i hlt
        exact ⟨i, hi, hlt, (Option.some.inj hw).symm⟩
      · cases hw
    · rintro ⟨i, hi, hlt, rfl⟩
      exact ⟨i, hi, by rw [if_pos hlt]; rfl⟩

/-- An element of the output is accumulator over sum, when the lanes agree on the statistics of
its dimension. The order of the threads does not matter. -/
theorem lane_stores.spec {a : Launch K} (loops : Nat → Nat → Nat → Lane K) (order : Order)
    (output : Nat → K) {batch head i : Nat} {r : Running K} (hv : a.shape.v_head_dim ≤ 256)
    (hbatch : batch < a.batch_size) (hh : head < a.num_heads) (hi : i < a.shape.v_head_dim)
    (hloops : ∀ lane, lane < 32 → i ∈ strided 32 lane a.shape.v_head_dim →
      (loops batch head lane).channel (i / 32) = r) :
    scatter ((order.arrange (grid (a.num_heads * 32) a.batch_size)).flatMap (lane_stores a loops))
      output (output_idx a batch head i) = r.acc / r.l := by
  apply scatter_of_mem
  · refine List.mem_flatMap.mpr ⟨(head * 32 + i % 32, batch), ?_, ?_⟩
    · refine Order.mem.mpr (mem_grid.mpr ⟨?_, hbatch⟩)
      have := Nat.mod_lt i (by decide : 32 > 0)
      show head * 32 + i % 32 < a.num_heads * 32
      omega
    · have hdiv : (head * 32 + i % 32) / 32 = head := by omega
      have hmod : (head * 32 + i % 32) % 32 = i % 32 := by omega
      refine mem_lane_stores.mpr ?_
      simp only [hdiv, hmod]
      refine ⟨hh, i, mem_own_strided (by decide) hi, by omega, ?_⟩
      rw [← hloops (i % 32) (Nat.mod_lt i (by decide)) (mem_own_strided (by decide) hi)]
      rfl
  · intro y hy
    obtain ⟨⟨x, z⟩, _, hw⟩ := List.mem_flatMap.mp hy
    obtain ⟨hh', i', hi', _, he⟩ := mem_lane_stores.mp hw
    obtain ⟨haddr, rfl⟩ := Prod.mk.inj he
    have hl : x % 32 < 32 := Nat.mod_lt x (by decide)
    obtain ⟨hi'v, _⟩ := (mem_strided hl).mp hi'
    obtain ⟨rfl, rfl, rfl⟩ := output_idx_inj hh hh' hi hi'v haddr
    rw [← hloops (x % 32) hl hi']
    rfl

/-- Each element of the output is the average of the values over the context, whatever the order
of the threads. -/
theorem paged_attention_kernel_eq_attend {e : Exp K} (a : Launch K) (order : Order)
    (inp : Inputs K) (output : Nat → K) {batch head i : Nat} (hb : 0 < a.shape.block_size)
    (hk : a.shape.k_head_dim ≤ 256) (hv : a.shape.v_head_dim ≤ 256) (hbatch : batch < a.batch_size)
    (hh : head < a.num_heads) (hi : i < a.shape.v_head_dim) (hc : 0 < inp.context_lengths batch) :
    paged_attention_kernel e a order inp output (output_idx a batch head i) =
      attend e ⊥ (List.range (inp.context_lengths batch)) (score_at a inp batch head)
        (value_at a inp batch head i) := by
  have hne : List.range (inp.context_lengths batch) ≠ [] := by
    rw [Ne, List.range_eq_nil]
    omega
  rw [← run_eq_attend e ⊥ _ _ hne]
  exact lane_stores.spec (Lane.blocks e a inp) order output hv hbatch hh hi
    (fun lane hl hlane => Lane.blocks.spec head hl hb hk hv hlane hc)

/-- The same average, as two sums over the context. -/
theorem paged_attention_kernel.spec {e : Exp K} {a : Launch K} (order : Order) {inp : Inputs K}
    (output : Nat → K) {batch head i : Nat} (hb : 0 < a.shape.block_size)
    (hk : a.shape.k_head_dim ≤ 256) (hv : a.shape.v_head_dim ≤ 256) (hbatch : batch < a.batch_size)
    (hh : head < a.num_heads) (hi : i < a.shape.v_head_dim) (hc : 0 < inp.context_lengths batch) :
    paged_attention_kernel e a order inp output (output_idx a batch head i) =
      (∑ p ∈ Finset.range (inp.context_lengths batch),
        e.exp (score_at a inp batch head p) * value_at a inp batch head i p) /
      ∑ p ∈ Finset.range (inp.context_lengths batch), e.exp (score_at a inp batch head p) := by
  have hbot : e.ofBot (⊥ : WithBot K) = 0 := rfl
  rw [paged_attention_kernel_eq_attend a order inp output hb hk hv hbatch hh hi hc, attend, hbot, zero_add]
  rfl

end parallax.metal.paged_attention
