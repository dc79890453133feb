-- The linear-attention layer of Qwen3-Next (parallax/models/qwen3_next.py,
-- `ParallaxQwen3NextGatedDeltaNet`). The projections, the convolution and the
-- recurrent update are abstract functions of the positions they are given.
import InferenceMesh.Cache.LinearCache

open parallax.server.cache.linear_cache

namespace parallax.models.qwen3_next

universe u

/-- The functions of the layer. The kernel of the convolution spans more than one position. -/
structure GatedDeltaNet (X C Y G S O : Type u) where
  conv_kernel_size : Nat
  kernel_spans : 2 ≤ conv_kernel_size
  /-- The queries, keys and values of a position, side by side. -/
  mixed_qkv : X → C
  /-- The two gates of a position. -/
  gates : X → G
  /-- The channels of a position before the first. -/
  no_input : C
  /-- The convolution of one window, with what follows it up to the recurrence. -/
  conv1d : List C → Y
  /-- The recurrent state before the first position. -/
  no_state : S
  gated_delta_step : S → Y → G → S × O
  /-- The gated norm and the output projection. -/
  out_proj : O → X → X

namespace GatedDeltaNet

variable {X C Y G S O : Type u} (layer : GatedDeltaNet X C Y G S O)

def conv_state_len : Nat := layer.conv_kernel_size - 1

/-- The state of the convolution before the first position. -/
def no_inputs : List C := List.replicate layer.conv_state_len layer.no_input

/-- The last positions of a row: `conv_input[:, -(conv_kernel_size - 1) :]`. -/
def last_inputs (conv_input : List C) : List C :=
  conv_input.drop (conv_input.length - layer.conv_state_len)

/-- The output of the convolution, position by position. -/
def conv_out (conv_input : List C) (target_len : Nat) : List Y :=
  (List.range target_len).map (fun t =>
    layer.conv1d ((conv_input.drop t).take layer.conv_kernel_size))

/-- The recurrence over the positions of a row. -/
def gated_delta_update : List (Y × G) → S → List O × S
  | [], state => ([], state)
  | (y, g) :: rest, state =>
    let next := layer.gated_delta_step state y g
    let after := gated_delta_update rest next.1
    (next.2 :: after.1, after.2)

/-- What a row gives: its output and its two states. -/
structure RowResult (X C S : Type u) where
  output : List X
  state0 : List C
  state1 : S

/-- The layer on one row of a batch, from the given states. -/
def forward_row (row : List X) (conv_state : List C) (state1 : Option S) : RowResult X C S :=
  let conv_input := conv_state ++ row.map layer.mixed_qkv
  let conv_out := layer.conv_out conv_input row.length
  let updated := layer.gated_delta_update (conv_out.zip (row.map layer.gates))
    (state1.getD layer.no_state)
  { output := List.zipWith layer.out_proj updated.1 row
    state0 := layer.last_inputs conv_input
    state1 := updated.2 }

/-- The states that a batch starts from. A batch of single positions goes on from the slots. -/
def start_states (cache : LinearCache C S) (state_slot_mapping : List Nat) (x : List (List X)) :
    List (List C × Option S) :=
  if (x.headD []).length = 1 then
    (cache.read_states state_slot_mapping).map (fun states => (states.1, some states.2))
  else x.map (fun _ => (layer.no_inputs, none))

/-- The layer on a batch: its outputs, and the cache with the states of each row. -/
def call (x : List (List X)) (cache : LinearCache C S) (state_slot_mapping : List Nat) :
    List (List X) × LinearCache C S :=
  let results := List.zipWith (fun row states => layer.forward_row row states.1 states.2) x
    (layer.start_states cache state_slot_mapping x)
  (results.map RowResult.output,
    LinearCache.write_states state_slot_mapping
      (results.map (fun r => (r.state0, r.state1))) cache)

/-- A prefill: the slots of its requests were zeroed when they were allocated. -/
def prefill (x : List (List X)) (cache : LinearCache C S) (state_slot_mapping : List Nat) :
    List (List X) × LinearCache C S :=
  layer.call x
    (state_slot_mapping.foldl (fun cache slot =>
      cache.zero_slot layer.conv_state_len layer.no_input layer.no_state slot) cache)
    state_slot_mapping

end GatedDeltaNet

end parallax.models.qwen3_next
