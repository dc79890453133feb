-- How the searches charge the nodes of a pipeline, and why the split that
-- follows has room. The searches charge the LM head to every node that could
-- close a pipeline, the split only to the last one, so the stages together
-- always hold the model. Only the first stage can come out without room.
import InferenceMesh.Scheduling.PipelineSearch
import InferenceMesh.Scheduling.PipelineSplit

open ordered_dict python state_exn
open scheduling.model_info scheduling.node

namespace scheduling.layer_allocation

open Allocator

/-! ## Charges -/

/-- What a node after the first one is charged when some layers are left: its capacity, with the
LM head as soon as the node could close the pipeline. -/
def charge (n : Node) (left : Int) : Int :=
  if left - n.get_decoder_layer_capacity false false ≤ 0 then
    n.get_decoder_layer_capacity false true
  else n.get_decoder_layer_capacity false false

/-- The nodes cover the layers that are left, and all of them are needed for that. -/
def Closes (node : Ref → Node) : Int → List Ref → Prop
  | left, [] => left ≤ 0
  | left, r :: rest => 0 < left ∧ Closes node (left - charge (node r) left) rest

instance (node : Ref → Node) : (left : Int) → (nodes : List Ref) → Decidable (Closes node left nodes)
  | left, [] => inferInstanceAs (Decidable (left ≤ 0))
  | left, r :: rest =>
    have := instDecidableCloses node (left - charge (node r) left) rest
    inferInstanceAs (Decidable (0 < left ∧ Closes node (left - charge (node r) left) rest))

theorem charge_le (n : Node) (left : Int) :
    charge n left ≤ n.get_decoder_layer_capacity false false := by
  unfold charge
  split
  · exact n.get_decoder_layer_capacity_le false
  · exact le_rfl

/-- A node that closes a pipeline has room for the LM head. -/
theorem closing_charge {n : Node} {left : Int} (hleft : 0 < left) (h : left - charge n left ≤ 0) :
    0 < n.get_decoder_layer_capacity false true ∧ left ≤ n.get_decoder_layer_capacity false true := by
  unfold charge at h
  split at h
  · omega
  · omega

theorem embed_capacity_eq (n : Node) :
    n.get_decoder_layer_capacity true false = n.get_decoder_layer_capacity false true := by
  simp [Node.get_decoder_layer_capacity, Node.available_memory_bytes]

/-! ## The stages after the first one -/

section later

variable {node : Ref → Node}

theorem later_capacities_cons (r : Ref) {rest : List Ref} (h : rest ≠ []) :
    later_capacities node (r :: rest) =
      (node r).get_decoder_layer_capacity false false :: later_capacities node rest := by
  rcases rest with _ | ⟨r', rest⟩
  · exact absurd rfl h
  · rfl

theorem Closes.sum_le {left : Int} {rest : List Ref} (hne : rest ≠ [])
    (h : Closes node left rest) : left ≤ (later_capacities node rest).sum := by
  induction rest generalizing left with
  | nil => exact absurd rfl hne
  | cons r rest ih =>
    obtain ⟨hpos, hrest⟩ := h
    by_cases hlast : rest = []
    · subst hlast
      have hclose := closing_charge hpos hrest
      simp only [later_capacities, List.sum_cons, List.sum_nil]
      omega
    · have hle := ih hlast hrest
      have hcharge := charge_le (node r) left
      rw [later_capacities_cons r hlast, List.sum_cons]
      omega

/-- A node has at least the room of its stage. -/
theorem capacity_pos_of_later {r : Ref} {rest : List Ref}
    (h : ∀ cap ∈ later_capacities node (r :: rest), 0 < cap) :
    0 < (node r).get_decoder_layer_capacity false false := by
  rcases rest with _ | ⟨r', rest⟩
  · have hpos := h _ (by simp [later_capacities] : (node r).get_decoder_layer_capacity false true ∈ _)
    exact hpos.trans_le ((node r).get_decoder_layer_capacity_le false)
  · exact h _ List.mem_cons_self

theorem Closes.later_pos {left : Int} {rest : List Ref}
    (hsorted : rest.Pairwise (fun r r' => (node r').get_decoder_layer_capacity false false ≤
      (node r).get_decoder_layer_capacity false false))
    (h : Closes node left rest) : ∀ cap ∈ later_capacities node rest, 0 < cap := by
  induction rest generalizing left with
  | nil =>
    intro cap hcap
    cases hcap
  | cons r rest ih =>
    obtain ⟨hpos, hrest⟩ := h
    obtain ⟨hhead, htail⟩ := List.pairwise_cons.mp hsorted
    rcases rest with _ | ⟨r', rest⟩
    · intro cap hcap
      rw [later_capacities, List.mem_singleton] at hcap
      rw [hcap]
      exact (closing_charge hpos hrest).1
    · have hlater := ih htail hrest
      intro cap hcap
      rw [later_capacities_cons r (by simp)] at hcap
      rcases List.mem_cons.mp hcap with rfl | hcap
      · exact (capacity_pos_of_later hlater).trans_le (hhead r' List.mem_cons_self)
      · exact hlater cap hcap

/-- A node that could hold all layers by itself, put where it belongs by its capacity, keeps the
stages in order and makes up for all layers. -/
theorem later_insert {num_layers : Int} {x : Ref} (hlayers : 0 < num_layers)
    (hx : num_layers ≤ (node x).get_decoder_layer_capacity false true) (l : List Ref)
    (hpos : ∀ cap ∈ later_capacities node l, 0 < cap) :
    (∀ cap ∈ later_capacities node (l.orderedInsert (fun r r' =>
        (node r').get_decoder_layer_capacity false false ≤
          (node r).get_decoder_layer_capacity false false) x), 0 < cap) ∧
      num_layers ≤ (later_capacities node (l.orderedInsert (fun r r' =>
        (node r').get_decoder_layer_capacity false false ≤
          (node r).get_decoder_layer_capacity false false) x)).sum := by
  have hnorm := (node x).get_decoder_layer_capacity_le false
  induction l with
  | nil =>
    simp only [List.orderedInsert_nil, later_capacities, List.mem_singleton, forall_eq,
      List.sum_cons, List.sum_nil]
    omega
  | cons z l ih =>
    rw [List.orderedInsert_cons]
    split
    · have hsum : 0 ≤ (later_capacities node (z :: l)).sum :=
        List.sum_nonneg (fun c hc => (hpos c hc).le)
      rw [later_capacities_cons x (by simp)]
      refine ⟨?_, ?_⟩
      · intro cap hcap
        rcases List.mem_cons.mp hcap with rfl | hcap
        · omega
        · exact hpos cap hcap
      · rw [List.sum_cons]
        omega
    · have hz := capacity_pos_of_later hpos
      have hpos' : ∀ cap ∈ later_capacities node l, 0 < cap := by
        intro cap hcap
        by_cases hl : l = []
        · subst hl
          cases hcap
        · apply hpos
          rw [later_capacities_cons z hl]
          exact List.mem_cons_of_mem _ hcap
      obtain ⟨h1, h2⟩ := ih hpos'
      have hne : l.orderedInsert (fun r r' => (node r').get_decoder_layer_capacity false false ≤
          (node r).get_decoder_layer_capacity false false) x ≠ [] := by
        intro hnil
        have hlen := congrArg List.length hnil
        rw [List.orderedInsert_length] at hlen
        cases hlen
      rw [later_capacities_cons z hne]
      refine ⟨?_, ?_⟩
      · intro cap hcap
        rcases List.mem_cons.mp hcap with rfl | hcap
        · exact hz
        · exact h1 cap hcap
      · rw [List.sum_cons]
        omega

end later

/-! ## The pipelines of a search -/

/-- The nodes are in the order of their capacities, the largest first. -/
def Descending (a : Allocator) (nodes : List Ref) : Prop :=
  nodes.Pairwise (fun r r' => a.capacity r' ≤ a.capacity r)

/-- A pipeline as a search builds it. Its first node is charged at most what is left next to the
embedding, and either the nodes are in order or the first one could close a pipeline by itself. -/
structure Built (a : Allocator) (x : Ref) (rest : List Ref) : Prop where
  closes : ∃ first ≤ (a.store x).get_decoder_layer_capacity true false,
    Closes a.store (a.num_total_layers - first) rest
  descending : Descending a rest
  order : (∀ r ∈ rest, a.capacity r ≤ a.capacity x) ∨
    a.num_total_layers ≤ (a.store x).get_decoder_layer_capacity false true

/-- The first stage of a pipeline has room next to the embedding. -/
def FirstHasRoom (a : Allocator) (pipeline : List Ref) : Prop :=
  ∀ r, (stage_order a pipeline false).head? = some r →
    0 < (a.store r).get_decoder_layer_capacity true false

theorem sorted_desc_eq {a : Allocator} {nodes : List Ref} (h : Descending a nodes) :
    sorted_desc a.capacity nodes = nodes := List.Pairwise.insertionSort_eq h

/-- After the sort the pipeline still has enough room behind its first stage. -/
theorem Built.stages {a : Allocator} {x : Ref} {rest : List Ref} (h : Built a x rest)
    (hlayers : 0 < a.num_total_layers) :
    ∃ y later, stage_order a (x :: rest) false = y :: later ∧
      (∀ cap ∈ later_capacities a.store later, 0 < cap) ∧
        (0 < (a.store y).get_decoder_layer_capacity true false →
          a.num_total_layers ≤ (a.store y).get_decoder_layer_capacity true false +
            (later_capacities a.store later).sum) := by
  obtain ⟨⟨first, hfirst, hcloses⟩, hdesc, horder⟩ := h
  have hpos := hcloses.later_pos hdesc
  have hinorder : stage_order a (x :: rest) false = x :: rest →
      ∃ y later, stage_order a (x :: rest) false = y :: later ∧
        (∀ cap ∈ later_capacities a.store later, 0 < cap) ∧
          (0 < (a.store y).get_decoder_layer_capacity true false →
            a.num_total_layers ≤ (a.store y).get_decoder_layer_capacity true false +
              (later_capacities a.store later).sum) := by
    intro heq
    refine ⟨x, rest, heq, hpos, fun _ => ?_⟩
    by_cases hrest : rest = []
    · subst hrest
      have hleft : a.num_total_layers - first ≤ 0 := hcloses
      simp only [later_capacities, List.sum_nil]
      omega
    · have hle := hcloses.sum_le hrest
      omega
  have hsorted : stage_order a (x :: rest) false =
      rest.orderedInsert (fun r r' => a.capacity r' ≤ a.capacity r) x := by
    show sorted_desc a.capacity (x :: rest) = _
    show (sorted_desc a.capacity rest).orderedInsert _ x = _
    rw [sorted_desc_eq hdesc]
  rcases horder with hin | hx
  · apply hinorder
    exact sorted_desc_eq (List.pairwise_cons.mpr ⟨hin, hdesc⟩)
  · rcases rest with _ | ⟨y, rest⟩
    · exact hinorder hsorted
    · by_cases hle : a.capacity y ≤ a.capacity x
      · apply hinorder
        rw [hsorted, List.orderedInsert_cons, if_pos hle]
      · rw [List.orderedInsert_cons, if_neg hle] at hsorted
        have hpos' : ∀ cap ∈ later_capacities a.store rest, 0 < cap := by
          intro cap hcap
          by_cases hrest : rest = []
          · subst hrest
            cases hcap
          · apply hpos
            rw [later_capacities_cons y hrest]
            exact List.mem_cons_of_mem _ hcap
        obtain ⟨h1, h2⟩ := later_insert hlayers hx rest hpos'
        refine ⟨y, _, hsorted, h1, fun hy => ?_⟩
        exact h2.trans (by
          show _ ≤ _ + (later_capacities a.store (rest.orderedInsert (fun r r' =>
            (a.store r').get_decoder_layer_capacity false false ≤
              (a.store r).get_decoder_layer_capacity false false) x)).sum
          omega)

/-- The water level of a pipeline is not too high: the whole layers at that level are not more
than the model has. -/
def LevelSettles (a : Allocator) (nodes : List Ref) : Prop :=
  whole_layers (stage_capacities a.store nodes)
    (nodes.map (fun r => compute_power .flops (a.store r))) a.num_total_layers
      a.water_filling_max_iterations ≤ a.num_total_layers

instance (a : Allocator) (nodes : List Ref) : Decidable (LevelSettles a nodes) :=
  inferInstanceAs (Decidable (_ ≤ _))

/-- Water-filling can split the layers over a pipeline of a search exactly when the first stage
has room and the water level is not too high. -/
theorem Built.splits_iff {a : Allocator} {x : Ref} {rest : List Ref} (h : Built a x rest)
    (hlayers : 0 < a.num_total_layers)
    (hpowers : ∀ r ∈ x :: rest, 0 < (a.store r).hardware.tflops_fp16) :
    SplitsEvenly a (stage_order a (x :: rest) false) .flops ↔
      FirstHasRoom a (x :: rest) ∧ LevelSettles a (stage_order a (x :: rest) false) := by
  obtain ⟨y, later, horder, hpos, hsum⟩ := h.stages hlayers
  have hperm := stage_order_perm a (x :: rest) false
  have hcaps : stage_capacities a.store (stage_order a (x :: rest) false) =
      (a.store y).get_decoder_layer_capacity true false :: later_capacities a.store later := by
    rw [horder]
    rcases later with _ | ⟨z, later⟩
    · rfl
    · exact stage_capacities_cons a.store y z later
  have hhead : FirstHasRoom a (x :: rest) ↔
      0 < (a.store y).get_decoder_layer_capacity true false := by
    unfold FirstHasRoom
    rw [horder]
    constructor
    · intro hroom
      exact hroom y rfl
    · rintro hroom r hr
      cases hr
      exact hroom
  have hpowers' : ∀ power ∈ (stage_order a (x :: rest) false).map
      (fun r => compute_power .flops (a.store r)), 0 < power := by
    intro power hp
    obtain ⟨r, hr, rfl⟩ := List.mem_map.mp hp
    exact hpowers r (hperm.mem_iff.mp hr)
  have hreturns : (∀ cap ∈ stage_capacities a.store (stage_order a (x :: rest) false), 0 < cap) →
      ((∃ counts, stage_counts a (stage_order a (x :: rest) false) .flops = .ok counts ∧
        counts.sum = a.num_total_layers) ↔ _) := fun hall =>
    stage_layer_counts.returns_iff (by rw [hcaps]; simp) hall hpowers'
      (by simp [stage_capacities_length])
  unfold SplitsEvenly
  rw [hhead]
  constructor
  · rintro ⟨hfull, hcounts⟩
    have hall := full_stage_none (stage_capacities_length _ _) hfull
    refine ⟨hall _ (by rw [hcaps]; exact List.mem_cons_self), ?_⟩
    exact ((hreturns hall).mp hcounts).2
  · rintro ⟨hroom, hsettles⟩
    have hall : ∀ cap ∈ stage_capacities a.store (stage_order a (x :: rest) false), 0 < cap := by
      rw [hcaps]
      intro cap hcap
      rcases List.mem_cons.mp hcap with rfl | hcap
      · exact hroom
      · exact hpos cap hcap
    refine ⟨full_stage_eq_none hall, (hreturns hall).mpr ⟨?_, hsettles⟩⟩
    rw [hcaps, List.sum_cons]
    exact hsum hroom

end scheduling.layer_allocation
