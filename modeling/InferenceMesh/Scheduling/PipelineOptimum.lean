-- The dynamic-programming search is exact. Over all ways to skip a node, to
-- assign it to an open pipeline or to start a pipeline with it, no way that
-- completes the wanted pipelines has fewer stages than the search finds.
import InferenceMesh.Scheduling.BacktrackedPipelines

open ordered_dict python
open scheduling.model_info scheduling.node

namespace scheduling.layer_allocation

open Allocator

/-! ## All sequences of choices -/

/-- What may be done with a node. The open pipelines are numbered from the one started first. -/
inductive Choice where
  | skip
  | assign (j : Nat)
  | start
  deriving DecidableEq, Repr

/-- The residuals of the open pipelines, and how many are finished. -/
structure Progress where
  open_residuals : List Int
  finished_pipes : Nat
  deriving DecidableEq, Repr

/-- The residual of a pipeline after a node. The node that closes it holds the LM head. -/
def Caps.left_by (c : Caps) (rj : Int) : Int :=
  if rj - c.norm ≤ 0 then rj - c.close else rj - c.norm

/-- The pipelines after a choice for node `c`. -/
def Progress.choose (num_layers : Int) (c : Caps) (p : Progress) : Choice → Option Progress
  | .skip => some p
  | .assign j =>
    match p.open_residuals[j]? with
    | none => none
    | some rj =>
      if c.left_by rj ≤ 0 then some ⟨p.open_residuals.eraseIdx j, p.finished_pipes + 1⟩
      else some ⟨p.open_residuals.set j (c.left_by rj), p.finished_pipes⟩
  | .start =>
    if num_layers - c.start ≤ 0 then some ⟨p.open_residuals, p.finished_pipes + 1⟩
    else some ⟨p.open_residuals ++ [num_layers - c.start], p.finished_pipes⟩

/-- The pipelines after a choice for each node. -/
def run_choices (num_layers : Int) : List Caps → List Choice → Progress → Option Progress
  | [], [], p => some p
  | c :: rest, choice :: choices, p =>
    (p.choose num_layers c choice).bind (run_choices num_layers rest choices)
  | _, _, _ => none

/-- The nodes that a sequence of choices puts into a pipeline. -/
def stages (choices : List Choice) : Nat := choices.countP (· ≠ .skip)

/-- The choices complete exactly the wanted number of pipelines. -/
def Completes (k_target : Nat) (num_layers : Int) (nodes : List Caps) (choices : List Choice)
    (p : Progress) : Prop := run_choices num_layers nodes choices p = some ⟨[], k_target⟩

/-- The cost is the least number of stages that completes the wanted pipelines, and infinite when
nothing completes them. -/
structure FewestStages (k_target : Nat) (num_layers : Int) (nodes : List Caps) (p : Progress)
    (cost : Cost) : Prop where
  least : ∀ choices, Completes k_target num_layers nodes choices p → cost ≤ stages choices
  attained : cost = ⊤ ∨ ∃ choices, Completes k_target num_layers nodes choices p ∧
    cost = stages choices

@[simp] theorem stages_skip (choices : List Choice) : stages (.skip :: choices) = stages choices := by
  simp [stages]

@[simp] theorem stages_cons {choice : Choice} (h : choice ≠ .skip) (choices : List Choice) :
    stages (choice :: choices) = stages choices + 1 := by
  simp [stages, h]

/-! ## What is left to do -/

/-- A node never takes more than its plain capacity, and that is not negative. -/
structure Caps.Sound (c : Caps) : Prop where
  nonneg : 0 ≤ c.norm
  close_le : c.close ≤ c.norm
  start_le : c.start ≤ c.norm

/-- The layers that the open pipelines and the ones to start still need. -/
def Progress.need (k_target : Nat) (num_layers : Int) (p : Progress) : Int :=
  p.open_residuals.sum + ((k_target : Int) - p.finished_pipes - p.open_residuals.length) * num_layers

/-- The pipelines so far. -/
def Progress.pipes (p : Progress) : Nat := p.finished_pipes + p.open_residuals.length

theorem Caps.Sound.left_by_ge {c : Caps} (h : c.Sound) (rj : Int) : rj - c.norm ≤ c.left_by rj := by
  have hclose := h.close_le
  unfold Caps.left_by
  split
  · omega
  · omega

theorem sum_eraseIdx {l : List Int} {j : Nat} {x : Int} (h : l[j]? = some x) :
    (l.eraseIdx j).sum = l.sum - x := by
  obtain ⟨hlt, rfl⟩ := List.getElem?_eq_some_iff.mp h
  have hsum := (List.getElem_cons_eraseIdx_perm hlt).sum_eq
  rw [List.sum_cons] at hsum
  omega

theorem sum_set {l : List Int} {j : Nat} {x : Int} (h : l[j]? = some x) (y : Int) :
    (l.set j y).sum = l.sum - x + y := by
  obtain ⟨hlt, _⟩ := List.getElem?_eq_some_iff.mp h
  have hset := (List.set_perm_cons_eraseIdx hlt y).sum_eq
  rw [List.sum_cons, sum_eraseIdx h] at hset
  omega

/-- One choice covers no more layers than the node holds, and brings at most one pipeline more. -/
theorem Progress.choose.spec (k_target : Nat) {num_layers : Int} {c : Caps} {p p' : Progress}
    {choice : Choice} (hc : c.Sound) (h : p.choose num_layers c choice = some p') :
    p.need k_target num_layers ≤ c.norm + p'.need k_target num_layers ∧ p.pipes ≤ p'.pipes ∧
      p'.pipes ≤ p.pipes + 1 := by
  have hnonneg := hc.nonneg
  have hstart := hc.start_le
  cases choice with
  | skip =>
    simp only [Progress.choose, Option.some.injEq] at h
    subst h
    exact ⟨by omega, le_rfl, by omega⟩
  | assign j =>
    simp only [Progress.choose] at h
    split at h
    · cases h
    · rename_i rj hj
      have hleft := hc.left_by_ge rj
      obtain ⟨hlt, _⟩ := List.getElem?_eq_some_iff.mp hj
      split at h
      · rename_i hle
        simp only [Option.some.injEq] at h
        subst h
        have hlen : (p.open_residuals.eraseIdx j).length + 1 = p.open_residuals.length := by
          rw [List.length_eraseIdx_of_lt hlt]
          omega
        simp only [Progress.need, Progress.pipes, sum_eraseIdx hj, ← hlen]
        push_cast
        refine ⟨?_, by omega, by omega⟩
        have hcount : (k_target : Int) - p.finished_pipes -
            ((p.open_residuals.eraseIdx j).length + 1) = k_target - (p.finished_pipes + 1) -
              (p.open_residuals.eraseIdx j).length := by ring
        rw [hcount]
        omega
      · simp only [Option.some.injEq] at h
        subst h
        simp only [Progress.need, Progress.pipes, sum_set hj, List.length_set]
        exact ⟨by omega, le_rfl, by omega⟩
  | start =>
    simp only [Progress.choose] at h
    split at h
    · rename_i hle
      simp only [Option.some.injEq] at h
      subst h
      simp only [Progress.need, Progress.pipes]
      refine ⟨?_, by omega, by omega⟩
      push_cast
      have hcount : ((k_target : Int) - p.finished_pipes - p.open_residuals.length) * num_layers =
          (k_target - (p.finished_pipes + 1) - p.open_residuals.length) * num_layers +
            num_layers := by ring
      rw [hcount]
      omega
    · simp only [Option.some.injEq] at h
      subst h
      simp only [Progress.need, Progress.pipes, List.sum_append, List.length_append,
        List.sum_cons, List.sum_nil, List.length_singleton]
      refine ⟨?_, by omega, by omega⟩
      push_cast
      have hcount : ((k_target : Int) - p.finished_pipes - p.open_residuals.length) * num_layers =
          (k_target - p.finished_pipes - (p.open_residuals.length + 1)) * num_layers +
            num_layers := by ring
      rw [hcount]
      omega

/-- What can be completed needs no more than the nodes hold. -/
theorem Completes.need {k_target : Nat} {num_layers : Int} {nodes : List Caps}
    {choices : List Choice} {p : Progress} (hsound : ∀ c ∈ nodes, c.Sound)
    (h : Completes k_target num_layers nodes choices p) :
    p.need k_target num_layers ≤ (nodes.map Caps.norm).sum ∧ p.pipes ≤ k_target ∧
      k_target ≤ p.pipes + nodes.length := by
  induction nodes generalizing choices p with
  | nil =>
    cases choices with
    | nil =>
      simp only [Completes, run_choices, Option.some.injEq] at h
      subst h
      simp [Progress.need, Progress.pipes]
    | cons choice choices => cases h
  | cons c rest ih =>
    cases choices with
    | nil => cases h
    | cons choice choices =>
      obtain ⟨p', hchoose, hrest⟩ := Option.bind_eq_some_iff.mp h
      obtain ⟨hneed, hle, hge⟩ := Progress.choose.spec k_target
        (hsound c List.mem_cons_self) hchoose
      obtain ⟨hneed', hle', hge'⟩ := ih (fun c hc => hsound c (List.mem_cons_of_mem _ hc)) hrest
      rw [List.map_cons, List.sum_cons, List.length_cons]
      exact ⟨by omega, by omega, by omega⟩

/-- The search prunes no state that can be completed. -/
theorem Completes.not_pruned {k_target : Nat} {num_layers : Int} {nodes : List Caps}
    {choices : List Choice} {p : Progress} (hsound : ∀ c ∈ nodes, c.Sound)
    (h : Completes k_target num_layers nodes choices p) {rs : List Int}
    (hperm : rs.Perm p.open_residuals) : ¬ pruned k_target num_layers nodes rs p.finished_pipes := by
  obtain ⟨hneed, hle, hge⟩ := h.need hsound
  have hlen := hperm.length_eq
  have hsum := hperm.sum_eq
  unfold Progress.need at hneed
  unfold Progress.pipes at hle hge
  have hmax : max 0 ((k_target : Int) - p.finished_pipes - rs.length) =
      (k_target : Int) - p.finished_pipes - p.open_residuals.length := by
    rw [hlen]
    exact max_eq_right (by omega)
  unfold pruned
  rw [hmax, hsum]
  omega

/-! ## The search against the sequences -/

section exact

variable {k_target : Nat} {num_layers : Int}

/-- Two lists of the same residuals have the same others. -/
theorem eraseIdx_perm {l l' : List Int} {j j' : Nat} {x : Int} (hperm : l.Perm l')
    (hj : l[j]? = some x) (hj' : l'[j']? = some x) : (l.eraseIdx j).Perm (l'.eraseIdx j') := by
  obtain ⟨hlt, rfl⟩ := List.getElem?_eq_some_iff.mp hj
  obtain ⟨hlt', heq⟩ := List.getElem?_eq_some_iff.mp hj'
  have hleft := List.getElem_cons_eraseIdx_perm hlt
  have hright := List.getElem_cons_eraseIdx_perm hlt'
  rw [heq] at hright
  exact (hleft.trans (hperm.trans hright.symm)).cons_inv

/-- The search tracks the pipelines: it knows their residuals up to their order. -/
def Tracks (rs : List Int) (f : Nat) (p : Progress) : Prop :=
  rs.Perm p.open_residuals ∧ f = p.finished_pipes

theorem Tracks.pipes {rs : List Int} {f : Nat} {p : Progress} (h : Tracks rs f p) :
    p.pipes = f + rs.length := by
  obtain ⟨hperm, rfl⟩ := h
  unfold Progress.pipes
  rw [hperm.length_eq]

theorem Tracks.assign {rs : List Int} {f j j' : Nat} {rj : Int} {p : Progress}
    (h : Tracks rs f p) (num_layers : Int) (c : Caps) (hj : rs[j]? = some rj) (hj' : p.open_residuals[j']? = some rj) :
    ∃ p', p.choose num_layers c (.assign j') = some p' ∧
      Tracks (assign_to c rs f j rj).1 (assign_to c rs f j rj).2.1 p' := by
  obtain ⟨hperm, rfl⟩ := h
  have hothers := eraseIdx_perm hperm hj hj'
  obtain ⟨hlt, _⟩ := List.getElem?_eq_some_iff.mp hj
  obtain ⟨hlt', _⟩ := List.getElem?_eq_some_iff.mp hj'
  have hset : ∀ left, (sorted_residuals (rs.set j left)).Perm (p.open_residuals.set j' left) :=
    fun left => (sorted_residuals_perm _).trans ((List.set_perm_cons_eraseIdx hlt left).trans
      ((hothers.cons left).trans (List.set_perm_cons_eraseIdx hlt' left).symm))
  simp only [Progress.choose, hj', Caps.left_by]
  unfold assign_to
  by_cases hnorm : rj - c.norm ≤ 0
  · simp only [if_pos hnorm]
    by_cases hclose : rj - c.close ≤ 0
    · simp only [if_pos hclose]
      exact ⟨_, rfl, hothers, rfl⟩
    · simp only [if_neg hclose]
      exact ⟨_, rfl, hset _, rfl⟩
  · simp only [if_neg hnorm]
    exact ⟨_, rfl, hset _, rfl⟩

theorem Tracks.start {rs : List Int} {f : Nat} {p : Progress} (h : Tracks rs f p)
    (num_layers : Int) (c : Caps) :
    ∃ p', p.choose num_layers c .start = some p' ∧
      Tracks (start_with c num_layers rs f).1 (start_with c num_layers rs f).2.1 p' := by
  obtain ⟨hperm, rfl⟩ := h
  simp only [Progress.choose]
  unfold start_with
  by_cases hle : num_layers - c.start ≤ 0
  · simp only [if_pos hle]
    exact ⟨_, rfl, hperm, rfl⟩
  · simp only [if_neg hle]
    exact ⟨_, rfl, (sorted_residuals_perm _).trans (hperm.append_right _), rfl⟩

/-- No sequence that completes the pipelines has fewer stages. -/
theorem fewest_le_stages {nodes : List Caps} {choices : List Choice} {p : Progress} {rs : List Int}
    {f : Nat} (hsound : ∀ c ∈ nodes, c.Sound) (htracks : Tracks rs f p)
    (h : Completes k_target num_layers nodes choices p) :
    (fewest k_target num_layers nodes rs f).1 ≤ stages choices := by
  induction nodes generalizing choices p rs f with
  | nil =>
    cases choices with
    | nil =>
      simp only [Completes, run_choices, Option.some.injEq] at h
      subst h
      obtain ⟨hperm, rfl⟩ := htracks
      rw [fewest_done ⟨rfl, hperm.eq_nil⟩]
      exact zero_le
    | cons choice choices => cases h
  | cons c rest ih =>
    by_cases hdone : f = k_target ∧ rs = []
    · rw [fewest_done hdone]
      exact zero_le
    · have hpruned : ¬ pruned k_target num_layers (c :: rest) rs f := by
        rw [htracks.2]
        exact h.not_pruned hsound htracks.1
      obtain ⟨hskip, hassign, hstart⟩ := fewest_options_le hdone hpruned
      have hrest : ∀ c ∈ rest, c.Sound := fun c hc => hsound c (List.mem_cons_of_mem _ hc)
      cases choices with
      | nil => cases h
      | cons choice choices =>
        obtain ⟨p', hchoose, hrun⟩ := Option.bind_eq_some_iff.mp h
        cases choice with
        | skip =>
          cases hchoose
          rw [stages_skip]
          exact hskip.trans (ih hrest htracks hrun)
        | assign j' =>
          rw [stages_cons (by simp), Nat.cast_add, Nat.cast_one, add_comm]
          obtain ⟨rj, hj'⟩ : ∃ rj, p.open_residuals[j']? = some rj := by
            rcases hget : p.open_residuals[j']? with _ | rj
            · simp [Progress.choose, hget] at hchoose
            · exact ⟨rj, rfl⟩
          obtain ⟨j, hj⟩ := List.mem_iff_getElem?.mp
            (htracks.1.mem_iff.mpr (List.mem_of_getElem? hj'))
          obtain ⟨p'', hchoose', htracks'⟩ :=
            htracks.assign num_layers c hj hj'
          rw [hchoose] at hchoose'
          cases hchoose'
          exact (hassign (rj, j) (List.mem_zipIdx_iff_getElem?.mpr hj)).trans
            (by gcongr; exact ih hrest htracks' hrun)
        | start =>
          rw [stages_cons (by simp), Nat.cast_add, Nat.cast_one, add_comm]
          obtain ⟨p'', hchoose', htracks'⟩ := htracks.start num_layers c
          rw [hchoose] at hchoose'
          cases hchoose'
          -- A pipeline more than wanted would never be completed.
          have hnew : (k_target : Int) - f - rs.length > 0 := by
            have hpipes := (Completes.need hrest hrun).2.1
            have hmore : p'.pipes = p.pipes + 1 := by
              simp only [Progress.choose] at hchoose
              split at hchoose
              · cases hchoose
                simp only [Progress.pipes]
                omega
              · cases hchoose
                simp only [Progress.pipes, List.length_append, List.length_singleton]
                omega
            have hpipes' := htracks.pipes
            omega
          exact (hstart hnew).trans (by gcongr; exact ih hrest htracks' hrun)

/-- Skipping every node leaves the pipelines as they are. -/
theorem run_skips (nodes : List Caps) (p : Progress) :
    run_choices num_layers nodes (List.replicate nodes.length .skip) p = some p := by
  induction nodes with
  | nil => rfl
  | cons c rest ih => exact ih

/-- A finished state is completed without another stage. -/
theorem done_attained {nodes : List Caps} {p : Progress} {rs : List Int} {f : Nat}
    (htracks : Tracks rs f p) (hdone : f = k_target ∧ rs = []) :
    ∃ choices, Completes k_target num_layers nodes choices p ∧
      (fewest k_target num_layers nodes rs f).1 = stages choices := by
  obtain ⟨hperm, hf⟩ := htracks
  obtain ⟨hk, rfl⟩ := hdone
  have hp : p = ⟨[], k_target⟩ := by
    cases p
    simp only at hperm hf
    rw [hperm.nil_eq.symm, ← hf, hk]
  refine ⟨List.replicate nodes.length .skip, ?_, ?_⟩
  · unfold Completes
    rw [run_skips, hp]
  · rw [fewest_done ⟨hk, rfl⟩]
    simp [stages, List.countP_replicate]

/-- A finite cost is the number of stages of some sequence. -/
theorem fewest_attained {nodes : List Caps} {p : Progress} {rs : List Int} {f : Nat}
    (htracks : Tracks rs f p) (hfinite : (fewest k_target num_layers nodes rs f).1 < ⊤) :
    ∃ choices, Completes k_target num_layers nodes choices p ∧
      (fewest k_target num_layers nodes rs f).1 = stages choices := by
  induction nodes generalizing p rs f with
  | nil => exact done_attained htracks (fewest_nil hfinite)
  | cons c rest ih =>
    by_cases hdone : f = k_target ∧ rs = []
    · exact done_attained htracks hdone
    · obtain ⟨hchosen, hcost⟩ := fewest_step hdone hfinite
      have hnext := fewest_step_finite hdone hfinite
      rw [hcost]
      generalize (fewest k_target num_layers (c :: rest) rs f).2 = action at hchosen hnext ⊢
      cases hchosen with
      | skip =>
        obtain ⟨choices, hrun, hstages⟩ := ih htracks hnext
        refine ⟨.skip :: choices, hrun, ?_⟩
        simp only [next_state, Action.stages, Nat.cast_zero, zero_add, stages_skip]
        exact hstages
      | @assign rj j hj =>
        have hget : rs.getD j 0 = rj := by
          rw [List.getD_eq_getElem?_getD, hj]
          rfl
        simp only [next_state, hget, Action.stages] at hnext ⊢
        obtain ⟨j', hj'⟩ := List.mem_iff_getElem?.mp
          (htracks.1.mem_iff.mp (List.mem_of_getElem? hj))
        obtain ⟨p', hchoose, htracks'⟩ :=
          htracks.assign num_layers c hj hj'
        obtain ⟨choices, hrun, hstages⟩ := ih htracks' hnext
        refine ⟨.assign j' :: choices, Option.bind_eq_some_iff.mpr ⟨p', hchoose, hrun⟩, ?_⟩
        rw [stages_cons (by simp), hstages, Nat.cast_add, Nat.cast_one, add_comm]
      | start hnew =>
        simp only [next_state, Action.stages] at hnext ⊢
        obtain ⟨p', hchoose, htracks'⟩ := htracks.start num_layers c
        obtain ⟨choices, hrun, hstages⟩ := ih htracks' hnext
        refine ⟨.start :: choices, Option.bind_eq_some_iff.mpr ⟨p', hchoose, hrun⟩, ?_⟩
        rw [stages_cons (by simp), hstages, Nat.cast_add, Nat.cast_one, add_comm]

/-- The cost that the search finds is the least number of stages. -/
theorem fewest.spec {nodes : List Caps} (hsound : ∀ c ∈ nodes, c.Sound) :
    FewestStages k_target num_layers nodes ⟨[], 0⟩ (fewest k_target num_layers nodes [] 0).1 := by
  have htracks : Tracks [] 0 ⟨[], 0⟩ := ⟨List.Perm.refl _, rfl⟩
  refine ⟨fun choices h => fewest_le_stages hsound htracks h, ?_⟩
  rcases eq_or_ne (fewest k_target num_layers nodes [] 0).1 ⊤ with h | h
  · exact Or.inl h
  · exact Or.inr (fewest_attained htracks (lt_top_iff_ne_top.mpr h))

end exact

/-! ## The pipelines of an allocation -/

theorem caps_of_sound {n : Node} (h : 0 ≤ n.param_mem_ratio) : (caps_of n).Sound := by
  refine ⟨?_, n.get_decoder_layer_capacity_le false, embed_capacity_le n⟩
  have hbytes : 0 ≤ n.memory_bytes n.param_mem_ratio := by
    unfold Node.memory_bytes
    positivity
  have havailable : 0 ≤ n.available_memory_bytes false false := by
    simpa [Node.available_memory_bytes] using Int.floor_nonneg.mpr hbytes
  have hfactor := n.model_info.mlx_bit_factor_nonneg
  have hlayer := n.model_info.decoder_layer_bytes_nonneg
  show 0 ≤ n.get_decoder_layer_capacity false false
  unfold Node.get_decoder_layer_capacity
  dsimp only
  split
  · exact Int.floor_nonneg.mpr (by positivity)
  · exact Int.floor_nonneg.mpr (by positivity)

/-- For every number of pipelines, the search finds the least number of stages of all sequences of
choices. The allocation takes a number of pipelines of the best score among those it tries, and
splits the layers over exactly that many pipelines, none of them empty and no two with a common
node, that have the least number of stages. -/
theorem dp_allocation_is_optimal (a : Allocator) (hnodup : a.nodes.Nodup)
    (hratio : ∀ r ∈ a.nodes, 0 ≤ (a.store r).param_mem_ratio) :
    (∀ k, FewestStages k a.num_total_layers (node_caps a) ⟨[], 0⟩ (searched a k).1) ∧
      ((dp_pipelines a = .ok none ∧ ∀ k ∈ tried_counts a, (searched a k).1 = ⊤) ∨
        ∃ k s pipelines, dp_pipelines a = .ok (some pipelines) ∧ k ∈ tried_counts a ∧
          (searched a k).1 = (s : Nat) ∧
          (∀ k' ∈ tried_counts a, ∀ s' : Nat, (searched a k').1 = s' →
            (k' * k' : Nat) / (s' : Rat) ≤ (k * k : Nat) / (s : Rat)) ∧
          pipelines.length = k ∧ (∀ pipeline ∈ pipelines, pipeline ≠ [] ∧ pipeline.Nodup) ∧
          pipelines.Pairwise List.Disjoint ∧ (pipelines.map List.length).sum = s) := by
  refine ⟨?_, ?_⟩
  · intro k
    rw [show (searched a k).1 = _ from (searched.spec a k).1]
    apply fewest.spec
    intro c hc
    obtain ⟨r, hr, rfl⟩ := List.mem_map.mp hc
    exact caps_of_sound (hratio r hr)
  · rcases dp_pipelines.spec a hnodup with h | ⟨k, s, pipelines, hrun, hk, hs, hbest, hlen, hclosed,
      hflat, htotal⟩
    · exact Or.inl h
    · obtain ⟨hall, hdisjoint⟩ := List.nodup_flatten.mp hflat
      refine Or.inr ⟨k, s, pipelines, hrun, hk, hs, hbest, hlen, ?_, hdisjoint, ?_⟩
      · intro pipeline hp
        refine ⟨?_, hall pipeline hp⟩
        rintro rfl
        exact (hclosed [] hp).2
      · rw [← List.length_flatten]
        exact htotal

/-- The least number of stages of one pipeline over six layers, from the nodes of a mixed pool. -/
theorem mixed_pool_search_is_exact :
    FewestStages 1 6 (node_caps (pool (mixed_store (build_model_info 6)) (build_model_info 6) 3))
      ⟨[], 0⟩
      (searched (pool (mixed_store (build_model_info 6)) (build_model_info 6) 3) 1).1 :=
  (dp_allocation_is_optimal (pool (mixed_store (build_model_info 6)) (build_model_info 6) 3)
    (by decide +kernel) (by decide +kernel)).1 1

end scheduling.layer_allocation
