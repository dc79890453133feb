-- The pipelines that a static allocation builds: whatever the greedy or the
-- dynamic-programming search decides, each of them is made of listed nodes,
-- and has no node twice. So a whole allocation keeps what one split keeps.
import InferenceMesh.Scheduling.Invariants

open ordered_dict python state_exn
open scheduling.model_info scheduling.node

namespace scheduling.layer_allocation

open Allocator

/-- Nodes of the list, each of them once. -/
def Drawn (nodes pipeline : List Ref) : Prop := pipeline.Nodup ∧ ∀ r ∈ pipeline, r ∈ nodes

/-! ## The greedy search -/

theorem best_fit_lt {a : Allocator} {available_nodes : List Ref} {remaining total : Int} {i : Nat}
    (h : best_fit a available_nodes remaining total = some i) : i < available_nodes.length := by
  unfold best_fit at h
  rw [Option.map_eq_some_iff] at h
  obtain ⟨x, hx, rfl⟩ := h
  have hmem := List.mem_of_getLast? hx
  have hidx := List.snd_lt_of_mem_zipIdx (List.mem_filter.mp hmem).1
  omega

/-- What the search takes and what it leaves are a rearrangement of what there was. -/
theorem grow_pipeline_perm (a : Allocator) (look_ahead : Bool) (fuel : Nat) (pipeline : List Ref)
    (remaining total : Int) (available : List Ref) :
    ((grow_pipeline a look_ahead fuel pipeline remaining total available).1 ++
      (grow_pipeline a look_ahead fuel pipeline remaining total available).2.2).Perm
      (pipeline ++ available) := by
  induction fuel generalizing pipeline remaining total available with
  | zero => exact List.Perm.refl _
  | succ fuel ih =>
    unfold grow_pipeline
    split
    · split
      · exact List.Perm.refl _
      · rename_i first rest
        dsimp only
        set i := (if (look_ahead && pipeline.isEmpty &&
            decide (total - remaining ≥ a.num_total_layers + 1)) = true then
          (best_fit a (first :: rest) remaining total).getD 0 else 0) with hi
        have hlt : i < (first :: rest).length := by
          rw [hi]
          split
          · rcases hbest : best_fit a (first :: rest) remaining total with _ | j
            · simp
            · exact best_fit_lt hbest
          · simp
        have htaken : (first :: rest).getD i first = (first :: rest)[i] := by
          simp [List.getD, List.getElem?_eq_getElem hlt]
        apply (ih _ _ _ _).trans
        rw [htaken, List.append_assoc]
        exact (List.getElem_cons_eraseIdx_perm hlt).append_left pipeline
    · exact List.Perm.refl _

theorem greedy_pipelines_drawn (a : Allocator) (look_ahead : Bool) (fuel : Nat)
    (available : List Ref) (hnodup : available.Nodup) :
    ∀ pipeline ∈ greedy_pipelines a look_ahead fuel available, Drawn available pipeline := by
  induction fuel generalizing available with
  | zero =>
    intro pipeline hp
    cases hp
  | succ fuel ih =>
    intro pipeline hp
    unfold greedy_pipelines at hp
    dsimp only at hp
    split at hp
    · cases hp
    · have hperm := grow_pipeline_perm a look_ahead available.length [] a.num_total_layers
        (available.map a.capacity).sum available
      rw [List.nil_append] at hperm
      obtain ⟨hn1, hn2, _⟩ := List.nodup_append.mp (hperm.nodup_iff.mpr hnodup)
      split at hp
      · rcases List.mem_cons.mp hp with rfl | hp
        · exact ⟨hn1, fun r hr => hperm.mem_iff.mp (List.mem_append_left _ hr)⟩
        · obtain ⟨h1, h2⟩ := ih _ hn2 pipeline hp
          exact ⟨h1, fun r hr => hperm.mem_iff.mp (List.mem_append_right _ (h2 r hr))⟩
      · cases hp

/-! ## The dynamic-programming search -/

/-- A pipeline under construction has none of the nodes that are still to come. -/
def Begun (nodes rest pipeline : List Ref) : Prop :=
  Drawn nodes pipeline ∧ ∀ r ∈ rest, r ∉ pipeline

theorem Begun.tail {nodes rest pipeline : List Ref} {r : Ref}
    (h : Begun nodes (r :: rest) pipeline) : Begun nodes rest pipeline :=
  ⟨h.1, fun r' hr' => h.2 r' (List.mem_cons_of_mem _ hr')⟩

theorem Begun.extend {nodes rest pipeline : List Ref} {r : Ref}
    (h : Begun nodes (r :: rest) pipeline) (hr : r ∈ nodes) (hnot : r ∉ rest) :
    Begun nodes rest (pipeline ++ [r]) := by
  refine ⟨⟨?_, ?_⟩, ?_⟩
  · apply List.Nodup.append h.1.1 (List.nodup_singleton r)
    rw [List.disjoint_singleton]
    exact h.2 r List.mem_cons_self
  · intro r' hr'
    rcases List.mem_append.mp hr' with hr' | hr'
    · exact h.1.2 r' hr'
    · rw [List.mem_singleton.mp hr']
      exact hr
  · intro r' hr' hmem
    rcases List.mem_append.mp hmem with hmem | hmem
    · exact h.2 r' (List.mem_cons_of_mem _ hr') hmem
    · rw [List.mem_singleton.mp hmem] at hr'
      exact hnot hr'

/-- The pipeline of one node. -/
theorem Begun.single {nodes rest : List Ref} {r : Ref} (hr : r ∈ nodes) (hnot : r ∉ rest) :
    Begun nodes rest [r] := by
  have hempty : Begun nodes (r :: rest) [] := ⟨⟨List.nodup_nil, fun _ h => by cases h⟩, by simp⟩
  exact hempty.extend hr hnot

theorem backtrack_drawn (a : Allocator) (path : Dict Key Action) (best_num_pipes : Nat)
    (nodes rest : List Ref) (i : Nat) (open_list : List Open) (pipelines result : List (List Ref))
    (hrest : rest.Nodup) (hsub : ∀ r ∈ rest, r ∈ nodes)
    (hopen : ∀ x ∈ open_list, Begun nodes rest x.2)
    (hclosed : ∀ pipeline ∈ pipelines, Drawn nodes pipeline)
    (h : backtrack a path best_num_pipes rest i open_list pipelines = .ok result) :
    ∀ pipeline ∈ result, Drawn nodes pipeline := by
  induction rest generalizing i open_list pipelines with
  | nil =>
    cases h
    exact hclosed
  | cons r rest ih =>
    obtain ⟨hnot, hnodup⟩ := List.nodup_cons.mp hrest
    have hr := hsub r List.mem_cons_self
    have hsub' : ∀ r' ∈ rest, r' ∈ nodes := fun r' hr' => hsub r' (List.mem_cons_of_mem _ hr')
    have hopen' : ∀ x ∈ open_list, Begun nodes rest x.2 := fun x hx => (hopen x hx).tail
    have hadd : ∀ pipeline, Begun nodes rest pipeline →
        ∀ p ∈ pipelines ++ [pipeline], Drawn nodes p := by
      intro pipeline hp p hmem
      rcases List.mem_append.mp hmem with hmem | hmem
      · exact hclosed p hmem
      · rw [List.mem_singleton.mp hmem]
        exact hp.1
    unfold backtrack at h
    split at h
    · split at h
      · cases h
        exact hclosed
      · exact ih _ _ _ hnodup hsub' hopen' hclosed h
      · exact ih _ _ _ hnodup hsub' hopen' hclosed h
      · -- The node goes to the open pipeline `j`.
        rename_i j closed hpath
        have hsorted : ∀ x ∈ open_list.insertionSort (fun x y => x.1 ≤ y.1),
            Begun nodes (r :: rest) x.2 :=
          fun x hx => hopen x ((List.perm_insertionSort _ _).mem_iff.mp hx)
        dsimp only at h
        split at h
        · cases h
        · rename_i rj nodes_seq hj
          have hseq := (hsorted _ (List.mem_of_getElem? hj)).extend hr hnot
          generalize (if rj - (caps_of (a.store r)).norm ≤ 0 then rj - (caps_of (a.store r)).close
            else rj - (caps_of (a.store r)).norm) = r_after at h
          split at h
          · refine ih _ _ _ hnodup hsub' ?_ (hadd _ hseq) h
            intro x hx
            exact (hsorted x (List.mem_of_mem_eraseIdx hx)).tail
          · refine ih _ _ _ hnodup hsub' ?_ hclosed h
            intro x hx
            rcases List.mem_or_eq_of_mem_set hx with hx | rfl
            · exact (hsorted x hx).tail
            · exact hseq
      · -- The node starts a pipeline.
        rename_i r_new closed hpath
        have hone : Begun nodes rest [r] := Begun.single hr hnot
        split at h
        · exact ih _ _ _ hnodup hsub' hopen' (hadd _ hone) h
        · refine ih _ _ _ hnodup hsub' ?_ hclosed h
          intro x hx
          rcases List.mem_append.mp hx with hx | hx
          · exact hopen' x hx
          · rw [List.mem_singleton.mp hx]
            exact hone
    · cases h
      exact hclosed

theorem dp_pipelines_drawn {a : Allocator} {pipelines : List (List Ref)} (hnodup : a.nodes.Nodup)
    (h : dp_pipelines a = .ok (some pipelines)) :
    ∀ pipeline ∈ pipelines, Drawn a.nodes pipeline := by
  unfold dp_pipelines at h
  dsimp only at h
  split at h
  · cases h
  · split at h
    · cases h
    · split at h
      · cases h
      · rename_i ps hps
        cases h
        exact backtrack_drawn a _ _ a.nodes a.nodes 0 [] [] _ hnodup (fun _ hr => hr)
          (fun x hx => by cases hx) (fun p hp => by cases hp) hps

/-! ## The whole allocation -/

/-- The pipelines that a static allocation splits the layers over. -/
def searched_pipelines (a : Allocator) : List (List Ref) :=
  match a.strategy with
  | .greedy look_ahead_enable _ => greedy_pipelines a look_ahead_enable a.nodes.length a.nodes
  | .dp =>
    match dp_pipelines a with
    | .ok (some pipelines) => pipelines
    | _ => []

/-- How the strategy of the allocator splits the layers over a pipeline. -/
def splits_by (a : Allocator) : RebalanceStrategy :=
  match a.strategy with
  | .greedy _ pipeline_rebalance_strategy => pipeline_rebalance_strategy
  | .dp => .water_filling

/-- The splits of an allocation give out fine ranges. -/
def SplitsOk (Ok : Ref → Int → Int → Prop) (a : Allocator) : Prop :=
  splits_by a = .water_filling →
    ∀ pipeline ∈ searched_pipelines a, SplitOk Ok a pipeline false .flops

theorem searched_pipelines_drawn {a : Allocator} (h : a.nodes.Nodup) :
    ∀ pipeline ∈ searched_pipelines a, Drawn a.nodes pipeline := by
  unfold searched_pipelines
  split
  · exact greedy_pipelines_drawn a _ _ _ h
  · split
    · rename_i ps hps
      exact dp_pipelines_drawn h hps
    · intro p hp
      cases hp

namespace Kept

variable {I : Allocator → Prop} {Ok : Ref → Int → Int → Prop}

theorem adjust_pipelines (K : Kept I Ok) {a₀ : Allocator} (hviews : Views a₀)
    (strategy : RebalanceStrategy) (pipelines : List (List Ref))
    (hdrawn : ∀ pipeline ∈ pipelines, Drawn a₀.nodes pipeline)
    (hok : strategy = .water_filling →
      ∀ pipeline ∈ pipelines, SplitOk Ok a₀ pipeline false .flops) :
    Triple (fun a => I a ∧ From a₀ a) (pipelines.forM (adjust_by strategy))
      (fun _ a => I a ∧ From a₀ a) (fun _ a => I a) := by
  induction pipelines with
  | nil => exact Triple.pure (fun _ h => h)
  | cons pipeline rest ih =>
    obtain ⟨hnodup, hsub⟩ := hdrawn pipeline List.mem_cons_self
    have hids := hviews.ids_nodup hnodup hsub
    have husable : ∀ a, I a → From a₀ a → ∀ r ∈ pipeline, Usable a r := by
      intro a hI hfrom r hr
      apply (K.views a hI).usable_of_listed
      rw [hfrom.nodes]
      exact hsub r hr
    have hstep : Triple (fun a => I a ∧ From a₀ a) (adjust_by strategy pipeline)
        (fun _ a => I a ∧ From a₀ a) (fun _ a => I a) := by
      cases strategy with
      | greedy =>
        exact Triple.mono (K.adjust_pipeline_layers_greedy hids)
          (fun a h => ⟨h.1, h.2, husable a h.1 h.2⟩) (fun _ _ h => h) (fun _ _ h => h)
      | water_filling =>
        exact Triple.mono (K.adjust_pipeline_layers hids (hok rfl pipeline List.mem_cons_self))
          (fun a h => ⟨h.1, h.2, husable a h.1 h.2⟩) (fun _ _ h => h) (fun _ _ h => h)
    exact Triple.bind hstep (fun _ => ih (fun p hp => hdrawn p (List.mem_cons_of_mem _ hp))
      (fun hs p hp => hok hs p (List.mem_cons_of_mem _ hp)))

theorem greedy_global_allocation (K : Kept I Ok) {a₀ : Allocator} (hI : I a₀)
    {look_ahead : Bool} {strategy : RebalanceStrategy}
    (hstrategy : a₀.strategy = .greedy look_ahead strategy) (hok : SplitsOk Ok a₀) :
    Triple (fun a => a = a₀) (greedy_global_allocation look_ahead strategy) (fun _ a => I a)
      (fun _ a => I a) := by
  have hsearch : searched_pipelines a₀ =
      greedy_pipelines a₀ look_ahead a₀.nodes.length a₀.nodes := by
    simp [searched_pipelines, hstrategy]
  have hviews := K.views a₀ hI
  have hadjust := K.adjust_pipelines hviews strategy (searched_pipelines a₀)
    (searched_pipelines_drawn hviews.nodup)
    (fun hs => hok (by simp [splits_by, hstrategy, hs]))
  apply Triple.reads
  intro s hs
  rw [hs]
  dsimp only
  rw [← hsearch]
  apply Triple.bind (Triple.mono hadjust _ (fun _ _ h => h) (fun _ _ h => h))
  · intro _
    apply Triple.reads
    rintro a ⟨hIa, _⟩
    apply Triple.cond
    · intro _
      apply Triple.pure
      rintro _ rfl
      exact hIa
    · intro _
      apply Triple.cond
      · intro _
        apply Triple.bind (Triple.mono K.allocate_left_over_nodes _ (fun _ _ h => h) (fun _ _ h => h))
        · exact fun _ => Triple.pure (fun _ h => h)
        · rintro _ rfl
          exact hIa
      · intro _
        apply Triple.pure
        rintro _ rfl
        exact hIa
  · rintro _ rfl
    exact ⟨hI, From.refl _⟩

theorem dp_global_allocation (K : Kept I Ok) {a₀ : Allocator} (hI : I a₀)
    (hstrategy : a₀.strategy = .dp) (hok : SplitsOk Ok a₀) :
    Triple (fun a => a = a₀) dp_global_allocation (fun _ a => I a) (fun _ a => I a) := by
  have hviews := K.views a₀ hI
  apply Triple.reads
  intro s hs
  rw [hs]
  split
  · apply Triple.throws
    rintro _ rfl
    exact hI
  · apply Triple.pure
    rintro _ rfl
    exact hI
  · rename_i pipelines hrun
    have hsearch : searched_pipelines a₀ = pipelines := by
      simp [searched_pipelines, hstrategy, hrun]
    have hadjust := K.adjust_pipelines hviews .water_filling (searched_pipelines a₀)
      (searched_pipelines_drawn hviews.nodup)
      (fun _ => hok (by simp [splits_by, hstrategy]))
    rw [hsearch] at hadjust
    apply Triple.bind (Triple.mono hadjust _ (fun _ _ h => h.1) (fun _ _ h => h))
    · intro _
      have hlast : Keeps I (do
          let a ← get
          return a.has_full_pipeline false : AllocM Bool) :=
        Keeps.bind Keeps.gets (fun _ => Keeps.pure _)
      apply Triple.cond
      · exact fun _ => Keeps.bind K.allocate_left_over_nodes (fun _ => hlast)
      · exact fun _ => hlast
    · rintro _ rfl
      exact ⟨hI, From.refl _⟩

/-- A static allocation keeps the invariant on either exit. -/
theorem global_allocation (K : Kept I Ok) {a₀ : Allocator} (hI : I a₀) (hok : SplitsOk Ok a₀) :
    I (stateOf (global_allocation a₀)) := by
  have htriple : Triple (fun a => a = a₀) layer_allocation.global_allocation (fun _ a => I a)
      (fun _ a => I a) := by
    apply Triple.reads
    intro s hs
    rw [hs]
    split
    · rename_i look_ahead strategy hstrategy
      exact K.greedy_global_allocation hI hstrategy hok
    · rename_i hstrategy
      exact K.dp_global_allocation hI hstrategy hok
  exact htriple.state rfl

end Kept

end scheduling.layer_allocation
