-- The pipelines that the dynamic-programming search ends with. Following the
-- remembered actions gives the promised number of pipelines, each of them
-- closed, and the search promises one whenever there is one in its order.
import InferenceMesh.Scheduling.GreedySearch
import InferenceMesh.Scheduling.PipelineDP

open ordered_dict python
open scheduling.model_info scheduling.node

namespace scheduling.layer_allocation

open Allocator

/-- The nodes are a pipeline of the dynamic-programming search. -/
def ClosesInOrder (a : Allocator) : List Ref → Prop
  | [] => False
  | x :: rest => Closes a.store
      (a.num_total_layers - (a.store x).get_decoder_layer_capacity true false) rest

instance (a : Allocator) (nodes : List Ref) : Decidable (ClosesInOrder a nodes) :=
  match nodes with
  | [] => inferInstanceAs (Decidable False)
  | x :: rest => inferInstanceAs (Decidable (Closes a.store
      (a.num_total_layers - (a.store x).get_decoder_layer_capacity true false) rest))

/-! ## Sorted residuals -/

theorem sorted_residuals_perm (l : List Int) : (sorted_residuals l).Perm l :=
  List.perm_insertionSort _ l

theorem sorted_residuals_pairwise (l : List Int) : (sorted_residuals l).Pairwise (· ≤ ·) :=
  List.pairwise_insertionSort _ l

theorem sorted_residuals_congr {l l' : List Int} (h : l.Perm l') :
    sorted_residuals l = sorted_residuals l' :=
  List.Perm.eq_of_pairwise (fun _ _ _ _ h h' => le_antisymm h h') (sorted_residuals_pairwise l)
    (sorted_residuals_pairwise l') ((sorted_residuals_perm l).trans (h.trans (sorted_residuals_perm l').symm))

theorem sorted_residuals_of_pairwise {l : List Int} (h : l.Pairwise (· ≤ ·)) :
    sorted_residuals l = l := List.Pairwise.insertionSort_eq h

/-- The open pipelines sorted by their residuals. -/
theorem sorted_open_map (open_list : List Open) :
    (open_list.insertionSort (fun x y => x.1 ≤ y.1)).map Prod.fst =
      sorted_residuals (open_list.map Prod.fst) := by
  have : Std.Total (fun x y : Open => x.1 ≤ y.1) := ⟨fun x y => le_total x.1 y.1⟩
  have : IsTrans Open (fun x y => x.1 ≤ y.1) := ⟨fun x y z h h' => h.trans h'⟩
  apply List.Perm.eq_of_pairwise (fun _ _ _ _ h h' => le_antisymm h h')
  · rw [List.pairwise_map]
    exact List.pairwise_insertionSort (fun x y : Open => x.1 ≤ y.1) open_list
  · exact sorted_residuals_pairwise _
  · exact ((List.perm_insertionSort _ _).map _).trans (sorted_residuals_perm _).symm

/-! ## Following the actions -/

/-- An open pipeline of the search: any nodes that cover its residual close it. -/
def OpenAt (a : Allocator) (rest : List Ref) (x : Open) : Prop :=
  0 < x.1 ∧ (x.2 ++ rest).Sublist a.nodes ∧ x.2 ≠ [] ∧
    ∀ nodes, Closes a.store x.1 nodes → ClosesInOrder a (x.2 ++ nodes)

theorem OpenAt.tail {a : Allocator} {r : Ref} {rest : List Ref} {x : Open}
    (h : OpenAt a (r :: rest) x) : OpenAt a rest x :=
  ⟨h.1, (List.Sublist.append_left (List.sublist_cons_self r rest) x.2).trans h.2.1, h.2.2⟩

/-- A closed pipeline of the search. -/
def ClosedIn (a : Allocator) (pipeline : List Ref) : Prop :=
  pipeline.Sublist a.nodes ∧ ClosesInOrder a pipeline

theorem closed_of_sublist {a : Allocator} {pipeline rest : List Ref}
    (hsub : (pipeline ++ rest).Sublist a.nodes) (hcloses : ClosesInOrder a pipeline) :
    ClosedIn a pipeline := ⟨(List.sublist_append_left _ _).trans hsub, hcloses⟩

/-- A node more for an open pipeline: it closes, or it stays open. -/
theorem OpenAt.extend {a : Allocator} {r : Ref} {rest : List Ref} {rj : Int} {seq : List Ref}
    (h : OpenAt a (r :: rest) (rj, seq)) :
    (rj - charge (a.store r) rj ≤ 0 → ClosedIn a (seq ++ [r])) ∧
      (0 < rj - charge (a.store r) rj →
        OpenAt a rest (rj - charge (a.store r) rj, seq ++ [r])) := by
  obtain ⟨hpos, hsub, _, hcloses⟩ := h
  have hsub' : ((seq ++ [r]) ++ rest).Sublist a.nodes := by
    rw [List.append_assoc]
    exact hsub
  constructor
  · intro hle
    exact closed_of_sublist hsub' (hcloses [r] ⟨hpos, hle⟩)
  · intro hgt
    refine ⟨hgt, hsub', by simp, ?_⟩
    intro nodes hnodes
    show ClosesInOrder a ((seq ++ [r]) ++ nodes)
    rw [List.append_assoc]
    exact hcloses (r :: nodes) ⟨hpos, hnodes⟩

/-- A node that starts a pipeline of its own. -/
theorem start_open {a : Allocator} {r : Ref} {rest : List Ref} (hsub : (r :: rest).Sublist a.nodes) :
    (a.num_total_layers - (a.store r).get_decoder_layer_capacity true false ≤ 0 →
        ClosedIn a [r]) ∧
      (0 < a.num_total_layers - (a.store r).get_decoder_layer_capacity true false →
        OpenAt a rest
          (a.num_total_layers - (a.store r).get_decoder_layer_capacity true false, [r])) := by
  constructor
  · intro hle
    exact closed_of_sublist hsub hle
  · intro hgt
    exact ⟨hgt, hsub, by simp, fun nodes hnodes => hnodes⟩

theorem charge_eq (n : Node) (rj : Int) :
    rj - charge n rj = if rj - (caps_of n).norm ≤ 0 then rj - (caps_of n).close
      else rj - (caps_of n).norm := by
  unfold charge caps_of
  dsimp only
  split <;> rfl

/-- The state after a node goes to an open pipeline, by what the node is charged. -/
theorem assign_to_eq (n : Node) (rs : List Int) (f j : Nat) (rj : Int) :
    assign_to (caps_of n) rs f j rj =
      if rj - charge n rj ≤ 0 then (rs.eraseIdx j, f + 1, true)
      else (sorted_residuals (rs.set j (rj - charge n rj)), f, false) := by
  rw [charge_eq]
  unfold assign_to
  split
  · rfl
  · rfl

/-- When all pipelines are finished, none is open, and no stage is missing. -/
theorem fewest_full {k_target : Nat} {num_layers : Int} {nodes : List Caps} {rs : List Int}
    (hfinite : (fewest k_target num_layers nodes rs k_target).1 < ⊤) :
    rs = [] ∧ (fewest k_target num_layers nodes rs k_target).1 = 0 := by
  by_cases hrs : rs = []
  · exact ⟨hrs, by rw [fewest_done ⟨rfl, hrs⟩]⟩
  · cases nodes with
    | nil => exact absurd (fewest_nil hfinite).2 hrs
    | cons c rest =>
      have hpos : 0 < rs.length := List.length_pos_of_ne_nil hrs
      have hpruned : pruned k_target num_layers (c :: rest) rs k_target := by
        left
        omega
      unfold fewest at hfinite
      rw [if_neg (fun h => hrs h.2), if_pos hpruned] at hfinite
      exact absurd hfinite (lt_irrefl _)

/-- The nodes of the open pipelines and of the closed ones. -/
def used (open_list : List Open) (pipelines : List (List Ref)) : List Ref :=
  (open_list.map Prod.snd).flatten ++ pipelines.flatten

theorem used_perm {open_list open_list' : List Open} (h : open_list.Perm open_list')
    (pipelines : List (List Ref)) : (used open_list pipelines).Perm (used open_list' pipelines) :=
  ((h.map Prod.snd).flatten).append_right _

/-- A node more for an open pipeline that stays open. -/
theorem used_set {open_list : List Open} {j : Nat} {x y : Open} {r : Ref}
    (hj : open_list[j]? = some x) (hy : y.2 = x.2 ++ [r]) (pipelines : List (List Ref)) :
    (used (open_list.set j y) pipelines).Perm (used open_list pipelines ++ [r]) := by
  obtain ⟨hlt, rfl⟩ := List.getElem?_eq_some_iff.mp hj
  have hset := used_perm (List.set_perm_cons_eraseIdx hlt y) pipelines
  have hold := used_perm (List.getElem_cons_eraseIdx_perm hlt) pipelines
  refine hset.trans (List.Perm.trans ?_ (hold.append_right [r]))
  rw [List.perm_iff_count]
  intro z
  simp only [used, List.map_cons, List.flatten_cons, List.count_append, hy]
  omega

/-- A node more for an open pipeline that closes. -/
theorem used_close {open_list : List Open} {j : Nat} {x : Open} {r : Ref}
    (hj : open_list[j]? = some x) (pipelines : List (List Ref)) :
    (used (open_list.eraseIdx j) (pipelines ++ [x.2 ++ [r]])).Perm
      (used open_list pipelines ++ [r]) := by
  obtain ⟨hlt, rfl⟩ := List.getElem?_eq_some_iff.mp hj
  have hold := used_perm (List.getElem_cons_eraseIdx_perm hlt) pipelines
  refine List.Perm.trans ?_ (hold.append_right [r])
  rw [List.perm_iff_count]
  intro z
  simp only [used, List.map_cons, List.flatten_cons, List.flatten_append, List.flatten_nil,
    List.count_append, List.count_nil]
  omega

theorem used_start (open_list : List Open) (pipelines : List (List Ref)) (r : Ref) (r_new : Int) :
    (used open_list (pipelines ++ [[r]])).Perm (used open_list pipelines ++ [r]) ∧
      (used (open_list ++ [(r_new, [r])]) pipelines).Perm (used open_list pipelines ++ [r]) := by
  constructor
  · rw [List.perm_iff_count]
    intro z
    simp only [used, List.flatten_append, List.flatten_cons, List.flatten_nil, List.append_nil,
      List.count_append]
    omega
  · rw [List.perm_iff_count]
    intro z
    simp only [used, List.map_append, List.map_cons, List.map_nil, List.flatten_append,
      List.flatten_cons, List.flatten_nil, List.append_nil, List.count_append]
    omega

/-- A step that uses one node more leaves the rest unused, and accounts for one stage. -/
theorem used_step {open_list open_list' : List Open} {pipelines pipelines' : List (List Ref)}
    {r : Ref} {rest : List Ref}
    (hperm : (used open_list' pipelines').Perm (used open_list pipelines ++ [r]))
    (hnodup : (used open_list pipelines ++ r :: rest).Nodup) :
    (used open_list' pipelines' ++ rest).Nodup ∧
      (used open_list' pipelines').length = (used open_list pipelines).length + 1 := by
  refine ⟨?_, by simpa using hperm.length_eq⟩
  have hall := hperm.append_right rest
  rw [List.append_assoc] at hall
  exact hall.nodup_iff.mpr hnodup

/-- With all pipelines closed, the ones so far are the result. -/
theorem finished_pipelines {k_target : Nat} {num_layers : Int} {nodes : List Caps}
    {rest : List Ref} {open_list : List Open} {pipelines : List (List Ref)}
    (hlen : pipelines.length = k_target)
    (hfinite : (fewest k_target num_layers nodes (sorted_residuals (open_list.map Prod.fst))
      pipelines.length).1 < ⊤)
    (hnodup : (used open_list pipelines ++ rest).Nodup) :
    pipelines.flatten.Nodup ∧
      (pipelines.flatten.length : Cost) = ((used open_list pipelines).length : Cost) +
        (fewest k_target num_layers nodes (sorted_residuals (open_list.map Prod.fst))
          pipelines.length).1 := by
  rw [hlen] at hfinite ⊢
  obtain ⟨hnone, hzero⟩ := fewest_full hfinite
  have hlength := (sorted_residuals_perm (open_list.map Prod.fst)).length_eq
  rw [hnone, List.length_nil, List.length_map] at hlength
  have hnil : open_list = [] := List.length_eq_zero_iff.mp hlength.symm
  have hused : used open_list pipelines = pipelines.flatten := by
    rw [hnil]
    rfl
  rw [hused] at hnodup ⊢
  rw [hzero, add_zero]
  exact ⟨(List.nodup_append.mp hnodup).1, rfl⟩

/-- Following the actions from a state that can be finished gives closed pipelines: as many as
were promised, without a common node, and with as many stages as were promised. -/
theorem backtrack.spec (a : Allocator) (k_target : Nat) (m : Memo) (rest : List Ref) (i : Nat)
    (open_list : List Open) (pipelines : List (List Ref))
    (hagrees : MemoAgrees k_target a.num_total_layers (a.nodes.map (fun r => caps_of (a.store r))) m)
    (hrest : a.nodes.drop i = rest)
    (hknown : m.Knows i (sorted_residuals (open_list.map Prod.fst)) pipelines.length)
    (hfinite : (fewest k_target a.num_total_layers (rest.map (fun r => caps_of (a.store r)))
      (sorted_residuals (open_list.map Prod.fst)) pipelines.length).1 < ⊤)
    (hle : pipelines.length ≤ k_target) (hnodup : (used open_list pipelines ++ rest).Nodup)
    (hopen : ∀ x ∈ open_list, OpenAt a rest x)
    (hclosed : ∀ pipeline ∈ pipelines, ClosedIn a pipeline) :
    ∃ result, backtrack a m.path k_target rest i open_list pipelines = .ok result ∧
      result.length = k_target ∧ (∀ pipeline ∈ result, ClosedIn a pipeline) ∧
      result.flatten.Nodup ∧
      (result.flatten.length : Cost) = ((used open_list pipelines).length : Cost) +
        (fewest k_target a.num_total_layers (rest.map (fun r => caps_of (a.store r)))
          (sorted_residuals (open_list.map Prod.fst)) pipelines.length).1 := by
  induction rest generalizing i open_list pipelines with
  | nil =>
    obtain ⟨hlen, _⟩ := fewest_nil hfinite
    exact ⟨pipelines, rfl, hlen, hclosed, finished_pipelines hlen hfinite hnodup⟩
  | cons r rest ih =>
    set rs := sorted_residuals (open_list.map Prod.fst) with hrs
    set all := a.nodes.map (fun r => caps_of (a.store r)) with hall
    have hdrop : all.drop i = caps_of (a.store r) :: rest.map (fun r => caps_of (a.store r)) := by
      rw [hall, ← List.map_drop, hrest]
      rfl
    have hrest' : a.nodes.drop (i + 1) = rest := by
      rw [← List.drop_drop, hrest]
      rfl
    have hsub : (r :: rest).Sublist a.nodes := hrest ▸ List.drop_sublist i a.nodes
    have htail : ∀ x ∈ open_list, OpenAt a rest x := fun x hx => (hopen x hx).tail
    have hadd : ∀ pipeline, ClosedIn a pipeline → ∀ p ∈ pipelines ++ [pipeline], ClosedIn a p := by
      intro pipeline hp p hmem
      rcases List.mem_append.mp hmem with hmem | hmem
      · exact hclosed p hmem
      · rw [List.mem_singleton.mp hmem]
        exact hp
    rw [List.map_cons] at hfinite ⊢
    unfold backtrack
    split
    · rename_i hlt
      have hunfinished : ¬ (pipelines.length = k_target ∧ rs = []) := fun h => hlt.ne h.1
      have hremembered := hagrees.remembered i rs pipelines.length hknown
      have hpath := hremembered.action (by rw [hdrop]; exact hfinite)
      have honward := hremembered.onward (by rw [hdrop]; exact hfinite) hunfinished _ _ hdrop
      obtain ⟨hchosen, hcost⟩ := fewest_step hunfinished hfinite
      have hnext := fewest_step_finite hunfinished hfinite
      rw [hdrop] at hpath honward
      rw [hpath, hcost]
      generalize (fewest k_target a.num_total_layers
        (caps_of (a.store r) :: rest.map (fun r => caps_of (a.store r))) rs pipelines.length).2 =
          action at hpath honward hchosen hnext ⊢
      -- A step that uses the node leads to the result of the state behind it.
      have hstep : ∀ open_list' pipelines',
          (used open_list' pipelines').Perm (used open_list pipelines ++ [r]) →
          m.Knows (i + 1) (sorted_residuals (open_list'.map Prod.fst)) pipelines'.length →
          (fewest k_target a.num_total_layers (rest.map (fun r => caps_of (a.store r)))
            (sorted_residuals (open_list'.map Prod.fst)) pipelines'.length).1 < ⊤ →
          pipelines'.length ≤ k_target → (∀ x ∈ open_list', OpenAt a rest x) →
          (∀ pipeline ∈ pipelines', ClosedIn a pipeline) →
          ∃ result, backtrack a m.path k_target rest (i + 1) open_list' pipelines' = .ok result ∧
            result.length = k_target ∧ (∀ pipeline ∈ result, ClosedIn a pipeline) ∧
            result.flatten.Nodup ∧
            (result.flatten.length : Cost) = ((used open_list pipelines).length : Cost) +
              (((1 : Nat) : Cost) +
              (fewest k_target a.num_total_layers (rest.map (fun r => caps_of (a.store r)))
                (sorted_residuals (open_list'.map Prod.fst)) pipelines'.length).1) := by
        intro open_list' pipelines' hperm hknown' hfinite' hle' hopen' hclosed'
        obtain ⟨hnodup', hlength⟩ := used_step hperm hnodup
        obtain ⟨result, hrun, hlen, hall', hflat, htotal⟩ :=
          ih (i + 1) open_list' pipelines' hrest' hknown' hfinite' hle' hnodup' hopen' hclosed'
        refine ⟨result, hrun, hlen, hall', hflat, ?_⟩
        rw [htotal, hlength, ← add_assoc]
        push_cast
        rfl
      cases hchosen with
      | skip =>
        obtain ⟨result, hrun, hlen, hall', hflat, htotal⟩ := ih (i + 1) open_list pipelines hrest'
          honward hnext hle
          (hnodup.sublist (List.Sublist.append_left (List.sublist_cons_self r rest) _)) htail hclosed
        refine ⟨result, hrun, hlen, hall', hflat, ?_⟩
        rw [htotal]
        simp only [Action.stages, Nat.cast_zero, zero_add, next_state]
        rfl
      | @assign rj j hj =>
        have hget : rs.getD j 0 = rj := by
          rw [List.getD_eq_getElem?_getD, hj]
          rfl
        have hmap := sorted_open_map open_list
        have hsame := used_perm (List.perm_insertionSort (fun x y : Open => x.1 ≤ y.1) open_list)
          pipelines
        obtain ⟨⟨rj', seq⟩, hseq, rfl⟩ : ∃ x, (open_list.insertionSort (fun x y => x.1 ≤ y.1))[j]? =
            some x ∧ x.1 = rj := by
          rw [← hrs] at hmap
          rw [← hmap, List.getElem?_map] at hj
          exact Option.map_eq_some_iff.mp hj
        have hsorted : ∀ x ∈ open_list.insertionSort (fun x y => x.1 ≤ y.1),
            OpenAt a (r :: rest) x :=
          fun x hx => hopen x ((List.perm_insertionSort _ _).mem_iff.mp hx)
        obtain ⟨hcloses, hopens⟩ := (hsorted _ (List.mem_of_getElem? hseq)).extend
        simp only [next_state, hget, assign_to_eq, Action.stages] at honward hnext ⊢
        simp only [hseq, ← charge_eq]
        by_cases hle : rj' - charge (a.store r) rj' ≤ 0
        · simp only [if_pos hle] at honward hnext ⊢
          rw [if_pos (Or.inl hle)]
          have hkey : sorted_residuals
              (((open_list.insertionSort (fun x y => x.1 ≤ y.1)).eraseIdx j).map Prod.fst) =
                rs.eraseIdx j := by
            rw [← List.eraseIdx_map, hmap, ← hrs]
            exact sorted_residuals_of_pairwise
              ((sorted_residuals_pairwise _).sublist (List.eraseIdx_sublist _ _))
          have hdone := hstep ((open_list.insertionSort (fun x y => x.1 ≤ y.1)).eraseIdx j)
            (pipelines ++ [seq ++ [r]])
            ((used_close hseq pipelines).trans (hsame.append_right [r]))
          rw [hkey, List.length_append, List.length_singleton] at hdone
          exact hdone honward hnext (by omega)
            (fun x hx => (hsorted x (List.mem_of_mem_eraseIdx hx)).tail) (hadd _ (hcloses hle))
        · simp only [if_neg hle] at honward hnext ⊢
          rw [if_neg (by simp; omega)]
          have hkey : ((open_list.insertionSort (fun x y => x.1 ≤ y.1)).set j
              (rj' - charge (a.store r) rj', seq ++ [r])).map Prod.fst =
                rs.set j (rj' - charge (a.store r) rj') := by
            rw [List.map_set, hmap]
          have hdone := hstep ((open_list.insertionSort (fun x y => x.1 ≤ y.1)).set j
            (rj' - charge (a.store r) rj', seq ++ [r])) pipelines
            ((used_set hseq rfl pipelines).trans (hsame.append_right [r]))
          rw [hkey] at hdone
          refine hdone honward hnext hlt.le ?_ hclosed
          intro x hx
          rcases List.mem_or_eq_of_mem_set hx with hx | rfl
          · exact (hsorted x hx).tail
          · exact hopens (not_le.mp hle)
      | start hnew =>
        obtain ⟨hcloses, hopens⟩ := start_open hsub
        have hstart : (caps_of (a.store r)).start =
            (a.store r).get_decoder_layer_capacity true false := rfl
        obtain ⟨hperm, hperm'⟩ := used_start open_list pipelines r
          (a.num_total_layers - (a.store r).get_decoder_layer_capacity true false)
        simp only [next_state, start_with, hstart, Action.stages] at honward hnext ⊢
        by_cases hle : a.num_total_layers - (a.store r).get_decoder_layer_capacity true false ≤ 0
        · simp only [if_pos hle] at honward hnext ⊢
          have hdone := hstep open_list (pipelines ++ [[r]]) hperm
          rw [List.length_append, List.length_singleton] at hdone
          exact hdone honward hnext (by omega) htail (hadd _ (hcloses hle))
        · simp only [if_neg hle] at honward hnext ⊢
          have hkey : sorted_residuals ((open_list ++ [(a.num_total_layers -
              (a.store r).get_decoder_layer_capacity true false, [r])]).map Prod.fst) =
                sorted_residuals (rs ++ [a.num_total_layers -
                  (a.store r).get_decoder_layer_capacity true false]) := by
            rw [List.map_append]
            exact sorted_residuals_congr ((sorted_residuals_perm _).symm.append_right _)
          have hdone := hstep (open_list ++ [(a.num_total_layers -
            (a.store r).get_decoder_layer_capacity true false, [r])]) pipelines hperm'
          rw [hkey] at hdone
          refine hdone honward hnext hlt.le ?_ hclosed
          intro x hx
          rcases List.mem_append.mp hx with hx | hx
          · exact htail x hx
          · rw [List.mem_singleton.mp hx]
            exact hopens (not_le.mp hle)
    · rename_i hge
      have hlen : pipelines.length = k_target := le_antisymm hle (not_lt.mp hge)
      exact ⟨pipelines, rfl, hlen, hclosed, finished_pipelines hlen hfinite hnodup⟩

/-! ## One pipeline is found -/

section one

variable {a : Allocator}

theorem fewest_finite_of {k_target : Nat} {num_layers : Int} {c : Caps} {rest : List Caps}
    {rs : List Int} {f : Nat} (hopen : ¬ (f = k_target ∧ rs = []))
    (hpruned : ¬ pruned k_target num_layers (c :: rest) rs f)
    (h : (fewest k_target num_layers rest rs f).1 < ⊤ ∨
      (∃ x ∈ rs.zipIdx, (fewest k_target num_layers rest (assign_to c rs f x.2 x.1).1
        (assign_to c rs f x.2 x.1).2.1).1 < ⊤) ∨
      ((k_target : Int) - f - rs.length > 0 ∧ (fewest k_target num_layers rest
        (start_with c num_layers rs f).1 (start_with c num_layers rs f).2.1).1 < ⊤)) :
    (fewest k_target num_layers (c :: rest) rs f).1 < ⊤ := by
  have hone : ∀ cost : Cost, cost < ⊤ → 1 + cost < ⊤ :=
    fun cost hcost => WithTop.add_lt_top.mpr ⟨WithTop.coe_lt_top 1, hcost⟩
  obtain ⟨hskip, hassign, hstart⟩ := fewest_options_le hopen hpruned
  rcases h with h | ⟨x, hx, h⟩ | ⟨hnew, h⟩
  · exact hskip.trans_lt h
  · exact (hassign x hx).trans_lt (hone _ h)
  · exact (hstart hnew).trans_lt (hone _ h)

theorem fewest_finished (nodes : List Caps) (num_layers : Int) :
    (fewest 1 num_layers nodes [] 1).1 < ⊤ := by
  rw [fewest_done ⟨rfl, rfl⟩]
  exact WithTop.coe_lt_top 0

theorem norm_sum_eq (nodes : List Ref) :
    ((nodes.map (fun r => caps_of (a.store r))).map Caps.norm).sum = (nodes.map a.capacity).sum := by
  rw [List.map_map]
  rfl

theorem capacity_sum_le {nodes rest : List Ref} (hsub : nodes.Sublist rest)
    (hnonneg : ∀ r ∈ rest, 0 ≤ a.capacity r) :
    (nodes.map a.capacity).sum ≤ (rest.map a.capacity).sum := by
  apply List.Sublist.sum_le_sum (hsub.map a.capacity)
  intro c hc
  obtain ⟨r, hr, rfl⟩ := List.mem_map.mp hc
  exact hnonneg r hr

/-- An open pipeline is closed when some of the nodes, in their order, cover its residual. -/
theorem fewest_of_closes (rest nodes : List Ref) (left : Int) (hleft : 0 < left)
    (hsub : nodes.Sublist rest) (hcloses : Closes a.store left nodes)
    (hnonneg : ∀ r ∈ rest, 0 ≤ a.capacity r) :
    (fewest 1 a.num_total_layers (rest.map (fun r => caps_of (a.store r))) [left] 0).1 < ⊤ := by
  induction rest generalizing nodes left with
  | nil =>
    rw [List.sublist_nil.mp hsub] at hcloses
    exact absurd hcloses (not_le.mpr hleft)
  | cons r rest ih =>
    have hnonneg' : ∀ r' ∈ rest, 0 ≤ a.capacity r' :=
      fun r' hr' => hnonneg r' (List.mem_cons_of_mem _ hr')
    rw [List.map_cons]
    apply fewest_finite_of
    · rintro ⟨h, _⟩
      cases h
    · have hle := hcloses.le_capacity.trans (capacity_sum_le hsub hnonneg)
      rw [← norm_sum_eq, List.map_cons] at hle
      rintro (h | h | h)
      · simp at h
      · simp only [List.sum_cons, List.sum_nil] at h
        simp at h
        simp only [List.map_cons, List.sum_cons, List.map_map] at hle
        omega
      · simp at h
    · cases hsub with
      | cons _ hsub' => exact Or.inl (ih nodes left hleft hsub' hcloses hnonneg')
      | cons_cons _ hsub' =>
        right
        left
        refine ⟨(left, 0), by simp, ?_⟩
        rw [assign_to_eq]
        by_cases hle : left - charge (a.store r) left ≤ 0
        · rw [if_pos hle]
          exact fewest_finished _ _
        · rw [if_neg hle]
          exact ih _ _ (not_le.mp hle) hsub' hcloses.2 hnonneg'

/-- Some nodes that close a pipeline are enough for the search. -/
theorem fewest_of_pipeline (rest nodes : List Ref)
    (hsub : nodes.Sublist rest) (hcloses : ClosesInOrder a nodes)
    (hnonneg : ∀ r ∈ rest, 0 ≤ a.capacity r) :
    (fewest 1 a.num_total_layers (rest.map (fun r => caps_of (a.store r))) [] 0).1 < ⊤ := by
  induction rest generalizing nodes with
  | nil =>
    rw [List.sublist_nil.mp hsub] at hcloses
    exact hcloses.elim
  | cons r rest ih =>
    have hnonneg' : ∀ r' ∈ rest, 0 ≤ a.capacity r' :=
      fun r' hr' => hnonneg r' (List.mem_cons_of_mem _ hr')
    rw [List.map_cons]
    apply fewest_finite_of
    · rintro ⟨h, _⟩
      cases h
    · have hsum := capacity_sum_le hsub hnonneg
      rcases nodes with _ | ⟨x, nodes⟩
      · exact hcloses.elim
      · have hle := Closes.le_capacity hcloses
        have hx := embed_capacity_le (a.store x)
        have hcap : a.capacity x = (a.store x).get_decoder_layer_capacity false false := rfl
        rw [List.map_cons, List.sum_cons, ← norm_sum_eq (r :: rest), List.map_cons] at hsum
        rintro (h | h | h)
        · simp at h
        · simp at h
          simp only [List.map_cons, List.sum_cons, List.map_map] at hsum
          omega
        · simp at h
    · cases hsub with
      | cons _ hsub' => exact Or.inl (ih nodes hsub' hcloses hnonneg')
      | @cons_cons nodes _ _ hsub' =>
        right
        right
        refine ⟨by simp, ?_⟩
        unfold start_with
        dsimp only
        by_cases hle : a.num_total_layers - (caps_of (a.store r)).start ≤ 0
        · rw [if_pos hle]
          exact fewest_finished _ _
        · rw [if_neg hle]
          exact fewest_of_closes rest nodes _ (not_le.mp hle) hsub' hcloses hnonneg'

end one

/-! ## The best number of pipelines -/

section best

variable (a : Allocator)

/-- The capacities of the nodes, as the search sees them. -/
def node_caps : List Caps := a.nodes.map (fun r => caps_of (a.store r))

/-- The search for a number of pipelines, from an empty memory. -/
def searched (k_target : Nat) : Cost × Memo :=
  (dp k_target a.num_total_layers (node_caps a) 0 [] 0).run ⟨.empty, .empty⟩

/-- The numbers of pipelines that are tried. -/
def tried_counts : List Nat :=
  if a.num_total_layers ≤ 0 then []
  else List.range' 1 (min a.nodes.length
    (Int.fdiv (a.nodes.map a.capacity).sum a.num_total_layers).toNat)

/-- The score of a number of pipelines with that many stages. -/
def score (k_target stages : Nat) : Rat := (k_target * k_target : Nat) / (stages : Rat)

theorem empty_agrees (k_target : Nat) :
    MemoAgrees k_target a.num_total_layers (node_caps a) ⟨.empty, .empty⟩ := by
  constructor
  · intro i rs f cost hget
    cases hget
  · intro i rs f hknown
    cases hknown

theorem searched.spec (k_target : Nat) :
    Finds k_target a.num_total_layers (node_caps a) ⟨.empty, .empty⟩
      (dp k_target a.num_total_layers (node_caps a) 0 [] 0)
      (fewest k_target a.num_total_layers (node_caps a) [] 0).1 (fun m => m.Knows 0 [] 0) :=
  dp.spec (node_caps a) 0 [] 0 _ rfl (empty_agrees a k_target)

/-- The best of the numbers tried so far: there is none among them, or it has the best score and
the actions that lead to it. -/
def BestOf (tried : List Nat) (best : Best) : Prop :=
  (best.num_pipes = 0 ∧ best.score = none ∧ ∀ k ∈ tried, (searched a k).1 = ⊤) ∨
    ∃ s : Nat, best.num_pipes ∈ tried ∧ (searched a best.num_pipes).1 = s ∧
      best.score = some (score best.num_pipes s) ∧
      best.path = (searched a best.num_pipes).2.path ∧
      ∀ k ∈ tried, ∀ s' : Nat, (searched a k).1 = s' → score k s' ≤ score best.num_pipes s

/-- The best when one more number is tried. -/
def best_with (k : Nat) (best : Best) : Best :=
  match ((searched a k).1 : Option Nat) with
  | none => best
  | some s_star =>
    if (best.score.map (fun b => decide (score k s_star > b))).getD true then
      ⟨k, some (score k s_star), (searched a k).2.path⟩
    else best

theorem best_with.spec {tried : List Nat} {best : Best} (k : Nat) (h : BestOf a tried best) :
    BestOf a (tried ++ [k]) (best_with a k best) := by
  unfold best_with
  have hmem : ∀ k' ∈ tried ++ [k], k' ∈ tried ∨ k' = k := by
    intro k' hk'
    rcases List.mem_append.mp hk' with h' | h'
    · exact Or.inl h'
    · exact Or.inr (List.mem_singleton.mp h')
  rcases hcost : (searched a k).1 with _ | s
  · -- This number has no solution, so the best stays the best.
    rcases h with ⟨hzero, hnone, hall⟩ | ⟨s, hin, hs, hscore, hpath, hbest⟩
    · refine Or.inl ⟨hzero, hnone, ?_⟩
      intro k' hk'
      rcases hmem k' hk' with h' | rfl
      · exact hall k' h'
      · exact hcost
    · refine Or.inr ⟨s, List.mem_append_left _ hin, hs, hscore, hpath, ?_⟩
      intro k' hk' s' hs'
      rcases hmem k' hk' with h' | rfl
      · exact hbest k' h' s' hs'
      · rw [hcost] at hs'
        cases hs'
  · have hsame : ∀ s' : Nat, (searched a k).1 = s' → s' = s := by
      intro s' hs'
      rw [hcost] at hs'
      exact (WithTop.coe_injective hs').symm
    rcases h with ⟨hzero, hnone, hall⟩ | ⟨s₀, hin, hs, hscore, hpath, hbest⟩
    · right
      simp only [hnone, Option.map_none, Option.getD_none, if_true]
      refine ⟨s, List.mem_append_right _ (List.mem_singleton_self k), hcost, rfl, trivial, ?_⟩
      intro k' hk' s' hs'
      rcases hmem k' hk' with h' | rfl
      · rw [hall k' h'] at hs'
        exact absurd hs' (WithTop.top_ne_natCast s')
      · rw [hsame s' hs']
    · right
      simp only [hscore, Option.map_some, Option.getD_some, decide_eq_true_eq, gt_iff_lt]
      by_cases hlt : score best.num_pipes s₀ < score k s
      · rw [if_pos hlt]
        refine ⟨s, List.mem_append_right _ (List.mem_singleton_self k), hcost, rfl, rfl, ?_⟩
        intro k' hk' s' hs'
        rcases hmem k' hk' with h' | rfl
        · exact (hbest k' h' s' hs').trans hlt.le
        · rw [hsame s' hs']
      · rw [if_neg hlt]
        refine ⟨s₀, List.mem_append_left _ hin, hs, hscore, hpath, ?_⟩
        intro k' hk' s' hs'
        rcases hmem k' hk' with h' | rfl
        · exact hbest k' h' s' hs'
        · rw [hsame s' hs']
          exact not_lt.mp hlt

theorem best_of.spec (counts tried : List Nat) (best : Best) (h : BestOf a tried best) :
    BestOf a (tried ++ counts) (best_of (node_caps a) a.num_total_layers counts best) := by
  induction counts generalizing tried best with
  | nil =>
    rw [List.append_nil]
    exact h
  | cons k counts ih =>
    have hsplit : tried ++ k :: counts = (tried ++ [k]) ++ counts := by simp
    rw [hsplit]
    exact ih _ _ (best_with.spec a k h)

/-- The search raises nothing. It gives up exactly when no tried number of pipelines is possible.
Otherwise it takes a number of the best score, and returns that many closed pipelines without a
common node, which have as many stages as the search found. -/
theorem dp_pipelines.spec (hnodup : a.nodes.Nodup) :
    (dp_pipelines a = .ok none ∧ ∀ k ∈ tried_counts a, (searched a k).1 = ⊤) ∨
      ∃ k s pipelines, dp_pipelines a = .ok (some pipelines) ∧ k ∈ tried_counts a ∧
        (searched a k).1 = (s : Nat) ∧
        (∀ k' ∈ tried_counts a, ∀ s' : Nat, (searched a k').1 = s' → score k' s' ≤ score k s) ∧
        pipelines.length = k ∧ (∀ pipeline ∈ pipelines, ClosedIn a pipeline) ∧
        pipelines.flatten.Nodup ∧ pipelines.flatten.length = s := by
  unfold dp_pipelines
  dsimp only
  by_cases hguard : a.num_total_layers ≤ 0 ∨ a.nodes = [] ∨
      (a.nodes.map a.capacity).sum < a.num_total_layers
  · left
    rw [if_pos hguard]
    refine ⟨rfl, ?_⟩
    have hnone : tried_counts a = [] := by
      unfold tried_counts
      split
      · rfl
      · rename_i hlayers
        rcases hguard with h | h | h
        · exact absurd h hlayers
        · rw [h]
          simp
        · have hdiv : Int.fdiv (a.nodes.map a.capacity).sum a.num_total_layers ≤ 0 := by
            rw [Int.fdiv_eq_ediv_of_nonneg _ (by omega)]
            have hlt := Int.ediv_lt_of_lt_mul (by omega : 0 < a.num_total_layers)
              (by omega : (a.nodes.map a.capacity).sum < 1 * a.num_total_layers)
            omega
          rw [Int.toNat_of_nonpos hdiv]
          simp
    rw [hnone]
    intro k hk
    cases hk
  · rw [if_neg hguard]
    rw [not_or, not_or] at hguard
    have htried : tried_counts a = List.range' 1 (min a.nodes.length
        (Int.fdiv (a.nodes.map a.capacity).sum a.num_total_layers).toNat) := by
      unfold tried_counts
      rw [if_neg hguard.1]
    have hstart : BestOf a [] ⟨0, none, .empty⟩ := Or.inl ⟨rfl, rfl, fun k hk => by cases hk⟩
    have hbest := best_of.spec a (tried_counts a) [] _ hstart
    rw [List.nil_append, htried] at hbest
    rw [htried]
    change BestOf a _ (best_of (a.nodes.map (fun r => caps_of (a.store r))) _ _ _) at hbest
    generalize best_of (a.nodes.map (fun r => caps_of (a.store r))) a.num_total_layers
      (List.range' 1 (min a.nodes.length
        (Int.fdiv (a.nodes.map a.capacity).sum a.num_total_layers).toNat)) ⟨0, none, .empty⟩ =
          best at hbest ⊢
    rcases hbest with ⟨hzero, _, hall⟩ | ⟨s, hin, hs, _, hpath, hmax⟩
    · left
      rw [if_pos hzero]
      exact ⟨rfl, hall⟩
    · right
      have hpos : best.num_pipes ≠ 0 := by
        have hge := (List.mem_range'_1.mp hin).1
        omega
      rw [if_neg hpos]
      obtain ⟨hvalue, hagrees, _, hknown⟩ := searched.spec a best.num_pipes
      have hcost : (fewest best.num_pipes a.num_total_layers (node_caps a) [] 0).1 = (s : Nat) :=
        hvalue.symm.trans hs
      obtain ⟨result, hrun, hlen, hclosed, hflat, htotal⟩ := backtrack.spec a best.num_pipes
        (searched a best.num_pipes).2 a.nodes 0 [] [] hagrees rfl hknown
        (by
          show (fewest best.num_pipes a.num_total_layers (node_caps a) [] 0).1 < ⊤
          rw [hcost]
          exact WithTop.natCast_lt_top s)
        (Nat.zero_le _) hnodup (fun x hx => by cases hx) (fun p hp => by cases hp)
      rw [hpath, hrun]
      refine ⟨best.num_pipes, s, result, rfl, hin, hs, hmax, hlen, hclosed, hflat, ?_⟩
      have htotal' : (result.flatten.length : Cost) = ((0 : Nat) : Cost) + (s : Nat) := by
        rw [← hcost]
        exact htotal
      rw [Nat.cast_zero, zero_add] at htotal'
      exact_mod_cast htotal'

end best

/-! ## What the search finds -/

section found

variable {a : Allocator}

/-- The search finds pipelines exactly when some nodes, in their order, close one. -/
theorem dp_finds_iff (hnodup : a.nodes.Nodup) (hlayers : 0 < a.num_total_layers)
    (hnonneg : ∀ r ∈ a.nodes, 0 ≤ a.capacity r) :
    (∃ pipelines, dp_pipelines a = .ok (some pipelines) ∧ pipelines ≠ []) ↔
      ∃ nodes, nodes.Sublist a.nodes ∧ ClosesInOrder a nodes := by
  rcases dp_pipelines.spec a hnodup with ⟨hrun, hall⟩ | ⟨k, s, pipelines, hrun, hk, _, _, hlen, hclosed, _⟩
  · constructor
    · rintro ⟨pipelines, hrun', _⟩
      rw [hrun] at hrun'
      cases hrun'
    · rintro ⟨nodes, hsub, hcloses⟩
      have hfinite : (searched a 1).1 < ⊤ := by
        rw [show (searched a 1).1 = _ from (searched.spec a 1).1]
        exact fewest_of_pipeline a.nodes nodes hsub hcloses hnonneg
      have hone : 1 ∈ tried_counts a := by
        have hle : a.num_total_layers ≤ (a.nodes.map a.capacity).sum := by
          have hsum := capacity_sum_le hsub hnonneg
          rcases nodes with _ | ⟨x, nodes⟩
          · exact hcloses.elim
          · have hrest := Closes.le_capacity hcloses
            have hx := embed_capacity_le (a.store x)
            have hcap : a.capacity x = (a.store x).get_decoder_layer_capacity false false := rfl
            rw [List.map_cons, List.sum_cons] at hsum
            omega
        have hdiv : 1 ≤ Int.fdiv (a.nodes.map a.capacity).sum a.num_total_layers := by
          rw [Int.fdiv_eq_ediv_of_nonneg _ hlayers.le]
          exact Int.le_ediv_of_mul_le hlayers (by omega)
        have hnodes : a.nodes ≠ [] := by
          intro hnil
          rw [hnil] at hsub
          rw [List.sublist_nil.mp hsub] at hcloses
          exact hcloses
        have hlength := List.length_pos_of_ne_nil hnodes
        unfold tried_counts
        rw [if_neg (not_le.mpr hlayers), List.mem_range'_1]
        omega
      rw [hall 1 hone] at hfinite
      exact absurd hfinite (lt_irrefl _)
  · have hge : 1 ≤ k := by
      unfold tried_counts at hk
      rw [if_neg (not_le.mpr hlayers)] at hk
      exact (List.mem_range'_1.mp hk).1
    obtain ⟨pipeline, rest, hcons⟩ : ∃ p rest, pipelines = p :: rest :=
      List.exists_cons_of_ne_nil (by
        rintro rfl
        rw [List.length_nil] at hlen
        omega)
    have hfirst := hclosed pipeline (by rw [hcons]; exact List.mem_cons_self)
    refine ⟨fun _ => ⟨pipeline, hfirst.1, hfirst.2⟩, fun _ => ⟨pipelines, hrun, ?_⟩⟩
    rw [hcons]
    exact List.cons_ne_nil _ _

/-- A pipeline of the dynamic-programming search, from nodes that stand in order. -/
theorem built_of_closed {pipeline : List Ref} (hdesc : Descending a a.nodes)
    (h : ClosedIn a pipeline) : ∃ x rest, pipeline = x :: rest ∧ Built a x rest := by
  obtain ⟨hsub, hcloses⟩ := h
  rcases pipeline with _ | ⟨x, rest⟩
  · exact hcloses.elim
  · obtain ⟨hhead, htail⟩ := List.pairwise_cons.mp (hdesc.sublist hsub)
    exact ⟨x, rest, rfl, ⟨_, le_rfl, hcloses⟩, htail, Or.inl hhead⟩

end found

end scheduling.layer_allocation
