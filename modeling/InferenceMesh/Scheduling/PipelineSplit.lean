-- When the split of the layers over a pipeline succeeds, for both ways to
-- split them. Water-filling gives out all layers as soon as every stage has
-- room, the stages together hold the model, and the water level is not too
-- high. The greedy split succeeds when it runs out of layers before nodes.
import InferenceMesh.Scheduling.Capacity
import InferenceMesh.Scheduling.FullPipeline

open ordered_dict python state_exn
open scheduling.model_info scheduling.node

namespace scheduling.layer_allocation

open Allocator

/-! ## The water level -/

/-- What each stage would take of the water at a level. -/
def levels (caps : List Int) (compute_powers : List ℚ≥0) (lmbd : Rat) : List Rat :=
  List.zipWith (fun (cap : Int) (power : ℚ≥0) => min (cap : Rat) (lmbd * power)) caps compute_powers

/-- The whole layers that the stages get at the level where the bisection ends. -/
def whole_layers (caps : List Int) (compute_powers : List ℚ≥0) (total_layers : Int)
    (max_iterations : Nat) : Int :=
  match highest_level caps compute_powers with
  | .error _ => 0
  | .ok hi =>
    (floor_counts caps (levels caps compute_powers
      (bisect caps compute_powers total_layers max_iterations 0 hi))).sum

theorem le_foldl_max_of_mem {x y : Rat} {l : List Rat} (h : y ∈ x :: l) : y ≤ l.foldl max x := by
  induction l generalizing x with
  | nil =>
    rw [List.mem_singleton] at h
    exact h.le
  | cons z l ih =>
    rw [List.foldl_cons]
    rcases List.mem_cons.mp h with rfl | h
    · exact (le_max_left y z).trans (le_foldl_max _ l)
    · rcases List.mem_cons.mp h with rfl | h
      · exact (le_max_right x y).trans (le_foldl_max _ l)
      · exact ih (List.mem_cons_of_mem _ h)

theorem highest_level.spec {caps : List Int} {powers : List ℚ≥0} (hcaps : caps ≠ [])
    (hpowers : ∀ power ∈ powers, 0 < power) (hlen : powers.length = caps.length) :
    ∃ hi, highest_level caps powers = .ok hi ∧
      ∀ x ∈ List.zipWith (fun (cap : Int) (power : ℚ≥0) => (cap : Rat) / power) caps powers,
        x ≤ hi := by
  have hnone : powers.any (fun power => power = 0) = false := by
    rw [List.any_eq_false]
    intro power hp
    have hpos := hpowers power hp
    simpa using hpos.ne'
  unfold highest_level
  rw [hnone]
  rcases hzip : List.zipWith (fun (cap : Int) (power : ℚ≥0) => (cap : Rat) / power) caps powers with
    _ | ⟨x, rest⟩
  · have hlength := congrArg List.length hzip
    rw [List.length_zipWith, hlen, min_self, List.length_nil] at hlength
    exact absurd (List.length_eq_zero_iff.mp hlength) hcaps
  · exact ⟨_, rfl, fun y hy => le_foldl_max_of_mem hy⟩

/-- At a level above all ratios of room to power, every stage is full. -/
theorem total_at_highest {caps : List Int} {powers : List ℚ≥0} {hi : Rat}
    (hpowers : ∀ power ∈ powers, 0 < power) (hlen : powers.length = caps.length)
    (hhi : ∀ x ∈ List.zipWith (fun (cap : Int) (power : ℚ≥0) => (cap : Rat) / power) caps powers,
      x ≤ hi) : total_at caps powers hi = caps.sum := by
  unfold total_at
  induction caps generalizing powers with
  | nil => simp
  | cons cap caps ih =>
    rcases powers with _ | ⟨power, powers⟩
    · simp at hlen
    · rw [List.zipWith_cons_cons] at hhi
      have hpower : (0 : Rat) < power := by exact_mod_cast hpowers power List.mem_cons_self
      have hle := hhi _ List.mem_cons_self
      rw [div_le_iff₀ hpower] at hle
      rw [List.zipWith_cons_cons, List.sum_cons, List.sum_cons, min_eq_left hle,
        ih (fun p hp => hpowers p (List.mem_cons_of_mem _ hp)) (by simpa using hlen)
          (fun x hx => hhi x (List.mem_cons_of_mem _ hx))]
      push_cast
      rfl

/-- The bisection never leaves the levels that give out all layers. -/
theorem total_at_bisect {caps : List Int} {powers : List ℚ≥0} {total_layers : Int} (n : Nat)
    (lo hi : Rat) (h : total_at caps powers hi ≥ total_layers) :
    total_at caps powers (bisect caps powers total_layers n lo hi) ≥ total_layers := by
  induction n generalizing lo hi with
  | zero => exact h
  | succ n ih =>
    unfold bisect
    dsimp only
    split
    · rename_i hmid
      exact ih _ _ hmid
    · exact ih _ _ h

/-! ## The remainders -/

/-- The stage can take one more layer. -/
def has_room (caps counts : List Int) (i : Nat) : Bool := caps.getD i 0 - counts.getD i 0 > 0

theorem has_room_modify {caps counts : List Int} {i j : Nat} (hne : i ≠ j) :
    has_room caps (counts.modify i (· + 1)) j = has_room caps counts j := by
  have hsame : (counts.modify i (· + 1)).getD j 0 = counts.getD j 0 := by
    simp [List.getD_eq_getElem?_getD, hne]
  unfold has_room
  rw [hsame]

/-- One layer goes to each stage with room, until no layer is left. -/
theorem give_remaining_sum {caps : List Int} (order : List Nat) (counts : List Int)
    (remaining : Int) (h : Within counts caps) (hnodup : order.Nodup) (hrem : 0 ≤ remaining) :
    (give_remaining caps order counts remaining).sum =
      counts.sum + min remaining (order.countP (has_room caps counts)) := by
  induction order generalizing counts remaining with
  | nil => simp [give_remaining, hrem]
  | cons i order ih =>
    obtain ⟨hnot, hrest⟩ := List.nodup_cons.mp hnodup
    unfold give_remaining
    split
    · rename_i hzero
      rw [hzero]
      omega
    · rename_i hne
      split
      · rename_i hroom
        obtain ⟨hwithin, hsum⟩ := within_modify h i hroom
        have hsame : order.countP (has_room caps (counts.modify i (· + 1))) =
            order.countP (has_room caps counts) := by
          apply List.countP_congr
          intro j hj
          rw [has_room_modify (by rintro rfl; exact hnot hj)]
        have hyes : has_room caps counts i = true := decide_eq_true hroom
        rw [ih _ _ hwithin hrest (by omega), hsum, hsame, List.countP_cons_of_pos hyes]
        omega
      · rename_i hfull
        have hno : ¬ has_room caps counts i = true := by
          unfold has_room
          rw [decide_eq_true_eq]
          exact hfull
        rw [ih _ _ h hrest hrem, List.countP_cons_of_neg hno]

theorem remainder_order_perm {target : List Rat} {counts : List Int}
    (hlen : target.length = counts.length) :
    (remainder_order target counts).Perm (List.range counts.length) := by
  unfold remainder_order
  apply ((List.perm_insertionSort _ _).map Prod.snd).trans
  rw [List.zipIdx_map_snd, List.length_zipWith, hlen, min_self, List.range_eq_range']

/-- A stage that is not full at a level has room next to its whole layers, so that the stages
with room make up for the fractions. -/
theorem level_le_room {caps : List Int} {powers : List ℚ≥0} (lmbd : Rat)
    (hlen : powers.length = caps.length) :
    (levels caps powers lmbd).sum ≤
      ((floor_counts caps (levels caps powers lmbd)).sum : Int) +
        ((List.range caps.length).countP
          (has_room caps (floor_counts caps (levels caps powers lmbd))) : Nat) := by
  unfold floor_counts levels
  induction caps generalizing powers with
  | nil => simp
  | cons cap caps ih =>
    rcases powers with _ | ⟨power, powers⟩
    · simp at hlen
    · have ih' := ih (by simpa using hlen : powers.length = caps.length)
      simp only [List.zipWith_cons_cons, List.sum_cons, List.length_cons]
      rw [List.range_succ_eq_map, List.countP_cons, List.countP_map]
      set t : Rat := min (cap : Rat) (lmbd * power) with ht
      set targets := List.zipWith (fun (cap : Int) (power : ℚ≥0) => min (cap : Rat) (lmbd * power))
        caps powers with htargets
      set counts := List.zipWith (fun cap t => min cap ⌊t⌋) caps targets with hcounts
      have hshift : (has_room (cap :: caps) (min cap ⌊t⌋ :: counts) ∘ Nat.succ) =
          has_room caps counts := by
        funext i
        simp [has_room]
      have hcap : t ≤ cap := min_le_left _ _
      have hfloor : ⌊t⌋ ≤ cap := by exact_mod_cast (Int.floor_le t).trans hcap
      have hhead : t ≤ (min cap ⌊t⌋ : Int) +
          ((if has_room (cap :: caps) (min cap ⌊t⌋ :: counts) 0 = true then 1 else 0 : Nat) : Rat) := by
        rw [min_eq_right hfloor]
        split
        · push_cast
          exact (Int.lt_floor_add_one t).le
        · rename_i hfull
          have heq : cap ≤ ⌊t⌋ := by
            simp only [has_room, List.getD_cons_zero, gt_iff_lt, decide_eq_true_eq, not_lt] at hfull
            omega
          have hle : (cap : Rat) ≤ ⌊t⌋ := by exact_mod_cast heq
          push_cast
          linarith
      rw [hshift]
      push_cast at ih' hhead ⊢
      linarith

/-! ## All layers are given out -/

/-- Whole layers for the shares of the stages. -/
def whole_shares (caps : List Int) (target : List Rat) (total_layers : Int) :
    Except Exn (List Int) :=
  let counts := floor_counts caps target
  let remaining := total_layers - counts.sum
  if remaining > 0 then
    .ok (clamp caps (give_remaining caps (remainder_order target counts) counts remaining))
  else if remaining < 0 then .error (.ValueError s!"Remaining {remaining} is negative")
  else .ok (clamp caps counts)

theorem stage_layer_counts_eq {caps : List Int} {powers : List ℚ≥0} {total_layers : Int}
    {iterations : Nat} {hi : Rat} (hfit : total_layers ≤ caps.sum)
    (hlevel : highest_level caps powers = .ok hi) :
    stage_layer_counts caps powers total_layers iterations = whole_shares caps
      (levels caps powers (bisect caps powers total_layers iterations 0 hi)) total_layers := by
  unfold stage_layer_counts
  rw [if_neg (not_lt.mpr hfit), hlevel]
  rfl

/-- Shares that make up for all layers become whole layers, unless the whole parts of the shares
are already too many. -/
theorem whole_shares.returns_iff {caps : List Int} {target : List Rat} {total_layers : Int}
    (hfloor : Within (floor_counts caps target) caps)
    (hlen : target.length = (floor_counts caps target).length)
    (hroom : (total_layers : Rat) ≤ ((floor_counts caps target).sum : Int) +
      ((List.range caps.length).countP (has_room caps (floor_counts caps target)) : Nat)) :
    (∃ counts, whole_shares caps target total_layers = .ok counts ∧ counts.sum = total_layers) ↔
      (floor_counts caps target).sum ≤ total_layers := by
  have hperm := remainder_order_perm hlen
  rw [hfloor.length_eq] at hperm
  have hle : total_layers ≤ (floor_counts caps target).sum +
      ((List.range caps.length).countP (has_room caps (floor_counts caps target)) : Nat) := by
    exact_mod_cast hroom
  unfold whole_shares
  dsimp only
  split
  · rename_i hremaining
    refine ⟨fun _ => by omega, fun _ => ⟨_, rfl, ?_⟩⟩
    obtain ⟨hwithin, _⟩ := give_remaining_within (remainder_order target (floor_counts caps target))
      _ _ hfloor hremaining.le
    rw [clamp_within hwithin, give_remaining_sum _ _ _ hfloor
      (hperm.nodup_iff.mpr List.nodup_range) hremaining.le, hperm.countP_eq]
    omega
  · split
    · rename_i hnegative
      constructor
      · rintro ⟨counts, hrun, _⟩
        cases hrun
      · intro hle
        omega
    · refine ⟨fun _ => by omega, fun _ => ⟨_, rfl, ?_⟩⟩
      rw [clamp_within hfloor]
      omega

/-- The split of the layers returns exactly when all of them fit and the water level is not too
high, and then it gives out all of them. -/
theorem stage_layer_counts.returns_iff {caps : List Int} {powers : List ℚ≥0} {total_layers : Int}
    {iterations : Nat} (hcaps : caps ≠ []) (hpos : ∀ cap ∈ caps, 0 < cap)
    (hpowers : ∀ power ∈ powers, 0 < power) (hlen : powers.length = caps.length) :
    (∃ counts, stage_layer_counts caps powers total_layers iterations = .ok counts ∧
        counts.sum = total_layers) ↔
      total_layers ≤ caps.sum ∧
        whole_layers caps powers total_layers iterations ≤ total_layers := by
  obtain ⟨hi, hlevel, hhi⟩ := highest_level.spec hcaps hpowers hlen
  have hwhole : whole_layers caps powers total_layers iterations =
      (floor_counts caps (levels caps powers
        (bisect caps powers total_layers iterations 0 hi))).sum := by
    unfold whole_layers
    rw [hlevel]
  by_cases hfit : total_layers ≤ caps.sum
  · have htotal : (levels caps powers (bisect caps powers total_layers iterations 0 hi)).sum ≥
        total_layers := by
      apply total_at_bisect
      rw [total_at_highest hpowers hlen hhi]
      exact_mod_cast hfit
    have hfloor : Within (floor_counts caps (levels caps powers
        (bisect caps powers total_layers iterations 0 hi))) caps :=
      floor_counts_within caps powers _ (bisect_nonneg caps powers total_layers iterations 0 hi
        le_rfl (highest_level_nonneg hpos hlevel)) hpos hlen
    rw [stage_layer_counts_eq hfit hlevel, hwhole, whole_shares.returns_iff hfloor
      (by simp [floor_counts, levels, hlen])
      ((ge_iff_le.mp htotal).trans (level_le_room _ hlen))]
    exact ⟨fun h => ⟨hfit, h⟩, fun h => h.2⟩
  · constructor
    · rintro ⟨counts, hrun, _⟩
      unfold stage_layer_counts at hrun
      rw [if_pos (not_le.mp hfit)] at hrun
      cases hrun
    · rintro ⟨hle, _⟩
      exact absurd hle hfit

/-! ## The ranges -/

theorem fits_of_bookkeeping {m : ModelInfo} {a : Allocator} (h : BookkeepingAgrees m a)
    {start_layer end_layer : Int} (hs : 0 ≤ start_layer) (he : end_layer ≤ m.num_layers) :
    a.fits start_layer end_layer := by
  unfold fits
  rw [h.loads.layers, h.model_info]
  exact ⟨hs, he⟩

/-- Free nodes can be given ranges one after the other, as long as these lie inside the model. -/
theorem apply_stages_returns {m : ModelInfo} (stages : List (Ref × Int)) (start_layer : Int)
    {a : Allocator} (h : BookkeepingAgrees m a)
    (hfree : ∀ x ∈ stages, Free a x.1) (hids : (stages.map (fun x => a.node_id x.1)).Nodup)
    (hstart : 0 ≤ start_layer) (hcounts : ∀ x ∈ stages, 0 ≤ x.2)
    (hsum : start_layer + (stages.map Prod.snd).sum ≤ m.num_layers) :
    ∃ a', apply_stages stages start_layer a =
        .ok (start_layer + (stages.map Prod.snd).sum) a' ∧
      Extends a a' ∧ a'.Chain false start_layer (start_layer + (stages.map Prod.snd).sum) := by
  induction stages generalizing start_layer a with
  | nil =>
    refine ⟨a, ?_, Extends.refl a, ?_⟩
    · unfold apply_stages
      simp
      rfl
    · simp only [List.map_nil, List.sum_nil, add_zero]
      exact Relation.ReflTransGen.refl
  | cons x rest ih =>
    obtain ⟨r, layers⟩ := x
    obtain ⟨hnot, hrest⟩ := List.nodup_cons.mp hids
    have hlayers : 0 ≤ layers := hcounts (r, layers) List.mem_cons_self
    have hcounts' : ∀ x ∈ rest, 0 ≤ x.2 := fun x hx => hcounts x (List.mem_cons_of_mem _ hx)
    have htotal : 0 ≤ (rest.map Prod.snd).sum := by
      apply List.sum_nonneg
      intro c hc
      obtain ⟨x, hx, rfl⟩ := List.mem_map.mp hc
      exact hcounts' x hx
    simp only [List.map_cons, List.sum_cons] at hsum ⊢
    unfold apply_stages
    split
    · rename_i hle
      have hzero : layers = 0 := le_antisymm hle hlayers
      subst hzero
      rw [zero_add] at hsum ⊢
      exact ih start_layer h (fun x hx => hfree x (List.mem_cons_of_mem _ hx)) hrest hstart hcounts'
        hsum
    · rename_i hpos
      have hr := hfree (r, layers) List.mem_cons_self
      obtain ⟨a₁, hrun, hextends, hspan⟩ := allocate_returns h.views hr
        (by omega : start_layer < start_layer + layers)
        (fits_of_bookkeeping h hstart (by omega))
      have hbook := allocate_bookkeeping h hr
        (fun _ => ⟨hstart, by omega⟩ : start_layer < start_layer + layers → _)
      have hmoved := allocate_moved a r start_layer (start_layer + layers)
      rw [hrun] at hbook hmoved
      change BookkeepingAgrees m a₁ at hbook
      change Moved r a a₁ at hmoved
      have hids' : rest.map (fun x => a₁.node_id x.1) = rest.map (fun x => a.node_id x.1) :=
        List.map_congr_left (fun x _ => hmoved.alike.node_id x.1)
      obtain ⟨a', hrun', hextends', hchain⟩ := ih (start_layer + layers) hbook
        (by
          intro x hx
          apply hmoved.free _ (hfree x (List.mem_cons_of_mem _ hx))
          intro heq
          exact hnot (List.mem_map.mpr ⟨x, hx, heq⟩))
        (by rw [hids']; exact hrest) (by omega) hcounts' (by omega)
      rw [add_assoc] at hrun' hchain
      refine ⟨a', (bind_of_ok hrun).trans hrun', hextends.trans hextends', ?_⟩
      exact Relation.ReflTransGen.head (hextends' _ _ hspan) hchain

theorem deallocate_all_returns (nodes : List Ref) (a : Allocator) :
    ∃ a', deallocate_all nodes a = .ok () a' := by
  have hloop : Triple (fun _ => True) (deallocate_all nodes) (fun _ _ => True)
      (fun _ _ => False) := by
    refine Triple.forEach (I := fun _ _ => True) nodes ?_
    intro r rest b _
    rw [get_bind]
    by_cases halloc : (b.store r).is_allocated = true
    · rw [if_pos halloc, deallocate_returns b r]
      trivial
    · rw [if_neg halloc]
      trivial
  have hrun := hloop a trivial
  rcases heq : deallocate_all nodes a with ⟨u, a'⟩ | ⟨e, a'⟩
  · exact ⟨a', rfl⟩
  · rw [heq] at hrun
    exact hrun.elim

/-! ## One pipeline -/

/-- Water-filling can split the layers over the stages: every stage has room, and the counts of
the stages add up. -/
def SplitsEvenly (a : Allocator) (nodes : List Ref) (power_type : PowerType) : Prop :=
  full_stage nodes (stage_capacities a.store nodes) = none ∧
    ∃ counts, stage_counts a nodes power_type = .ok counts ∧ counts.sum = a.num_total_layers

/-- The layers that the greedy split is left with. -/
def greedy_rest (node : Ref → Node) : List Ref → Int → Int → Int
  | [], _, remaining_layers => remaining_layers
  | r :: rest, start_layer, remaining_layers =>
    let assign_layers := greedy_layers (node r) start_layer remaining_layers
    if assign_layers ≤ 0 then greedy_rest node rest start_layer remaining_layers
    else if remaining_layers - assign_layers = 0 then 0
    else greedy_rest node rest (start_layer + assign_layers) (remaining_layers - assign_layers)

theorem From.greedy_rest {a₀ a : Allocator} (h : From a₀ a) (nodes : List Ref)
    (start_layer remaining_layers : Int) :
    greedy_rest a.store nodes start_layer remaining_layers =
      greedy_rest a₀.store nodes start_layer remaining_layers := by
  have hsame : ∀ r s l, greedy_layers (a.store r) s l = greedy_layers (a₀.store r) s l := by
    intro r s l
    unfold greedy_layers
    simp only [h.alike.layer_capacity]
  induction nodes generalizing start_layer remaining_layers with
  | nil => rfl
  | cons r rest ih =>
    unfold layer_allocation.greedy_rest
    simp only [hsame, ih]

theorem greedy_rest_nonneg (node : Ref → Node) (nodes : List Ref)
    (start_layer remaining_layers : Int) (h : 0 ≤ remaining_layers) :
    0 ≤ greedy_rest node nodes start_layer remaining_layers := by
  induction nodes generalizing start_layer remaining_layers with
  | nil => exact h
  | cons r rest ih =>
    have hle := greedy_layers_le (node r) start_layer remaining_layers
    unfold greedy_rest
    dsimp only
    split
    · exact ih _ _ h
    · split
      · exact le_rfl
      · exact ih _ _ (by omega)

/-- The greedy split gives out all layers but the rest, as one chain. -/
theorem apply_greedy_returns {m : ModelInfo} {a₀ : Allocator} (nodes : List Ref)
    (start_layer remaining_layers : Int) {a : Allocator} (h : BookkeepingAgrees m a)
    (hfrom : From a₀ a) (hfree : ∀ r ∈ nodes, Free a r) (hids : (nodes.map a₀.node_id).Nodup)
    (hstart : 0 ≤ start_layer) (hrem : 0 ≤ remaining_layers)
    (hsum : start_layer + remaining_layers ≤ m.num_layers) :
    ∃ a', apply_greedy nodes start_layer remaining_layers a =
        .ok (greedy_rest a₀.store nodes start_layer remaining_layers) a' ∧
      a'.Chain false start_layer (start_layer + remaining_layers -
        greedy_rest a₀.store nodes start_layer remaining_layers) ∧ Extends a a' := by
  induction nodes generalizing start_layer remaining_layers a with
  | nil =>
    refine ⟨a, rfl, ?_, Extends.refl a⟩
    simp only [greedy_rest, add_sub_cancel_right]
    exact Relation.ReflTransGen.refl
  | cons r rest ih =>
    obtain ⟨hnot, hrest⟩ := List.nodup_cons.mp hids
    have hr := hfree r List.mem_cons_self
    have hfree' : ∀ r' ∈ rest, Free a r' := fun r' hr' => hfree r' (List.mem_cons_of_mem _ hr')
    have hsame : greedy_layers (a.store r) start_layer remaining_layers =
        greedy_layers (a₀.store r) start_layer remaining_layers := by
      unfold greedy_layers
      simp only [hfrom.alike.layer_capacity]
    have hle := greedy_layers_le (a₀.store r) start_layer remaining_layers
    unfold apply_greedy greedy_rest
    rw [get_bind]
    dsimp only
    rw [hsame]
    generalize greedy_layers (a₀.store r) start_layer remaining_layers = layers at hle ⊢
    split
    · exact ih _ _ h hfrom hfree' hrest hstart hrem hsum
    · rename_i hpos
      obtain ⟨a₁, hrun, hextends, hspan⟩ := allocate_returns h.views hr
        (by omega : start_layer < start_layer + layers)
        (fits_of_bookkeeping h hstart (by omega))
      rw [bind_of_ok hrun]
      split
      · rename_i hdone
        refine ⟨a₁, rfl, ?_, hextends⟩
        have hend : start_layer + remaining_layers - 0 = start_layer + layers := by omega
        rw [hend]
        exact Relation.ReflTransGen.single hspan
      · have hbook := allocate_bookkeeping h hr
          (fun _ => ⟨hstart, by omega⟩ : start_layer < start_layer + layers → _)
        have hmoved := allocate_moved a r start_layer (start_layer + layers)
        rw [hrun] at hbook hmoved
        obtain ⟨a', hrun', hchain, hextends'⟩ := ih (start_layer + layers)
          (remaining_layers - layers) hbook (hfrom.moved hmoved)
          (by
            intro r' hr'
            apply hmoved.free _ (hfree' r' hr')
            intro heq
            rw [hfrom.alike.node_id, hfrom.alike.node_id] at heq
            exact hnot (List.mem_map.mpr ⟨r', hr', heq⟩))
          hrest (by omega) (by omega) (by omega)
        have hend : start_layer + layers + (remaining_layers - layers) =
            start_layer + remaining_layers := by omega
        rw [hend] at hchain
        exact ⟨a', hrun', Relation.ReflTransGen.head (hextends' _ _ hspan) hchain,
          hextends.trans hextends'⟩

/-- What holds before a pipeline of the nodes gets its layers. -/
structure Ready (m : ModelInfo) (a₀ : Allocator) (nodes : List Ref) (a : Allocator) : Prop where
  book : BookkeepingAgrees m a
  since : From a₀ a
  usable : ∀ r ∈ nodes, Usable a r

theorem Ready.deallocated {m : ModelInfo} {a₀ a : Allocator} {nodes : List Ref}
    (h : Ready m a₀ nodes a) (hids : (nodes.map a₀.node_id).Nodup) :
    ∃ a₁, deallocate_all nodes a = .ok () a₁ ∧ BookkeepingAgrees m a₁ ∧ From a₀ a₁ ∧
      ∀ r ∈ nodes, Free a₁ r := by
  obtain ⟨a₁, hrun⟩ := deallocate_all_returns nodes a
  exact ⟨a₁, hrun, Triple.ok ((bookkeeping_kept m).deallocate_all hids)
    ⟨h.book, h.since, h.usable⟩ hrun⟩

/-- A split returns exactly when it is possible, and then its ranges are a chain over all layers. -/
def Outcome (m : ModelInfo) (a₀ : Allocator) (possible : Prop) (x : EStateM.Result Exn Allocator Unit) :
    Prop :=
  (possible ∧ ∃ a', x = .ok () a' ∧ BookkeepingAgrees m a' ∧ From a₀ a' ∧
    a'.Chain false 0 a₀.num_total_layers) ∨ (¬ possible ∧ ∃ e a', x = .error e a')

theorem split_layers.outcome {m : ModelInfo} {a₀ a : Allocator} {nodes : List Ref}
    (power_type : PowerType) (hids : (nodes.map a₀.node_id).Nodup) (hbook : BookkeepingAgrees m a)
    (hfrom : From a₀ a) (hfree : ∀ r ∈ nodes, Free a r) :
    (SplitsEvenly a₀ nodes power_type ∧ ∃ a', split_layers nodes power_type a = .ok () a' ∧
        a'.Chain false 0 a₀.num_total_layers) ∨
      (¬ SplitsEvenly a₀ nodes power_type ∧ ∃ e a', split_layers nodes power_type a = .error e a') := by
  have hcaps := hfrom.stage_capacities nodes
  have hcounts := hfrom.stage_counts nodes power_type
  have hL : a₀.num_total_layers = m.num_layers := by
    unfold num_total_layers
    rw [← hfrom.alike.model_info, hbook.model_info]
  unfold stage_counts at hcounts
  unfold split_layers SplitsEvenly
  rw [get_bind]
  rw [hcaps] at hcounts ⊢
  rw [hcounts]
  rcases hfull : full_stage nodes (stage_capacities a₀.store nodes) with _ | ⟨r, cap⟩
  · have hpos := full_stage_none (stage_capacities_length _ _) hfull
    rcases hrun : stage_counts a₀ nodes power_type with e | counts
    · right
      unfold stage_counts at hrun
      rw [hrun]
      refine ⟨?_, _, _, rfl⟩
      rintro ⟨_, counts, hok, _⟩
      cases hok
    · obtain ⟨hwithin, hsum⟩ := stage_layer_counts.spec hpos
        (by simp [stage_capacities_length]) hrun
      have hlen : counts.length = nodes.length := by
        rw [hwithin.length_eq, stage_capacities_length]
      have hsnd : (nodes.zip counts).map Prod.snd = counts := by
        rw [List.map_snd_zip (by omega)]
      have hfst : (nodes.zip counts).map Prod.fst = nodes := by
        rw [List.map_fst_zip (by omega)]
      have hmem : ∀ x ∈ nodes.zip counts, x.1 ∈ nodes ∧ x.2 ∈ counts := fun x hx =>
        List.of_mem_zip hx
      have hnonneg : ∀ count ∈ counts, 0 ≤ count := by
        intro count hc
        obtain ⟨i, hi, rfl⟩ := List.getElem_of_mem hc
        exact ((List.forall₂_iff_get.mp hwithin).2 i hi (by
          have hlength := hwithin.length_eq
          omega)).1
      have hstages := apply_stages_returns (nodes.zip counts) 0 hbook
        (fun x hx => hfree x.1 (hmem x hx).1)
        (by
          have hmap : (nodes.zip counts).map (fun x => a.node_id x.1) = nodes.map a₀.node_id := by
            rw [← hfst, List.map_map, hfst]
            exact List.map_congr_left (fun x _ => hfrom.alike.node_id x.1)
          rw [hmap]
          exact hids)
        le_rfl (fun x hx => hnonneg x.2 (hmem x hx).2) (by rw [hsnd]; omega)
      rw [hsnd, zero_add] at hstages
      obtain ⟨a', happly, _, hchain⟩ := hstages
      have hrun' := hrun
      unfold stage_counts at hrun'
      rw [hrun']
      dsimp only
      rw [bind_of_ok happly, hfrom.num_total_layers]
      by_cases hall : counts.sum = a₀.num_total_layers
      · left
        rw [if_neg (not_not.mpr hall)]
        rw [hall] at hchain
        exact ⟨⟨rfl, counts, rfl, hall⟩, a', rfl, hchain⟩
      · right
        rw [if_pos hall]
        refine ⟨?_, _, _, rfl⟩
        rintro ⟨_, counts', hok, hall'⟩
        cases hok
        exact hall hall'
  · right
    refine ⟨?_, _, _, rfl⟩
    rintro ⟨hnone, _⟩
    cases hnone

theorem adjust_pipeline_layers.outcome {m : ModelInfo} {a₀ a : Allocator}
    {pipeline_nodes : List Ref} {assume_sorted : Bool} {power_type : PowerType}
    (hids : (pipeline_nodes.map a₀.node_id).Nodup) (h : Ready m a₀ pipeline_nodes a)
    (hne : pipeline_nodes ≠ []) (hlayers : 0 < a₀.num_total_layers) :
    Outcome m a₀ (SplitsEvenly a₀ (stage_order a₀ pipeline_nodes assume_sorted) power_type)
      (adjust_pipeline_layers pipeline_nodes assume_sorted power_type a) := by
  have hperm := stage_order_perm a₀ pipeline_nodes assume_sorted
  have hids' : ((stage_order a₀ pipeline_nodes assume_sorted).map a₀.node_id).Nodup :=
    (hperm.map a₀.node_id).nodup_iff.mpr hids
  have hready : Ready m a₀ (stage_order a₀ pipeline_nodes assume_sorted) a :=
    ⟨h.book, h.since, fun r hr => h.usable r (hperm.mem_iff.mp hr)⟩
  have hguard : ¬ (pipeline_nodes.isEmpty || decide (a.num_total_layers ≤ 0)) = true := by
    rw [h.since.num_total_layers]
    simp [hne, hlayers]
  have hrun : adjust_pipeline_layers pipeline_nodes assume_sorted power_type a =
      (do
        deallocate_all (stage_order a₀ pipeline_nodes assume_sorted)
        split_layers (stage_order a₀ pipeline_nodes assume_sorted) power_type : AllocM Unit) a := by
    unfold adjust_pipeline_layers
    rw [get_bind, if_neg hguard]
    show (do
        deallocate_all (stage_order a pipeline_nodes assume_sorted)
        split_layers (stage_order a pipeline_nodes assume_sorted) power_type : AllocM Unit) a = _
    rw [h.since.stage_order]
  have hkept := (bookkeeping_kept m).adjust_pipeline_layers hids
    (split_inside (h.since.alike.model_info.symm.trans h.book.model_info) pipeline_nodes
      assume_sorted power_type)
  obtain ⟨a₁, hdealloc, hbook₁, hfrom₁, hfree₁⟩ := hready.deallocated hids'
  have hsplit := split_layers.outcome power_type hids' hbook₁ hfrom₁ hfree₁
  unfold Outcome
  rw [bind_of_ok hdealloc] at hrun
  rcases hsplit with ⟨hcan, a', hok, hchain⟩ | ⟨hcannot, e, a', herr⟩
  · have hok' := hrun.trans hok
    obtain ⟨hbook', hfrom'⟩ := hkept.ok ⟨h.book, h.since, h.usable⟩ hok'
    exact Or.inl ⟨hcan, a', hok', hbook', hfrom', hchain⟩
  · exact Or.inr ⟨hcannot, e, a', hrun.trans herr⟩

theorem adjust_pipeline_layers_greedy.outcome {m : ModelInfo} {a₀ a : Allocator}
    {pipeline_nodes : List Ref} (hids : (pipeline_nodes.map a₀.node_id).Nodup)
    (h : Ready m a₀ pipeline_nodes a) (hne : pipeline_nodes ≠ [])
    (hlayers : 0 < a₀.num_total_layers) :
    Outcome m a₀ (greedy_rest a₀.store pipeline_nodes 0 a₀.num_total_layers = 0)
      (adjust_pipeline_layers_greedy pipeline_nodes a) := by
  have hL : a₀.num_total_layers = m.num_layers := by
    unfold num_total_layers
    rw [← h.since.alike.model_info, h.book.model_info]
  have hguard : ¬ (pipeline_nodes.isEmpty || decide (a.num_total_layers ≤ 0)) = true := by
    rw [h.since.num_total_layers]
    simp [hne, hlayers]
  have hkept := (bookkeeping_kept m).adjust_pipeline_layers_greedy hids
  obtain ⟨a₁, hdealloc, hbook₁, hfrom₁, hfree₁⟩ := h.deallocated hids
  obtain ⟨a', hgreedy, hchain, _⟩ := apply_greedy_returns pipeline_nodes 0 a₀.num_total_layers hbook₁
    hfrom₁ hfree₁ hids le_rfl hlayers.le (by omega)
  have hrun : adjust_pipeline_layers_greedy pipeline_nodes a =
      (if greedy_rest a₀.store pipeline_nodes 0 a₀.num_total_layers ≠ 0 then
        throw (.ValueError s!"Greedy assignment did not cover all layers: remaining {greedy_rest a₀.store pipeline_nodes 0 a₀.num_total_layers}")
      else pure () : AllocM Unit) a' := by
    unfold adjust_pipeline_layers_greedy
    rw [get_bind, if_neg hguard, bind_of_ok hdealloc, h.since.num_total_layers, bind_of_ok hgreedy]
  unfold Outcome
  by_cases hcovers : greedy_rest a₀.store pipeline_nodes 0 a₀.num_total_layers = 0
  · rw [if_neg (not_not.mpr hcovers)] at hrun
    rw [hcovers, zero_add, sub_zero] at hchain
    obtain ⟨hbook', hfrom'⟩ := hkept.ok ⟨h.book, h.since, h.usable⟩ hrun
    exact Or.inl ⟨hcovers, a', hrun, hbook', hfrom', hchain⟩
  · rw [if_pos hcovers] at hrun
    exact Or.inr ⟨hcovers, _, _, hrun⟩

end scheduling.layer_allocation
