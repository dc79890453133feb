-- How exact water-filling is. The bisection ends within one layer of the total
-- once it has run long enough, so rounding down never gives out too much, and
-- one more layer for some of the stages makes up for the rest.
import InferenceMesh.Scheduling.Chains
import InferenceMesh.Scheduling.PipelineSplit

open ordered_dict python state_exn
open scheduling.model_info scheduling.node

namespace scheduling.layer_allocation

open Allocator
open scheduling.request_routing (Tiles tiles_cons)

/-! ## The water level -/

/-- The level where the bisection ends. -/
def final_level (caps : List Int) (compute_powers : List ℚ≥0) (total_layers : Int)
    (max_iterations : Nat) : Rat :=
  match highest_level caps compute_powers with
  | .error _ => 0
  | .ok hi => bisect caps compute_powers total_layers max_iterations 0 hi

theorem total_at_zero (caps : List Int) (powers : List ℚ≥0) : total_at caps powers 0 ≤ 0 := by
  unfold total_at
  induction caps generalizing powers with
  | nil => simp
  | cons cap caps ih =>
    rcases powers with _ | ⟨power, powers⟩
    · simp
    · have hhead : min (cap : Rat) (0 * power) ≤ 0 := (min_le_right _ _).trans (by simp)
      rw [List.zipWith_cons_cons, List.sum_cons]
      exact add_nonpos hhead (ih powers)

/-- A higher level gives each stage at most its power for each unit more. -/
theorem total_at_slope {caps : List Int} {powers : List ℚ≥0} {lo hi : Rat} (h : lo ≤ hi)
    (hlen : powers.length = caps.length) :
    total_at caps powers hi ≤ total_at caps powers lo + powers.sum * (hi - lo) := by
  unfold total_at
  induction caps generalizing powers with
  | nil =>
    rw [List.length_nil, List.length_eq_zero_iff] at hlen
    simp [hlen]
  | cons cap caps ih =>
    rcases powers with _ | ⟨power, powers⟩
    · simp at hlen
    · have ih' := ih (by simpa using hlen : powers.length = caps.length)
      have hpower : (0 : Rat) ≤ power := power.2
      have hhead : min (cap : Rat) (hi * power) ≤
          min (cap : Rat) (lo * power) + power * (hi - lo) := by
        have hstep : (0 : Rat) ≤ power * (hi - lo) := mul_nonneg hpower (sub_nonneg.mpr h)
        rw [← min_add_add_right]
        apply le_min
        · exact (min_le_left _ _).trans (le_add_of_nonneg_right hstep)
        · exact (min_le_right _ _).trans (le_of_eq (by ring))
      simp only [List.zipWith_cons_cons, List.sum_cons, NNRat.cast_add]
      linarith

/-- The bisection halves the distance to a level that does not give out all layers. -/
theorem bisect_brackets {caps : List Int} {powers : List ℚ≥0} {total_layers : Int} (n : Nat)
    (lo hi : Rat) (hle : lo ≤ hi) (hlo : total_at caps powers lo < total_layers) :
    ∃ lo', total_at caps powers lo' < total_layers ∧
      lo' ≤ bisect caps powers total_layers n lo hi ∧
        (bisect caps powers total_layers n lo hi - lo') * 2 ^ n = hi - lo := by
  induction n generalizing lo hi with
  | zero => exact ⟨lo, hlo, hle, by simp [bisect]⟩
  | succ n ih =>
    unfold bisect
    dsimp only
    split
    · obtain ⟨lo', hbelow, hle', hwidth⟩ := ih lo (1 / 2 * (lo + hi)) (by linarith) hlo
      exact ⟨lo', hbelow, hle', by rw [pow_succ, ← mul_assoc, hwidth]; ring⟩
    · rename_i hmid
      obtain ⟨lo', hbelow, hle', hwidth⟩ := ih (1 / 2 * (lo + hi)) hi (by linarith)
        (not_le.mp hmid)
      exact ⟨lo', hbelow, hle', by rw [pow_succ, ← mul_assoc, hwidth]; ring⟩

/-- After enough halvings the level gives out less than one layer too much. -/
theorem total_at_final_lt {caps : List Int} {powers : List ℚ≥0} {total_layers : Int} {n : Nat}
    {hi : Rat} (hlayers : 0 < total_layers) (hlen : powers.length = caps.length) (hhi : 0 ≤ hi)
    (hbracket : powers.sum * hi ≤ 2 ^ n) :
    total_at caps powers (bisect caps powers total_layers n 0 hi) < total_layers + 1 := by
  have hzero : total_at caps powers 0 < total_layers :=
    (total_at_zero caps powers).trans_lt (by exact_mod_cast hlayers)
  obtain ⟨lo, hbelow, hle, hwidth⟩ := bisect_brackets n 0 hi hhi hzero
  have hslope := total_at_slope hle hlen
  have hstep : (powers.sum : Rat) * (bisect caps powers total_layers n 0 hi - lo) ≤ 1 := by
    have hpow : (0 : Rat) < 2 ^ n := by positivity
    refine le_of_mul_le_mul_right ?_ hpow
    rw [mul_assoc, hwidth, one_mul, sub_zero]
    exact hbracket
  linarith

theorem floor_counts_sum_le (caps : List Int) (target : List Rat)
    (hlen : target.length = caps.length) : ((floor_counts caps target).sum : Rat) ≤ target.sum := by
  unfold floor_counts
  induction caps generalizing target with
  | nil =>
    rw [List.length_nil, List.length_eq_zero_iff] at hlen
    simp [hlen]
  | cons cap caps ih =>
    rcases target with _ | ⟨t, target⟩
    · simp at hlen
    · have ih' := ih target (by simpa using hlen)
      have hmin : ((min cap ⌊t⌋ : Int) : Rat) ≤ t :=
        (Int.cast_le.mpr (min_le_right cap ⌊t⌋)).trans (Int.floor_le t)
      simp only [List.zipWith_cons_cons, List.sum_cons, Int.cast_add]
      linarith

/-- The whole layers of the stages are not too many. -/
theorem whole_layers_le {caps : List Int} {powers : List ℚ≥0} {total_layers : Int} {n : Nat}
    (hlayers : 0 < total_layers) (hcaps : ∀ cap ∈ caps, 0 < cap)
    (hlen : powers.length = caps.length)
    (hbracket : ∀ hi, highest_level caps powers = .ok hi → powers.sum * hi ≤ 2 ^ n) :
    whole_layers caps powers total_layers n ≤ total_layers := by
  unfold whole_layers
  split
  · exact hlayers.le
  · rename_i hi hlevel
    have hbelow := total_at_final_lt hlayers hlen (highest_level_nonneg hcaps hlevel)
      (hbracket hi hlevel)
    have hfloor := floor_counts_sum_le caps
      (levels caps powers (bisect caps powers total_layers n 0 hi)) (by simp [levels, hlen])
    have hlt : ((floor_counts caps (levels caps powers
        (bisect caps powers total_layers n 0 hi))).sum : Rat) < total_layers + 1 :=
      hfloor.trans_lt hbelow
    exact Int.lt_add_one_iff.mp (by exact_mod_cast hlt)

/-! ## One more layer for some stages -/

/-- A stage gets at most one of the remaining layers. -/
theorem give_remaining_adds (caps : List Int) (order : List Nat) (counts : List Int)
    (remaining : Int) (hnodup : order.Nodup) (i : Nat) :
    ((give_remaining caps order counts remaining).getD i 0 = counts.getD i 0 ∨
      (give_remaining caps order counts remaining).getD i 0 = counts.getD i 0 + 1) ∧
    (i ∉ order → (give_remaining caps order counts remaining).getD i 0 = counts.getD i 0) := by
  induction order generalizing counts remaining with
  | nil => simp [give_remaining]
  | cons j order ih =>
    obtain ⟨hnot, hrest⟩ := List.nodup_cons.mp hnodup
    unfold give_remaining
    split
    · simp
    · split
      · obtain ⟨hadds, hsame⟩ := ih (counts.modify j (· + 1)) (remaining - 1) hrest
        by_cases heq : j = i
        · -- The turn of a stage comes once.
          subst heq
          rw [hsame hnot]
          refine ⟨?_, fun h => absurd List.mem_cons_self h⟩
          rcases hget : counts[j]? with _ | count
          · simp [List.getD_eq_getElem?_getD, hget]
          · simp [List.getD_eq_getElem?_getD, hget]
        · have hother : (counts.modify j (· + 1)).getD i 0 = counts.getD i 0 := by
            simp [List.getD_eq_getElem?_getD, heq]
          rw [hother] at hadds hsame
          exact ⟨hadds, fun h => hsame (fun hmem => h (List.mem_cons_of_mem _ hmem))⟩
      · obtain ⟨hadds, hsame⟩ := ih counts remaining hrest
        exact ⟨hadds, fun h => hsame (fun hmem => h (List.mem_cons_of_mem _ hmem))⟩

/-- The layers of a stage are its share without the fraction, or one more, within its room. -/
def Rounded (cap : Int) (share : Rat) (layers : Int) : Prop :=
  0 ≤ layers ∧ layers ≤ cap ∧ (layers = ⌊share⌋ ∨ layers = ⌊share⌋ + 1)

theorem whole_shares_rounded {caps : List Int} {target : List Rat} {total_layers : Int}
    {counts : List Int} (hfloor : Within (floor_counts caps target) caps)
    (hlen : target.length = caps.length)
    (hle : ∀ (i : Nat) cap t, caps[i]? = some cap → target[i]? = some t → t ≤ (cap : Rat))
    (h : whole_shares caps target total_layers = .ok counts) (i : Nat) {cap : Int} {t : Rat}
    (hcap : caps[i]? = some cap) (ht : target[i]? = some t) : Rounded cap t (counts.getD i 0) := by
  have hfloor_at : (floor_counts caps target).getD i 0 = ⌊t⌋ := by
    have hmin : ⌊t⌋ ≤ cap := by exact_mod_cast (Int.floor_le t).trans (hle i cap t hcap ht)
    simp [floor_counts, List.getD_eq_getElem?_getD, List.getElem?_zipWith, hcap, ht, hmin]
  have hrounds : Within counts caps ∧
      (counts.getD i 0 = ⌊t⌋ ∨ counts.getD i 0 = ⌊t⌋ + 1) := by
    unfold whole_shares at h
    dsimp only at h
    split at h
    · rename_i hremaining
      cases h
      obtain ⟨hwithin, _⟩ := give_remaining_within
        (remainder_order target (floor_counts caps target)) _ _ hfloor hremaining.le
      have hlength : target.length = (floor_counts caps target).length := by
        simp [floor_counts, hlen]
      have hadds := (give_remaining_adds caps
        (remainder_order target (floor_counts caps target)) (floor_counts caps target)
        (total_layers - (floor_counts caps target).sum)
        ((remainder_order_perm hlength).nodup_iff.mpr List.nodup_range) i).1
      rw [clamp_within hwithin]
      rw [hfloor_at] at hadds
      exact ⟨hwithin, hadds⟩
    · split at h
      · cases h
      · cases h
        rw [clamp_within hfloor]
        exact ⟨hfloor, Or.inl hfloor_at⟩
  obtain ⟨hwithin, hround⟩ := hrounds
  obtain ⟨hi, hget⟩ := List.getElem?_eq_some_iff.mp hcap
  have hlength : counts.length = caps.length := hwithin.length_eq
  have hat := (List.forall₂_iff_get.mp hwithin).2 i (by omega) hi
  rw [List.getD_eq_getElem _ _ (by omega)] at hround ⊢
  simp only [List.get_eq_getElem, hget] at hat
  exact ⟨hat.1, hat.2, hround⟩

/-! ## The ranges -/

theorem deallocate_clears (a : Allocator) (r : Ref) :
    ((stateOf (deallocate r a)).store r).is_allocated = false := by
  rcases deallocate_cases a r with ⟨hfalse, hrun⟩ | ⟨s, e, loads, _, _, hrun, _⟩
  · rw [hrun]
    exact hfalse
  · rw [hrun]
    simp [stateOf, clear_node, update_layer_loads_heap, set_node, Node.clear_layer_allocation,
      Node.is_allocated]

/-- After the deallocation of some nodes none of them has a range. -/
theorem deallocate_all_clears (nodes : List Ref) (a : Allocator) :
    ∃ a', deallocate_all nodes a = .ok () a' ∧ From a a' ∧
      ∀ r, r ∈ nodes ∨ (a.store r).is_allocated = false → (a'.store r).is_allocated = false := by
  induction nodes generalizing a with
  | nil => exact ⟨a, rfl, From.refl a, fun r hr => hr.resolve_left List.not_mem_nil⟩
  | cons r rest ih =>
    obtain ⟨a', hrun, hfrom, hclear⟩ := ih (stateOf (deallocate r a))
    have hmoved := deallocate_moved a r
    have hbody : (do
        let a ← get
        if (a.store r).is_allocated then deallocate r : AllocM Unit) a =
        .ok () (stateOf (deallocate r a)) := by
      rw [get_bind]
      by_cases halloc : (a.store r).is_allocated = true
      · rw [if_pos halloc]
        exact deallocate_returns a r
      · rw [if_neg halloc, deallocate_unallocated (by simpa using halloc)]
        rfl
    refine ⟨a', (bind_of_ok hbody).trans hrun, ⟨hmoved.alike.trans hfrom.alike,
      hfrom.nodes.trans hmoved.nodes⟩, ?_⟩
    intro r' hr'
    apply hclear r'
    by_cases heq : r' = r
    · exact Or.inr (heq ▸ deallocate_clears a r)
    · rw [hmoved.store r' heq]
      exact hr'.imp_left (fun hmem => (List.mem_cons.mp hmem).resolve_left heq)

/-- The node has the range, and so says the map of the ranges. -/
structure HasRange (a : Allocator) (r : Ref) (start_layer end_layer : Int) : Prop where
  start_set : (a.store r).start_layer = some start_layer
  end_set : (a.store r).end_layer = some end_layer
  allocation : a.node_allocation.get? (a.node_id r) = some (start_layer, end_layer)

/-- The stages have ranges that follow each other, and a stage without layers has none. -/
def Ranged (a : Allocator) : List (Ref × Int) → Int → Prop
  | [], _ => True
  | (r, layers) :: rest, start_layer =>
    (if layers = 0 then (a.store r).is_allocated = false
      else HasRange a r start_layer (start_layer + layers)) ∧
    Ranged a rest (start_layer + layers)

/-- Only the ids have other ranges. -/
structure RangesKept (ids : List String) (a a' : Allocator) : Prop where
  alike : From a a'
  store : ∀ r, a.node_id r ∉ ids → a'.store r = a.store r
  allocation : ∀ id ∉ ids, a'.node_allocation.get? id = a.node_allocation.get? id

theorem RangesKept.refl (ids : List String) (a : Allocator) : RangesKept ids a a :=
  ⟨From.refl a, fun _ _ => rfl, fun _ _ => rfl⟩

theorem RangesKept.trans {ids ids' : List String} {a b c : Allocator} (h : RangesKept ids a b)
    (h' : RangesKept ids' b c) : RangesKept (ids ++ ids') a c := by
  refine ⟨⟨h.alike.alike.trans h'.alike.alike, h'.alike.nodes.trans h.alike.nodes⟩, ?_, ?_⟩
  · intro r hr
    rw [List.mem_append, not_or] at hr
    rw [h'.store r (by rw [h.alike.alike.node_id]; exact hr.2), h.store r hr.1]
  · intro id hid
    rw [List.mem_append, not_or] at hid
    rw [h'.allocation id hid.2, h.allocation id hid.1]

theorem HasRange.kept {ids : List String} {a a' : Allocator} {r : Ref} {start_layer end_layer : Int}
    (h : HasRange a r start_layer end_layer) (hk : RangesKept ids a a') (hr : a.node_id r ∉ ids) :
    HasRange a' r start_layer end_layer := by
  refine ⟨?_, ?_, ?_⟩
  · rw [hk.store r hr]
    exact h.start_set
  · rw [hk.store r hr]
    exact h.end_set
  · rw [hk.alike.alike.node_id, hk.allocation _ hr]
    exact h.allocation

/-- An allocation inside the model gives the node its range, and leaves the other ones alone. -/
theorem allocate_has_range {a : Allocator} {r : Ref} {start_layer end_layer : Int}
    (h : EveryLayer a) (hstart : 0 ≤ start_layer) (hlt : start_layer < end_layer)
    (hend : end_layer ≤ a.num_total_layers) :
    ∃ a', allocate r start_layer end_layer a = .ok () a' ∧
      HasRange a' r start_layer end_layer ∧ RangesKept [a.node_id r] a a' := by
  have hfits : a.fits start_layer end_layer := by
    unfold fits
    rw [h]
    exact ⟨hstart, hend⟩
  obtain ⟨loads, hrun, _⟩ := allocate_ok (r := r) hlt hfits
  have hmoved := allocate_moved a r start_layer end_layer
  rw [hrun] at hmoved
  refine ⟨_, hrun, ⟨?_, ?_, ?_⟩, ⟨⟨hmoved.alike, hmoved.nodes⟩, ?_, ?_⟩⟩
  · simp [update_layer_loads_heap, record_allocation, Node.set_layer_allocation]
  · simp [update_layer_loads_heap, record_allocation, Node.set_layer_allocation]
  · exact (congrArg _ (hmoved.alike.node_id r)).trans (Dict.get?_insert_self _ _ _)
  · intro r' hr'
    apply hmoved.store r'
    rintro rfl
    exact hr' List.mem_cons_self
  · intro id hid
    exact Dict.get?_insert_ne _ _ (fun heq => hid (List.mem_singleton.mpr heq.symm))

/-- Stages without ranges get them one after the other. -/
theorem apply_stages_ranged (stages : List (Ref × Int)) (start_layer : Int) {a : Allocator}
    (h : EveryLayer a) (hidle : ∀ x ∈ stages, (a.store x.1).is_allocated = false)
    (hids : (stages.map (fun x => a.node_id x.1)).Nodup) (hstart : 0 ≤ start_layer)
    (hcounts : ∀ x ∈ stages, 0 ≤ x.2)
    (hsum : start_layer + (stages.map Prod.snd).sum ≤ a.num_total_layers) :
    ∃ a', apply_stages stages start_layer a =
        .ok (start_layer + (stages.map Prod.snd).sum) a' ∧
      RangesKept (stages.map (fun x => a.node_id x.1)) a a' ∧ Ranged a' stages start_layer := by
  induction stages generalizing start_layer a with
  | nil =>
    refine ⟨a, ?_, RangesKept.refl _ a, trivial⟩
    simp [apply_stages]
    rfl
  | cons x rest ih =>
    obtain ⟨r, layers⟩ := x
    obtain ⟨hnot, hrest⟩ := List.nodup_cons.mp hids
    have hlayers : 0 ≤ layers := hcounts (r, layers) List.mem_cons_self
    have hcounts' : ∀ x ∈ rest, 0 ≤ x.2 := fun x hx => hcounts x (List.mem_cons_of_mem _ hx)
    have hidle' : ∀ x ∈ rest, (a.store x.1).is_allocated = false :=
      fun x hx => hidle x (List.mem_cons_of_mem _ hx)
    have htotal : 0 ≤ (rest.map Prod.snd).sum := by
      apply List.sum_nonneg
      intro c hc
      obtain ⟨x, hx, rfl⟩ := List.mem_map.mp hc
      exact hcounts' x hx
    simp only [List.map_cons, List.sum_cons, ← add_assoc] at hsum ⊢
    unfold apply_stages Ranged
    by_cases hzero : layers = 0
    · subst hzero
      simp only [add_zero, if_true, le_refl] at hsum ⊢
      obtain ⟨a', hrun, hkept, hranged⟩ := ih start_layer h hidle' hrest hstart hcounts' hsum
      refine ⟨a', hrun, (RangesKept.refl [a.node_id r] a).trans hkept, ?_, hranged⟩
      rw [hkept.store r hnot]
      exact hidle (r, 0) List.mem_cons_self
    · obtain ⟨a₁, hrun, hrange, hkept⟩ := allocate_has_range (r := r) h hstart
        (by omega : start_layer < start_layer + layers) (by omega)
      have hids₁ : rest.map (fun x => a₁.node_id x.1) = rest.map (fun x => a.node_id x.1) :=
        List.map_congr_left (fun x _ => hkept.alike.alike.node_id x.1)
      obtain ⟨a', hrun', hkept', hranged⟩ := ih (start_layer + layers)
        (hkept.alike.alike.every_layer h)
        (by
          intro x hx
          rw [hkept.store x.1 (fun hmem => hnot (List.mem_map.mpr
            ⟨x, hx, List.mem_singleton.mp hmem⟩))]
          exact hidle' x hx)
        (by rw [hids₁]; exact hrest) (by omega) hcounts'
        (by rw [hkept.alike.num_total_layers]; exact hsum)
      rw [hids₁] at hkept'
      rw [if_neg (by omega)]
      refine ⟨a', (bind_of_ok hrun).trans hrun', hkept.trans hkept', ?_, hranged⟩
      rw [if_neg hzero]
      apply hrange.kept hkept'
      rw [hkept.alike.alike.node_id]
      exact hnot

/-- The stages with layers tile them. -/
theorem Ranged.tiles {a : Allocator} {stages : List (Ref × Int)} {start_layer : Int}
    (h : Ranged a stages start_layer) :
    Tiles start_layer (((stages.map Prod.fst).filter (fun r => (a.store r).is_allocated)).map a.store)
      (start_layer + (stages.map Prod.snd).sum) := by
  induction stages generalizing start_layer with
  | nil => simp [Tiles]
  | cons x rest ih =>
    obtain ⟨r, layers⟩ := x
    obtain ⟨hhead, hrest⟩ := h
    have htail := ih hrest
    simp only [List.map_cons, List.sum_cons, ← add_assoc]
    by_cases hzero : layers = 0
    · rw [if_pos hzero] at hhead
      subst hzero
      rw [List.filter_cons_of_neg (by simp [hhead])]
      simpa using htail
    · rw [if_neg hzero] at hhead
      have halloc : (a.store r).is_allocated = true := by
        simp [Node.is_allocated, hhead.start_set, hhead.end_set]
      rw [List.filter_cons, if_pos halloc, List.map_cons, tiles_cons]
      exact ⟨hhead.start_set, _, hhead.end_set, htail⟩

theorem Ranged.layers {a : Allocator} {stages : List (Ref × Int)} {start_layer : Int}
    (h : Ranged a stages start_layer) {x : Ref × Int} (hx : x ∈ stages) :
    (a.store x.1).num_current_layers = x.2 ∧ ((a.store x.1).is_allocated = true →
      ∃ start_layer end_layer, HasRange a x.1 start_layer end_layer) := by
  induction stages generalizing start_layer with
  | nil => cases hx
  | cons y rest ih =>
    obtain ⟨r, layers⟩ := y
    obtain ⟨hhead, hrest⟩ := h
    rcases List.mem_cons.mp hx with rfl | hx
    · by_cases hzero : layers = 0
      · rw [if_pos hzero] at hhead
        have hnone : (a.store r).num_current_layers = 0 := by
          unfold Node.num_current_layers
          unfold Node.is_allocated at hhead
          split
          · rename_i hs he
            simp [hs, he] at hhead
          · rfl
        exact ⟨hnone.trans hzero.symm, fun halloc => by rw [hhead] at halloc; cases halloc⟩
      · rw [if_neg hzero] at hhead
        refine ⟨?_, fun _ => ⟨_, _, hhead⟩⟩
        simp [Node.num_current_layers, hhead.start_set, hhead.end_set]
    · exact ih hrest hx

/-! ## One pipeline -/

/-- The stages tile all layers in their order, and each of them gets its share of the water, rounded
down or up, within its room. -/
structure SplitExactly (a a' : Allocator) (nodes : List Ref) (caps : List Int) (share : Nat → Rat) :
    Prop where
  tiles : Tiles 0 ((nodes.filter (fun r => (a'.store r).is_allocated)).map a'.store)
    a.num_total_layers
  recorded : ∀ r ∈ nodes, (a'.store r).is_allocated = true →
    ∃ start_layer end_layer, HasRange a' r start_layer end_layer
  shares : ∀ (i : Nat) r cap, nodes[i]? = some r → caps[i]? = some cap →
    Rounded cap (share i) (a'.store r).num_current_layers

/-- The share of a stage at the level where the bisection ends. -/
def final_share (caps : List Int) (compute_powers : List ℚ≥0) (total_layers : Int)
    (max_iterations i : Nat) : Rat :=
  min ((caps.getD i 0 : Int) : Rat)
    (final_level caps compute_powers total_layers max_iterations * (compute_powers.getD i 0 : ℚ≥0))

theorem final_share_eq {caps : List Int} {powers : List ℚ≥0} {total_layers : Int}
    {iterations i : Nat} {hi : Rat} (hlen : powers.length = caps.length)
    (hlevel : highest_level caps powers = .ok hi) (hi_lt : i < caps.length) :
    (levels caps powers (bisect caps powers total_layers iterations 0 hi))[i]? =
      some (final_share caps powers total_layers iterations i) := by
  have hi_lt' : i < powers.length := by omega
  unfold levels final_share final_level
  rw [hlevel]
  simp [hi_lt, hi_lt', List.getD_eq_getElem?_getD]

/-- The counts of the stages, when the level is high enough and close enough. -/
theorem stage_layer_counts.exact {caps : List Int} {powers : List ℚ≥0} {total_layers : Int}
    {iterations : Nat} (hlayers : 0 < total_layers) (hcaps : ∀ cap ∈ caps, 0 < cap)
    (hpowers : ∀ power ∈ powers, 0 < power) (hlen : powers.length = caps.length)
    (hsum : total_layers ≤ caps.sum)
    (hbracket : ∀ hi, highest_level caps powers = .ok hi → powers.sum * hi ≤ 2 ^ iterations) :
    ∃ counts, stage_layer_counts caps powers total_layers iterations = .ok counts ∧
      counts.sum = total_layers ∧ counts.length = caps.length ∧
      ∀ (i : Nat) cap, caps[i]? = some cap →
        Rounded cap (final_share caps powers total_layers iterations i) (counts.getD i 0) := by
  have hne : caps ≠ [] := by
    rintro rfl
    simp at hsum
    omega
  obtain ⟨counts, hcounts, htotal⟩ := (stage_layer_counts.returns_iff hne hcaps hpowers hlen).mpr
    ⟨hsum, whole_layers_le hlayers hcaps hlen hbracket⟩
  refine ⟨counts, hcounts, htotal, (stage_layer_counts.spec hcaps hlen hcounts).1.length_eq, ?_⟩
  intro i cap hcap
  obtain ⟨hi, hlevel, _⟩ := highest_level.spec hne hpowers hlen
  have hnonneg := bisect_nonneg caps powers total_layers iterations 0 hi le_rfl
    (highest_level_nonneg hcaps hlevel)
  rw [stage_layer_counts_eq hsum hlevel] at hcounts
  have hle : ∀ (j : Nat) c t, caps[j]? = some c →
      (levels caps powers (bisect caps powers total_layers iterations 0 hi))[j]? = some t →
        t ≤ (c : Rat) := by
    intro j c t hc ht
    rw [levels, List.getElem?_zipWith, hc] at ht
    rcases hp : powers[j]? with _ | power
    · simp [hp] at ht
    · simp only [hp, Option.some.injEq] at ht
      rw [← ht]
      exact min_le_left _ _
  exact whole_shares_rounded (floor_counts_within caps powers _ hnonneg hcaps hlen)
    (by simp [hlen]) hle hcounts i hcap
    (final_share_eq hlen hlevel (List.getElem?_eq_some_iff.mp hcap).1)

/-- Water-filling splits all layers exactly: stages with room and power that hold the model
together, and enough halvings for the bracket of the water level, are all it takes. -/
theorem water_filling_is_exact {a : Allocator} (h : EveryLayer a) {pipeline_nodes : List Ref}
    (assume_sorted : Bool) (power_type : PowerType) {nodes : List Ref} {caps : List Int}
    {powers : List ℚ≥0} (hnodes : nodes = stage_order a pipeline_nodes assume_sorted)
    (hcaps : caps = stage_capacities a.store nodes)
    (hpowers : powers = nodes.map (fun r => compute_power power_type (a.store r)))
    (hdistinct : (pipeline_nodes.map a.node_id).Nodup) (hlayers : 0 < a.num_total_layers)
    (hroom : ∀ cap ∈ caps, 0 < cap) (hpositive : ∀ power ∈ powers, 0 < power)
    (hsum : a.num_total_layers ≤ caps.sum)
    (hbracket : ∀ hi, highest_level caps powers = .ok hi →
      powers.sum * hi ≤ 2 ^ a.water_filling_max_iterations) :
    ∃ a', adjust_pipeline_layers pipeline_nodes assume_sorted power_type a = .ok () a' ∧
      SplitExactly a a' nodes caps
        (final_share caps powers a.num_total_layers a.water_filling_max_iterations) := by
  have hperm : nodes.Perm pipeline_nodes := hnodes ▸ stage_order_perm a pipeline_nodes assume_sorted
  have hcaps_len : caps.length = nodes.length := by rw [hcaps, stage_capacities_length]
  have hlen : powers.length = caps.length := by rw [hpowers, List.length_map, hcaps_len]
  obtain ⟨counts, hcounts, htotal, hcounts_len, hrounded⟩ :=
    stage_layer_counts.exact hlayers hroom hpositive hlen hsum hbracket
  obtain ⟨a₁, hclear, hfrom, hidle⟩ := deallocate_all_clears nodes a
  have hstages : (nodes.zip counts).map Prod.fst = nodes :=
    List.map_fst_zip (by omega)
  have hlayers_of : (nodes.zip counts).map Prod.snd = counts :=
    List.map_snd_zip (by omega)
  have hids : ((nodes.zip counts).map (fun x => a₁.node_id x.1)).Nodup := by
    have hmap : (nodes.zip counts).map (fun x => a₁.node_id x.1) = nodes.map a.node_id := by
      conv_rhs => rw [← hstages, List.map_map]
      exact List.map_congr_left (fun x _ => hfrom.alike.node_id x.1)
    rw [hmap]
    exact (hperm.map a.node_id).nodup_iff.mpr hdistinct
  have hnonneg : ∀ x ∈ nodes.zip counts, 0 ≤ x.2 := by
    intro x hx
    obtain ⟨i, hi, hget⟩ := List.getElem_of_mem (List.of_mem_zip hx).2
    have hround := hrounded i _ (List.getElem?_eq_getElem (by omega))
    rw [List.getD_eq_getElem _ _ hi, hget] at hround
    exact hround.1
  obtain ⟨a', hrun, hkept, hranged⟩ := apply_stages_ranged (nodes.zip counts) 0
    (hfrom.alike.every_layer h) (fun x hx => hidle x.1 (Or.inl (List.of_mem_zip hx).1)) hids le_rfl
    hnonneg (by rw [hlayers_of, htotal, hfrom.num_total_layers]; omega)
  rw [hlayers_of, htotal, zero_add] at hrun
  refine ⟨a', ?_, ?_, ?_, ?_⟩
  · have hne : pipeline_nodes.isEmpty = false := by
      rcases pipeline_nodes with _ | ⟨r, rest⟩
      · rw [List.perm_nil.mp hperm] at hcaps_len
        rw [List.length_eq_zero_iff.mp hcaps_len, List.sum_nil] at hsum
        omega
      · rfl
    have hsplit : split_layers nodes power_type a₁ = .ok () a' := by
      unfold split_layers
      have hstage_counts := hfrom.stage_counts nodes power_type
      unfold stage_counts at hstage_counts
      rw [get_bind, hstage_counts, hfrom.stage_capacities, ← hcaps, full_stage_eq_none hroom,
        ← hpowers, hcounts]
      refine (bind_of_ok hrun).trans ?_
      exact congrFun (if_neg (not_not.mpr hfrom.num_total_layers.symm)) a'
    unfold adjust_pipeline_layers
    rw [get_bind, hne, Bool.false_or, if_neg (by simpa using hlayers)]
    have hdealloc : deallocate_all (stage_order a pipeline_nodes assume_sorted) a = .ok () a₁ :=
      hnodes ▸ hclear
    refine (bind_of_ok hdealloc).trans ?_
    rw [← hsplit, hnodes]
    rfl
  · have htiles := hranged.tiles
    rw [hstages, hlayers_of, htotal, zero_add] at htiles
    exact htiles
  · intro r hr halloc
    rw [← hstages] at hr
    obtain ⟨x, hx, rfl⟩ := List.mem_map.mp hr
    exact (hranged.layers hx).2 halloc
  · intro i r cap hr hcap
    have hi : i < counts.length := by
      have hi := (List.getElem?_eq_some_iff.mp hcap).1
      omega
    have hmem : (r, counts[i]) ∈ nodes.zip counts := by
      apply List.mem_of_getElem? (i := i)
      rw [List.getElem?_zip_eq_some]
      exact ⟨hr, List.getElem?_eq_getElem hi⟩
    have hround := hrounded i cap hcap
    rw [List.getD_eq_getElem _ _ hi] at hround
    rw [(hranged.layers hmem).1]
    exact hround

def two_stages : Allocator := pool (mixed_store (build_model_info 14)) (build_model_info 14) 2

theorem two_stages_capacities : stage_capacities two_stages.store [0, 1] = [13, 6] := by
  decide +kernel

theorem two_stages_powers :
    [0, 1].map (fun r => compute_power .flops (two_stages.store r)) = [312, 312] := by
  decide +kernel

/-- Fourteen layers over a stage with room for thirteen of them and one with room for six. -/
theorem fourteen_layers_are_split :
    ∃ a', adjust_pipeline_layers [0, 1] true .flops two_stages = .ok () a' ∧
      SplitExactly two_stages a' [0, 1] [13, 6] (final_share [13, 6] [312, 312] 14 40) := by
  refine water_filling_is_exact (by unfold EveryLayer; decide +kernel) true .flops rfl
    two_stages_capacities.symm two_stages_powers.symm (by decide +kernel) (by decide +kernel)
    (by decide) (by decide) (by decide +kernel) ?_
  intro hi hlevel
  have hhi : hi = 13 / 312 := by
    have heval : highest_level [13, 6] [312, 312] = .ok (13 / 312) := by decide +kernel
    rw [heval] at hlevel
    cases hlevel
    rfl
  have hiterations : two_stages.water_filling_max_iterations = 40 := rfl
  rw [hhi, hiterations]
  norm_num

end scheduling.layer_allocation
