-- The warm-up truncation. Of each node on the fastest route the layers of its
-- first visit stay, so the layers of a later visit are lost, unless the ranges
-- that stay lead from the first layer to the last one without them.
import InferenceMesh.Scheduling.LayerRoute
import InferenceMesh.Scheduling.SchedulerView
import InferenceMesh.Scheduling.WaterLevel

open ordered_dict python state_exn
open scheduling.model_info scheduling.node scheduling.layer_allocation

namespace scheduling.request_routing

/-! ## Visits -/

/-- The layers of the first visit of a route to a node: the first one, and the one where the route
leaves the node. -/
def first_visit (route : List Nat) (i : Nat) : Nat × Nat :=
  (route.idxOf i, route.idxOf i + (route.drop (route.idxOf i)).findIdx (fun j => j ≠ i))

section visits

variable {route : List Nat} {i k : Nat}

/-- The node has the layers of the visit. -/
theorem on_visit (hstart : (first_visit route i).1 ≤ k) (hend : k < (first_visit route i).2) :
    route[k]? = some i := by
  unfold first_visit at hstart hend
  dsimp only at hstart hend
  have hlt : k - route.idxOf i < (route.drop (route.idxOf i)).findIdx (fun j => j ≠ i) := by omega
  have hlength := hlt.trans_le List.findIdx_le_length
  have hnot := List.not_of_lt_findIdx hlt
  rw [List.length_drop] at hlength
  have hsum : route.idxOf i + (k - route.idxOf i) = k := by omega
  simp only [List.getElem_drop, hsum, decide_eq_false_iff_not, not_not] at hnot
  exact List.getElem?_eq_some_iff.mpr ⟨by omega, hnot⟩

/-- A visit ends where another node follows, or with the route. -/
theorem after_visit {j : Nat} (h : route[(first_visit route i).2]? = some j) : j ≠ i := by
  unfold first_visit at h
  dsimp only at h
  rw [← List.getElem?_drop, List.getElem?_eq_some_iff] at h
  obtain ⟨hlt, rfl⟩ := h
  simpa using List.findIdx_getElem (w := hlt)

theorem first_visit_lt (hi : i ∈ route) : (first_visit route i).1 < (first_visit route i).2 := by
  by_contra hle
  have hend : (first_visit route i).2 = (first_visit route i).1 := by
    unfold first_visit at hle ⊢
    dsimp only at hle ⊢
    omega
  have hget : route[(first_visit route i).2]? = some i := by
    rw [hend]
    exact List.getElem?_idxOf hi
  exact after_visit hget rfl

/-- The node has the last layer of its visit. -/
theorem visit_last (hi : i ∈ route) : route[(first_visit route i).2 - 1]? = some i := by
  have hlt := first_visit_lt hi
  exact on_visit (by omega) (by omega)

theorem first_visit_le_length (hi : i ∈ route) : (first_visit route i).2 ≤ route.length := by
  have hlt := first_visit_lt hi
  have hlast := (List.getElem?_eq_some_iff.mp (visit_last hi)).1
  omega

/-- The route has the node nowhere before the visit. -/
theorem first_visit_le (h : route[k]? = some i) : (first_visit route i).1 ≤ k := by
  by_contra hlt
  obtain ⟨hk, hget⟩ := List.getElem?_eq_some_iff.mp h
  have hnot := List.not_of_lt_findIdx (p := fun x => x == i) (not_le.mp hlt)
  rw [hget] at hnot
  simp at hnot

/-- What follows a layer of the node lies behind its first visit, when it is another node. -/
theorem first_visit_over {j : Nat} (h : route[k]? = some i) (hnext : route[k + 1]? = some j)
    (hne : i ≠ j) : (first_visit route i).2 ≤ k + 1 := by
  by_contra hlt
  have hstart := first_visit_le h
  have hget : route[k + 1]? = some i := on_visit (by omega) (by omega)
  rw [hnext] at hget
  exact hne (Option.some.inj hget).symm

end visits

/-! ## The turning points of a route -/

section turns

variable {nodes : List Node} {route : List Nat}

theorem tail_turns_cons {li i j : Nat} {rest : List Nat} {t : Turn} :
    t ∈ tail_turns nodes li (i :: j :: rest) ↔
      (∃ n, i ≠ j ∧ nodes[i]? = some n ∧ n.hosts_layer li = true ∧
        t = (n.node_id, (li : Int), .tail)) ∨ t ∈ tail_turns nodes (li + 1) (j :: rest) := by
  rw [tail_turns]
  rcases nodes[i]? with _ | n
  · simp
  · dsimp only
    split
    · rename_i hturn
      rw [List.mem_cons]
      refine or_congr_left ⟨fun heq => ⟨n, hturn.1, rfl, hturn.2, heq⟩, ?_⟩
      rintro ⟨n', _, hn, _, heq⟩
      cases hn
      exact heq
    · rename_i hturn
      refine (or_iff_right ?_).symm
      rintro ⟨n', hne, hn, hosts, _⟩
      cases hn
      exact hturn ⟨hne, hosts⟩

/-- The route leaves a node at a layer that the node still hosts. -/
theorem mem_tail_turns {li : Nat} {t : Turn} : t ∈ tail_turns nodes li route ↔
    ∃ k i j n, route[k]? = some i ∧ route[k + 1]? = some j ∧ i ≠ j ∧ nodes[i]? = some n ∧
      n.hosts_layer (li + k : Nat) = true ∧ t = (n.node_id, ((li + k : Nat) : Int), .tail) := by
  induction route generalizing li with
  | nil => simp [tail_turns]
  | cons i rest ih =>
    rcases rest with _ | ⟨j, rest⟩
    · simp [tail_turns]
    · rw [tail_turns_cons, ih]
      constructor
      · rintro (⟨n, hne, hn, hosts, ht⟩ | ⟨k, i', j', n, hi, hj, hne, hn, hosts, ht⟩)
        · exact ⟨0, i, j, n, rfl, rfl, hne, hn, hosts, ht⟩
        · rw [Nat.add_assoc, Nat.add_comm 1 k] at hosts ht
          exact ⟨k + 1, i', j', n, hi, hj, hne, hn, hosts, ht⟩
      · rintro ⟨_ | k, i', j', n, hi, hj, hne, hn, hosts, ht⟩
        · cases hi
          cases hj
          exact Or.inl ⟨n, hne, hn, hosts, ht⟩
        · rw [Nat.add_comm k 1, ← Nat.add_assoc] at hosts ht
          exact Or.inr ⟨k, i', j', n, hi, hj, hne, hn, hosts, ht⟩

/-- Each node of the route is listed with its first layer. -/
theorem mem_first_used {li : Nat} {used : List (Nat × Nat)} {x : Nat × Nat} :
    x ∈ first_used li route used ↔ x ∈ used ∨
      x.1 ∉ used.map Prod.fst ∧ x.1 ∈ route ∧ x.2 = li + route.idxOf x.1 := by
  induction route generalizing li used with
  | nil => simp [first_used]
  | cons i rest ih =>
    rw [first_used, ih]
    by_cases hi : i ∈ used.map Prod.fst
    · rw [if_pos hi]
      refine or_congr_right (and_congr_right fun hx => ?_)
      have hne : x.1 ≠ i := fun heq => hx (heq ▸ hi)
      rw [List.mem_cons, or_iff_right hne, List.idxOf_cons_ne _ hne.symm]
      exact and_congr_right fun _ => by omega
    · rw [if_neg hi]
      by_cases hx : x.1 = i
      · obtain ⟨x, l⟩ := x
        dsimp only at hx
        subst hx
        have hnot : (x, l) ∉ used := fun hmem => hi (List.mem_map_of_mem hmem)
        simp [hi, hnot]
      · have hpair : x ≠ (i, li) := fun heq => hx (congrArg Prod.fst heq)
        rw [List.mem_append, List.mem_singleton, or_iff_left hpair, List.map_append, List.mem_append,
          List.map_singleton, List.mem_singleton, or_iff_left hx, List.mem_cons, or_iff_right hx,
          List.idxOf_cons_ne _ (Ne.symm hx)]
        exact or_congr_right (and_congr_right fun _ => and_congr_right fun _ => by omega)

/-- The route comes to a node behind the start of its range. -/
theorem mem_head_turns {t : Turn} : t ∈ head_turns nodes (first_used 0 route []) ↔
    ∃ i n s, i ∈ route ∧ nodes[i]? = some n ∧ n.start_layer = some s ∧
      s < (first_visit route i).1 ∧ t = (n.node_id, ((first_visit route i).1 : Int), .head) := by
  unfold head_turns
  rw [List.mem_filterMap]
  constructor
  · rintro ⟨x, hx, ht⟩
    obtain ⟨_, hroute, hlayer⟩ := (mem_first_used.mp hx).resolve_left List.not_mem_nil
    rw [Nat.zero_add] at hlayer
    rcases hn : nodes[x.1]? with _ | n
    · rw [hn] at ht
      cases ht
    · rw [hn] at ht
      dsimp only at ht
      rcases hs : n.start_layer with _ | s
      · rw [hs] at ht
        cases ht
      · rw [hs] at ht
        dsimp only at ht
        split at ht
        · rename_i hlt
          cases ht
          rw [hlayer] at hlt ⊢
          exact ⟨x.1, n, s, hroute, hn, hs, hlt, rfl⟩
        · cases ht
  · rintro ⟨i, n, s, hroute, hn, hs, hlt, rfl⟩
    refine ⟨(i, route.idxOf i), mem_first_used.mpr (Or.inr ⟨List.not_mem_nil, hroute, ?_⟩), ?_⟩
    · exact (Nat.zero_add _).symm
    · simp only [hn, hs]
      exact if_pos hlt

/-- The range of a node holds its visit, and the turning points of the node cut it down to that
visit and no further. -/
structure CutsTo (n : Node) (visit : Nat × Nat) (turns : List Turn) : Prop where
  holds : ∃ s e, n.start_layer = some s ∧ n.end_layer = some e ∧
    (s = visit.1 ∨ s < visit.1 ∧ (n.node_id, (visit.1 : Int), Kind.head) ∈ turns) ∧
      (e = visit.2 ∨ visit.2 < e ∧ (n.node_id, (visit.2 : Int), Kind.tail) ∈ turns)
  within : ∀ t ∈ turns, t.1 = n.node_id →
    match t.2.2 with
    | .tail => visit.2 ≤ t.2.1
    | .head => t.2.1 ≤ visit.1

theorem hosts_layer_iff {n : Node} {l : Int} : n.hosts_layer l = true ↔
    ∃ s e, n.start_layer = some s ∧ n.end_layer = some e ∧ s ≤ l ∧ l < e := by
  unfold Node.hosts_layer
  rcases n.start_layer with _ | s
  · simp
  · rcases n.end_layer with _ | e
    · simp
    · simp

/-- The turning points of a route cut each of its nodes down to the first visit. -/
theorem turns_of.spec {num_layers : Nat} (hids : (nodes.map Node.node_id).Nodup)
    (hinside : ∀ n ∈ nodes, ∀ e, n.end_layer = some e → e ≤ num_layers)
    (hway : Way nodes num_layers route.reverse) {i : Nat} {n : Node} (hi : i ∈ route)
    (hn : nodes[i]? = some n) : CutsTo n (first_visit route i) (turns_of nodes route) := by
  have hosts : ∀ (l : Nat), route[l]? = some i → n.hosts_layer l = true := by
    intro l hl
    obtain ⟨n', hn', hosts⟩ := hway.hosts l i (by rw [List.reverse_reverse]; exact hl)
    rw [hn] at hn'
    exact Option.some.inj hn' ▸ hosts
  have hlt := first_visit_lt hi
  obtain ⟨s, e, hs, he, hfirst, _⟩ := hosts_layer_iff.mp (hosts _ (on_visit le_rfl hlt))
  obtain ⟨s', e', hs', he', _, hlast⟩ := hosts_layer_iff.mp (hosts _ (visit_last hi))
  rw [he] at he'
  cases he'
  have hlength : route.length = num_layers := by
    rw [← List.length_reverse]
    exact hway.length
  constructor
  · refine ⟨s, e, hs, he, ?_, ?_⟩
    · rcases hfirst.eq_or_lt with heq | hless
      · exact Or.inl heq
      · exact Or.inr ⟨hless, List.mem_append_right _ (mem_head_turns.mpr ⟨i, n, s, hi, hn, hs, hless, rfl⟩)⟩
    · by_cases heq : e = (first_visit route i).2
      · exact Or.inl heq
      · have hend := hinside n (List.mem_of_getElem? hn) e he
        have hnext : (first_visit route i).2 < route.length := by omega
        obtain ⟨j, hj⟩ : ∃ j, route[(first_visit route i).2]? = some j :=
          ⟨_, List.getElem?_eq_getElem hnext⟩
        have hsum : 1 + ((first_visit route i).2 - 1) = (first_visit route i).2 := by omega
        have hsum' : (first_visit route i).2 - 1 + 1 = (first_visit route i).2 := by omega
        refine Or.inr ⟨by omega, List.mem_append_left _ (mem_tail_turns.mpr
          ⟨(first_visit route i).2 - 1, i, j, n, visit_last hi, ?_, (after_visit hj).symm, hn, ?_, ?_⟩)⟩
        · rw [hsum']
          exact hj
        · rw [hsum]
          exact hosts_layer_iff.mpr ⟨s, e, hs, he, by omega, by omega⟩
        · rw [hsum]
  · -- No other node has the id.
    have hindex : ∀ i' n', nodes[i']? = some n' → n'.node_id = n.node_id → i' = i := by
      intro i' n' hn' hid
      have hlength := (List.getElem?_eq_some_iff.mp hn').1
      refine (List.getElem?_inj (by rwa [List.length_map]) hids).mp ?_
      rw [List.getElem?_map, List.getElem?_map, hn, hn', Option.map_some, Option.map_some, hid]
    intro t ht hid
    rcases List.mem_append.mp ht with ht | ht
    · obtain ⟨k, i', j, n', hk, hj, hne, hn', _, rfl⟩ := mem_tail_turns.mp ht
      rw [hindex i' n' hn' hid] at hk hne
      have hover := first_visit_over hk hj hne
      dsimp only
      omega
    · obtain ⟨i', n', s', _, hn', _, _, rfl⟩ := mem_head_turns.mp ht
      rw [hindex i' n' hn' hid]

end turns

/-- All turning points are of nodes on the route. -/
theorem turns_on_route {nodes : List Node} {route : List Nat} {t : Turn}
    (h : t ∈ turns_of nodes route) : ∃ i ∈ route, ∃ n, nodes[i]? = some n ∧ t.1 = n.node_id := by
  rcases List.mem_append.mp h with h | h
  · obtain ⟨k, i, j, n, hi, _, _, hn, _, rfl⟩ := mem_tail_turns.mp h
    exact ⟨i, List.mem_of_getElem? hi, n, hn, rfl⟩
  · obtain ⟨i, n, s, hi, hn, _, _, rfl⟩ := mem_head_turns.mp h
    exact ⟨i, hi, n, hn, rfl⟩

/-- What is left of a range. -/
def trimmed (t : Turn) (range : Int × Int) : Int × Int :=
  match t.2.2 with
  | .tail => (range.1, min range.2 t.2.1)
  | .head => (max range.1 t.2.1, range.2)

section cuts

variable {n n' : Node} {visit : Nat × Nat} {t : Turn} {turns : List Turn}

/-- A turning point of another node. -/
theorem CutsTo.other (h : CutsTo n visit (t :: turns)) (hid : t.1 ≠ n.node_id) :
    CutsTo n visit turns := by
  obtain ⟨⟨s, e, hs, he, hfirst, hlast⟩, hwithin⟩ := h
  have hne : ∀ (l : Int) (kind : Kind), (n.node_id, l, kind) ≠ t := by
    rintro l kind rfl
    exact hid rfl
  refine ⟨⟨s, e, hs, he, ?_, ?_⟩, fun t' ht' => hwithin t' (List.mem_cons_of_mem _ ht')⟩
  · exact hfirst.imp_right (And.imp_right fun hmem => (List.mem_cons.mp hmem).resolve_left (hne _ _))
  · exact hlast.imp_right (And.imp_right fun hmem => (List.mem_cons.mp hmem).resolve_left (hne _ _))

/-- A turning point of the node is carried out. -/
theorem CutsTo.trimmed (h : CutsTo n visit (t :: turns)) (hid : t.1 = n.node_id) {s e : Int}
    (hs : n.start_layer = some s) (he : n.end_layer = some e) (hsame : n'.node_id = n.node_id)
    (hs' : n'.start_layer = some (trimmed t (s, e)).1)
    (he' : n'.end_layer = some (trimmed t (s, e)).2) : CutsTo n' visit turns := by
  obtain ⟨⟨s₀, e₀, hs₀, he₀, hfirst, hlast⟩, hwithin⟩ := h
  rw [hs] at hs₀
  rw [he] at he₀
  cases hs₀
  cases he₀
  have ht := hwithin t List.mem_cons_self hid
  obtain ⟨id, l, kind⟩ := t
  dsimp only at hid ht
  subst hid
  constructor
  · refine ⟨_, _, hs', he', ?_, ?_⟩
    · rw [hsame]
      cases kind with
      | tail =>
        exact hfirst.imp_right (And.imp_right fun hmem =>
          (List.mem_cons.mp hmem).resolve_left (by simp))
      | head =>
        show max s l = visit.1 ∨ _
        by_cases hl : l = visit.1
        · left
          rcases hfirst with heq | hlt <;> omega
        · refine hfirst.imp (fun heq => by dsimp only at ht; omega) ?_
          rintro ⟨hlt, hmem⟩
          refine ⟨max_lt hlt (lt_of_le_of_ne ht hl), (List.mem_cons.mp hmem).resolve_left ?_⟩
          intro heq
          exact hl (Prod.mk.inj (Prod.mk.inj heq).2).1.symm
    · rw [hsame]
      cases kind with
      | head =>
        exact hlast.imp_right (And.imp_right fun hmem =>
          (List.mem_cons.mp hmem).resolve_left (by simp))
      | tail =>
        show min e l = visit.2 ∨ _
        by_cases hl : l = visit.2
        · left
          rcases hlast with heq | hlt <;> omega
        · refine hlast.imp (fun heq => by dsimp only at ht; omega) ?_
          rintro ⟨hlt, hmem⟩
          refine ⟨lt_min hlt (lt_of_le_of_ne ht (Ne.symm hl)), (List.mem_cons.mp hmem).resolve_left ?_⟩
          intro heq
          exact hl (Prod.mk.inj (Prod.mk.inj heq).2).1.symm
  · intro t' ht' hid'
    exact hwithin t' (List.mem_cons_of_mem _ ht') (hid'.trans hsame)

/-- What is left still holds the visit. -/
theorem CutsTo.range (h : CutsTo n visit (t :: turns)) (hid : t.1 = n.node_id) {s e : Int}
    (hs : n.start_layer = some s) (he : n.end_layer = some e) :
    s ≤ (request_routing.trimmed t (s, e)).1 ∧ (request_routing.trimmed t (s, e)).1 ≤ visit.1 ∧
      visit.2 ≤ (request_routing.trimmed t (s, e)).2 ∧ (request_routing.trimmed t (s, e)).2 ≤ e := by
  obtain ⟨⟨s₀, e₀, hs₀, he₀, hfirst, hlast⟩, hwithin⟩ := h
  rw [hs] at hs₀
  rw [he] at he₀
  cases hs₀
  cases he₀
  have ht := hwithin t List.mem_cons_self hid
  have hstart : s ≤ visit.1 := hfirst.elim (fun heq => heq.le) (fun hlt => hlt.1.le)
  have hend : (visit.2 : Int) ≤ e := hlast.elim (fun heq => heq.ge) (fun hlt => hlt.1.le)
  obtain ⟨id, l, kind⟩ := t
  unfold request_routing.trimmed
  cases kind with
  | tail => exact ⟨le_rfl, hstart, le_min hend ht, min_le_left e l⟩
  | head => exact ⟨le_max_left s l, max_le hstart ht, hend, le_rfl⟩

/-- Without further turning points the node has the layers of its visit. -/
theorem CutsTo.done (h : CutsTo n visit []) :
    n.start_layer = some (visit.1 : Int) ∧ n.end_layer = some (visit.2 : Int) := by
  obtain ⟨⟨s, e, hs, he, hfirst, hlast⟩, _⟩ := h
  rw [hs, he, hfirst.resolve_right (fun hlt => List.not_mem_nil hlt.2),
    hlast.resolve_right (fun hlt => List.not_mem_nil hlt.2)]
  exact ⟨rfl, rfl⟩

end cuts

/-! ## The ranges that stay -/

/-- A range that is there after the truncation: the first visit to a node of the route, or the range
of a node off the route. -/
def Remains (nodes : List Node) (route : List Nat) (start_layer end_layer : Int) : Prop :=
  ∃ i n, nodes[i]? = some n ∧
    ((i ∈ route ∧ start_layer = (first_visit route i).1 ∧ end_layer = (first_visit route i).2) ∨
      (i ∉ route ∧ n.start_layer = some start_layer ∧ n.end_layer = some end_layer))

/-- The ranges that stay lead from the first layer to the end of the model. -/
def StaysCovered (nodes : List Node) (num_layers : Nat) (route : List Nat) : Prop :=
  Relation.ReflTransGen (Remains nodes route) 0 num_layers

/-- The route comes back to no node that it has left. -/
def NoReturn (route : List Nat) : Prop :=
  ∀ k i, route[k]? = some i → k < (first_visit route i).2

/-- A route that comes back to no node loses nothing. -/
theorem stays_covered_without_return {nodes : List Node} {num_layers : Nat} {route : List Nat}
    (hway : Way nodes num_layers route.reverse) (h : NoReturn route) :
    StaysCovered nodes num_layers route := by
  have hlength : route.length = num_layers := by
    rw [← List.length_reverse]
    exact hway.length
  -- From the start of each visit the visits lead on to the end.
  have hchain : ∀ d k, k + d = num_layers →
      (∀ i, route[k]? = some i → (first_visit route i).1 = k) →
      Relation.ReflTransGen (Remains nodes route) (k : Int) num_layers := by
    intro d
    induction d using Nat.strong_induction_on with
    | _ d ih =>
      intro k hk hstart
      rcases Nat.eq_zero_or_pos d with rfl | hd
      · rw [← hk]
        exact Relation.ReflTransGen.refl
      · obtain ⟨i, hi⟩ : ∃ i, route[k]? = some i := ⟨_, List.getElem?_eq_getElem (by omega)⟩
        have hmem := List.mem_of_getElem? hi
        have hfirst := hstart i hi
        have hlt := first_visit_lt hmem
        have hend := first_visit_le_length hmem
        obtain ⟨n, hn, _⟩ := hway.hosts k i (by rw [List.reverse_reverse]; exact hi)
        refine Relation.ReflTransGen.head ⟨i, n, hn, Or.inl ⟨hmem, by rw [hfirst], rfl⟩⟩ ?_
        refine ih (num_layers - (first_visit route i).2) (by omega) _ (by omega) ?_
        intro j hj
        have hne := after_visit hj
        by_contra hearly
        have hle := first_visit_le hj
        have hlast : route[(first_visit route i).2 - 1]? = some j :=
          on_visit (by omega) (by have := h _ j hj; omega)
        rw [visit_last hmem] at hlast
        exact hne (Option.some.inj hlast).symm
  refine hchain num_layers 0 (Nat.zero_add _) ?_
  intro i hi
  exact Nat.le_zero.mp (first_visit_le hi)

end scheduling.request_routing

namespace scheduling.scheduler

open Allocator request_routing

/-! ## Truncations -/

/-- The bookkeeping agrees, and all nodes that the allocator knows are listed. -/
structure WellKept (m : ModelInfo) (a : Allocator) : Prop where
  bookkeeping : BookkeepingAgrees m a
  listed : ∀ id r, a.node_id_to_node.get? id = some r → r ∈ a.nodes

section truncations

variable {m : ModelInfo} {a₀ a : Allocator}

/-- A listed node gets another range inside the model. -/
theorem reallocate.outcome (h : WellKept m a) {r : Ref} (hr : r ∈ a.nodes) {start_layer end_layer : Int}
    (hstart : 0 ≤ start_layer) (hlt : start_layer < end_layer) (hend : end_layer ≤ m.num_layers) :
    ∃ a', reallocate r start_layer end_layer a = .ok () a' ∧ WellKept m a' ∧ Moved r a a' ∧
      (a'.store r).start_layer = some start_layer ∧ (a'.store r).end_layer = some end_layer := by
  have K := bookkeeping_kept m
  have husable := h.bookkeeping.views.usable_of_listed hr
  have hcleared := K.deallocates a r h.bookkeeping husable
  have hmoved := deallocate_moved a r
  have hlayers : EveryLayer (stateOf (deallocate r a)) := by
    have hloads := hcleared.loads.layers
    exact hloads
  have hinside : end_layer ≤ (stateOf (deallocate r a)).num_total_layers := by
    unfold num_total_layers
    rw [hcleared.model_info]
    exact hend
  obtain ⟨a', hrun, hrange, _⟩ := allocate_has_range (r := r) hlayers hstart hlt hinside
  have hmoved' := allocate_moved (stateOf (deallocate r a)) r start_layer end_layer
  have hkept : BookkeepingAgrees m (stateOf (reallocate r start_layer end_layer a)) :=
    K.reallocate h.bookkeeping husable (fun _ => ⟨hstart, hend⟩)
  have hall : reallocate r start_layer end_layer a = .ok () a' :=
    (bind_of_ok (deallocate_returns a r)).trans hrun
  rw [hrun] at hmoved'
  rw [hall] at hkept
  have hnodes : a'.nodes = a.nodes := hmoved'.nodes.trans hmoved.nodes
  have hid := hmoved.alike.node_id r
  have hboth : Moved r a a' := by
    refine ⟨hmoved.alike.trans hmoved'.alike, hnodes, ?_, ?_⟩
    · exact fun r' hne => (hmoved'.store r' hne).trans (hmoved.store r' hne)
    · intro id hne
      rw [← hmoved.ids id hne]
      apply hmoved'.ids
      rwa [hid]
  refine ⟨a', hall, ⟨hkept, ?_⟩, hboth, hrange.start_set, hrange.end_set⟩
  intro id r' hget
  by_cases hself : id = a.node_id r
  · have hlisted : a'.node_id_to_node.get? (a'.node_id r) = some r :=
      hkept.views.listed r (hnodes ▸ hr)
    rw [hboth.alike.node_id, ← hself, hget] at hlisted
    rw [Option.some.inj hlisted, hnodes]
    exact hr
  · rw [hboth.ids id hself] at hget
    rw [hnodes]
    exact h.listed id r' hget

/-- A turning point trims the range of its node. -/
theorem truncate.outcome (h : WellKept m a) {r : Ref} (hr : r ∈ a.nodes) {t : Turn}
    (hid : t.1 = a.node_id r) {visit : Nat × Nat} (hvisit : visit.1 < visit.2) {turns : List Turn}
    (hcuts : CutsTo (a.store r) visit (t :: turns)) :
    ∃ a', truncate t a = .ok () a' ∧ WellKept m a' ∧ Moved r a a' ∧
      CutsTo (a'.store r) visit turns := by
  have hv := h.bookkeeping.views
  obtain ⟨s, e, hs, he, _, _⟩ := hcuts.holds
  obtain ⟨hsle, hfirst, hlast, hele⟩ := hcuts.range hid hs he
  obtain ⟨hzero, hlayers⟩ := h.bookkeeping.inside _ s e
    (hv.allocation_of_range (hv.listed r hr) hs he)
  have hfind : a.nodes.find? (fun r' => a.node_id r' = t.1) = some r := by
    obtain ⟨x, hx⟩ : ∃ x, a.nodes.find? (fun r' => a.node_id r' = t.1) = some x := by
      rw [← Option.isSome_iff_exists, List.find?_isSome]
      exact ⟨r, hr, by simp [hid]⟩
    have hxid : a.node_id x = t.1 := by simpa using List.find?_some hx
    rw [hx, hv.eq_of_node_id (List.mem_of_find?_eq_some hx) hr (hxid.trans hid)]
  have hrun : (trimmed t (s, e) = (s, e) ∧ truncate t a = .ok () a) ∨
      truncate t a = reallocate r (trimmed t (s, e)).1 (trimmed t (s, e)).2 a := by
    unfold truncate
    rw [get_bind, hfind]
    dsimp only
    rw [hs, he]
    dsimp only
    obtain ⟨id, l, kind⟩ := t
    cases kind with
    | tail =>
      dsimp only [trimmed]
      by_cases hl : l < e
      · rw [if_pos hl, min_eq_right hl.le]
        exact Or.inr rfl
      · rw [if_neg hl, min_eq_left (not_lt.mp hl)]
        exact Or.inl ⟨rfl, rfl⟩
    | head =>
      dsimp only [trimmed]
      by_cases hl : l > s
      · rw [if_pos hl, max_eq_right (le_of_lt hl)]
        exact Or.inr rfl
      · rw [if_neg hl, max_eq_left (not_lt.mp hl)]
        exact Or.inl ⟨rfl, rfl⟩
  rcases hrun with ⟨hsame, hrun⟩ | hrun
  · exact ⟨a, hrun, h, Moved.refl r a, hcuts.trimmed hid hs he rfl (by rw [hsame]; exact hs)
      (by rw [hsame]; exact he)⟩
  · obtain ⟨a', hrealloc, hkept, hmoved, hs', he'⟩ := reallocate.outcome h hr
      (hzero.trans hsle) (by omega : (trimmed t (s, e)).1 < (trimmed t (s, e)).2) (by omega)
    exact ⟨a', hrun.trans hrealloc, hkept, hmoved,
      hcuts.trimmed hid hs he (hmoved.alike.node_id r) hs' he'⟩

/-- What the truncations that are left will come to: the nodes on the route are cut down to their
visits, and the others have their ranges. -/
structure Truncating (m : ModelInfo) (a₀ : Allocator) (route : List Nat) (turns : List Turn)
    (a : Allocator) : Prop where
  kept : WellKept m a
  origin : From a₀ a
  cuts : ∀ i r, a₀.nodes[i]? = some r → i ∈ route → CutsTo (a.store r) (first_visit route i) turns
  others : ∀ i r, a₀.nodes[i]? = some r → i ∉ route → a.store r = a₀.store r
  on_route : ∀ t ∈ turns, ∃ i ∈ route, ∃ r, a₀.nodes[i]? = some r ∧ t.1 = a₀.node_id r

theorem Truncating.step {route : List Nat} {t : Turn} {turns : List Turn}
    (h : Truncating m a₀ route (t :: turns) a) :
    ∃ a', truncate t a = .ok () a' ∧ Truncating m a₀ route turns a' := by
  obtain ⟨i, hi, r, hr, hid⟩ := h.on_route t List.mem_cons_self
  have hmem : r ∈ a.nodes := by
    rw [h.origin.nodes]
    exact List.mem_of_getElem? hr
  obtain ⟨a', hrun, hkept, hmoved, hcut⟩ := truncate.outcome h.kept hmem
    (hid.trans (h.origin.alike.node_id r).symm) (first_visit_lt hi) (h.cuts i r hr hi)
  -- Another index is another node with another id.
  have hother : ∀ j r', a₀.nodes[j]? = some r' → j ≠ i → r' ≠ r ∧ t.1 ≠ (a.store r').node_id := by
    intro j r' hr' hne
    have hnodup : a₀.nodes.Nodup := h.origin.nodes ▸ h.kept.bookkeeping.views.nodup
    have hrr : r' ≠ r := by
      rintro rfl
      have hlength := (List.getElem?_eq_some_iff.mp hr').1
      exact hne ((List.getElem?_inj hlength hnodup).mp (hr'.trans hr.symm))
    refine ⟨hrr, fun heq => hrr ?_⟩
    have hmem' : r' ∈ a.nodes := by
      rw [h.origin.nodes]
      exact List.mem_of_getElem? hr'
    refine h.kept.bookkeeping.views.eq_of_node_id hmem' hmem ?_
    exact heq.symm.trans (hid.trans (h.origin.alike.node_id r).symm)
  refine ⟨a', hrun, hkept, h.origin.moved hmoved, ?_, ?_,
    fun t' ht' => h.on_route t' (List.mem_cons_of_mem _ ht')⟩
  · intro j r' hr' hj
    by_cases hji : j = i
    · subst hji
      rw [hr] at hr'
      exact Option.some.inj hr' ▸ hcut
    · obtain ⟨hne, hid'⟩ := hother j r' hr' hji
      rw [hmoved.store r' hne]
      exact (h.cuts j r' hr' hj).other hid'
  · intro j r' hr' hj
    obtain ⟨hne, _⟩ := hother j r' hr' (fun heq => hj (heq ▸ hi))
    rw [hmoved.store r' hne]
    exact h.others j r' hr' hj

/-- All truncations return. -/
theorem Truncating.run {route : List Nat} {turns : List Turn} (h : Truncating m a₀ route turns a) :
    ∃ a', turns.forM truncate a = .ok () a' ∧ Truncating m a₀ route [] a' := by
  induction turns generalizing a with
  | nil => exact ⟨a, rfl, h⟩
  | cons t turns ih =>
    obtain ⟨a₁, hrun, h₁⟩ := h.step
    obtain ⟨a', hrest, h'⟩ := ih h₁
    exact ⟨a', (forM_cons_of_ok hrun).trans hrest, h'⟩

end truncations

/-! ## Turning points -/

theorem mem_count_turns {turns : List Turn} {agg_turns : Dict Turn Nat} {t : Turn} :
    t ∈ (count_turns turns agg_turns).keys ↔ t ∈ turns ∨ t ∈ agg_turns.keys := by
  induction turns generalizing agg_turns with
  | nil => simp [count_turns]
  | cons t' rest ih =>
    rw [count_turns, ih, Dict.mem_keys_insert, List.mem_cons, or_left_comm, or_assoc]

/-- Repeating the detection finds the same turning points. -/
theorem detect_turns.spec {nodes_list : List Node} {num_layers : Nat} {turns : List Turn}
    (h : find_turning_points nodes_list num_layers = .ok turns) (warmup_count : Nat)
    (agg_turns : Dict Turn Nat) :
    ∃ found, detect_turns nodes_list num_layers (warmup_count + 1) agg_turns = .ok found ∧
      ∀ t, t ∈ found.keys ↔ t ∈ turns ∨ t ∈ agg_turns.keys := by
  induction warmup_count generalizing agg_turns with
  | zero =>
    refine ⟨count_turns turns agg_turns, ?_, fun t => mem_count_turns⟩
    simp only [detect_turns, h, bind, Except.bind]
  | succ warmup_count ih =>
    obtain ⟨found, hrun, hkeys⟩ := ih (count_turns turns agg_turns)
    refine ⟨found, ?_, fun t => ?_⟩
    · rw [detect_turns, h]
      exact hrun
    · rw [hkeys, mem_count_turns, ← or_assoc, or_self]

/-! ## Coverage -/

/-- Every layer has a host, and there is a full pipeline. -/
def Covered (s : Scheduler) : Prop :=
  (∀ l : Nat, (l : Int) < s.num_layers → ∃ r ∈ s.nodes, (s.node r).hosts_layer l = true) ∧
    s.layer_allocator.has_full_pipeline false = true

section coverage

variable {m : ModelInfo} {a₀ a : Allocator} {route : List Nat}

theorem Truncating.spans_iff (h : Truncating m a₀ route [] a) {start_layer end_layer : Int} :
    a.Spans false start_layer end_layer ↔
      Remains (a₀.nodes.map a₀.store) route start_layer end_layer := by
  have hv := h.kept.bookkeeping.views
  have hnode : ∀ {i : Nat} {r}, a₀.nodes[i]? = some r →
      (a₀.nodes.map a₀.store)[i]? = some (a₀.store r) := by
    intro i r hr
    rw [List.getElem?_map, hr]
    rfl
  constructor
  · rintro ⟨id, r, hget, halloc, _⟩
    have hmem := h.kept.listed id r hget
    rw [h.origin.nodes] at hmem
    obtain ⟨i, hr⟩ := List.mem_iff_getElem?.mp hmem
    obtain ⟨hs, he⟩ := hv.ranges id r hget
    rw [halloc] at hs he
    refine ⟨i, a₀.store r, hnode hr, ?_⟩
    by_cases hi : i ∈ route
    · obtain ⟨hs', he'⟩ := (h.cuts i r hr hi).done
      rw [hs] at hs'
      rw [he] at he'
      exact Or.inl ⟨hi, Option.some.inj hs', Option.some.inj he'⟩
    · rw [h.others i r hr hi] at hs he
      exact Or.inr ⟨hi, hs, he⟩
  · rintro ⟨i, n, hn, hrange⟩
    rw [List.getElem?_map] at hn
    obtain ⟨r, hr, rfl⟩ := Option.map_eq_some_iff.mp hn
    have hmem : r ∈ a.nodes := by
      rw [h.origin.nodes]
      exact List.mem_of_getElem? hr
    have hget := hv.listed r hmem
    refine ⟨a.node_id r, r, hget, hv.allocation_of_range hget ?_ ?_, nofun⟩
    · rcases hrange with ⟨hi, rfl, rfl⟩ | ⟨hi, hs, he⟩
      · exact (h.cuts i r hr hi).done.1
      · rw [h.others i r hr hi]
        exact hs
    · rcases hrange with ⟨hi, rfl, rfl⟩ | ⟨hi, hs, he⟩
      · exact (h.cuts i r hr hi).done.2
      · rw [h.others i r hr hi]
        exact he

/-- A chain hosts each of its layers. -/
theorem hosted_of_chain {a : Allocator} (h : WellKept m a) {s e : Int} (hchain : a.Chain false s e)
    {l : Int} (hs : s ≤ l) (he : l < e) : ∃ r ∈ a.nodes, (a.store r).hosts_layer l = true := by
  induction hchain with
  | refl => omega
  | @tail b e hchain hspan ih =>
    by_cases hb : l < b
    · exact ih hb
    · obtain ⟨id, r, hget, halloc, _⟩ := hspan
      obtain ⟨hstart, hend⟩ := h.bookkeeping.views.ranges id r hget
      rw [halloc] at hstart hend
      exact ⟨r, h.listed id r hget, hosts_layer_iff.mpr ⟨b, e, hstart, hend, by omega, he⟩⟩

/-- After all truncations the layers are covered when the ranges that stay lead over them. -/
theorem Truncating.covered_iff {s s' : Scheduler}
    (h : Truncating m s.layer_allocator route [] s'.layer_allocator) (hlayers : 0 < m.num_layers) :
    Covered s' ↔ StaysCovered s.node_values m.num_layers route := by
  have hN : s'.layer_allocator.num_total_layers = m.num_layers := by
    unfold num_total_layers
    rw [h.kept.bookkeeping.model_info]
  have hchain : s'.layer_allocator.Chain false 0 m.num_layers ↔
      StaysCovered s.node_values m.num_layers route :=
    iff_of_eq (congrArg (fun R => Relation.ReflTransGen R 0 (m.num_layers : Int))
      (funext fun _ => funext fun _ => propext h.spans_iff))
  have hfull : s'.layer_allocator.has_full_pipeline false = true ↔ _ :=
    has_full_pipeline_iff h.kept.bookkeeping.views
  rw [hN] at hfull
  constructor
  · rintro ⟨_, hpipeline⟩
    exact hchain.mp (hfull.mp hpipeline).2
  · intro hstays
    refine ⟨fun l hl => ?_, hfull.mpr ⟨by omega, hchain.mpr hstays⟩⟩
    have hl' : (l : Int) < s'.layer_allocator.num_total_layers := hl
    rw [hN] at hl'
    exact hosted_of_chain h.kept (hchain.mpr hstays) (by omega) hl'

section values

variable {s : Scheduler}

theorem node_values_get {i : Nat} {n : Node} : s.node_values[i]? = some n ↔
    ∃ r, s.nodes[i]? = some r ∧ n = s.node r := by
  unfold Scheduler.node_values
  rw [List.getElem?_map, Option.map_eq_some_iff]
  exact exists_congr fun r => and_congr_right fun _ => eq_comm

theorem WellKept.ids (h : WellKept m s.layer_allocator) : (s.node_values.map Node.node_id).Nodup := by
  have hmap : s.node_values.map Node.node_id = s.nodes.map s.layer_allocator.node_id := by
    unfold Scheduler.node_values
    rw [List.map_map]
    rfl
  rw [hmap]
  exact h.bookkeeping.views.ids_nodup h.bookkeeping.views.nodup (fun _ hr => hr)

theorem WellKept.inside (h : WellKept m s.layer_allocator) :
    ∀ n ∈ s.node_values, ∀ e, n.end_layer = some e → e ≤ m.num_layers := by
  intro n hn e he
  obtain ⟨r, hr, rfl⟩ := List.mem_map.mp hn
  have hend := (h.bookkeeping.views.ranges _ r (h.bookkeeping.views.listed r hr)).2
  have he' : (s.layer_allocator.store r).end_layer = some e := he
  rw [he'] at hend
  obtain ⟨⟨s', e'⟩, halloc, rfl⟩ := Option.map_eq_some_iff.mp hend.symm
  exact (h.bookkeeping.inside _ _ _ halloc).2

/-- The turning points of the fastest route are those of the truncations. -/
theorem truncating_start (h : WellKept m s.layer_allocator)
    (hway : Way s.node_values m.num_layers route.reverse) {turns : List Turn}
    (hturns : ∀ t, t ∈ turns ↔ t ∈ turns_of s.node_values route) :
    Truncating m s.layer_allocator route turns s.layer_allocator := by
  refine ⟨h, From.refl _, ?_, fun _ _ _ _ => rfl, ?_⟩
  · intro i r hr hi
    have hcuts := turns_of.spec h.ids h.inside hway hi (node_values_get.mpr ⟨r, hr, rfl⟩)
    refine ⟨?_, fun t ht => hcuts.within t ((hturns t).mp ht)⟩
    simp only [hturns]
    exact hcuts.holds
  · intro t ht
    obtain ⟨i, hi, n, hn, hid⟩ := turns_on_route ((hturns t).mp ht)
    obtain ⟨r, hr, rfl⟩ := node_values_get.mp hn
    exact ⟨i, hi, r, hr, hid⟩

/-- The warm-up returns, and has cut the nodes of the fastest route down to their visits. -/
theorem run_warmup_and_truncate.outcome (h : WellKept m s.layer_allocator) (T : Timed s.node_values)
    (hlayers : 0 < m.num_layers)
    (hosted : ∀ l < m.num_layers, ∃ r ∈ s.nodes, (s.node r).hosts_layer (l : Nat) = true)
    {override_warmup_count : Nat}
    (hwarm : 0 < override_warmup_count ∨ 0 < s.request_warm_up_for_reshard) :
    ∃ route s', Fastest s.node_values m.num_layers route ∧
      run_warmup_and_truncate override_warmup_count s = .ok () s' ∧
        Truncating m s.layer_allocator route [] s'.layer_allocator := by
  have hhosts : ∀ l < m.num_layers, ∃ i, Hosts s.node_values l i := by
    intro l hl
    obtain ⟨r, hr, hosts⟩ := hosted l hl
    obtain ⟨i, hi⟩ := List.mem_iff_getElem?.mp hr
    exact ⟨i, s.node r, node_values_get.mpr ⟨r, hi, rfl⟩, hosts⟩
  obtain ⟨route, hroute, hfastest⟩ := layer_route.spec T hlayers hhosts
  have hturns : find_turning_points s.node_values m.num_layers =
      .ok (turns_of s.node_values route) := by
    unfold find_turning_points
    rw [hroute]
    rfl
  obtain ⟨r, hr, _⟩ := hosted 0 hlayers
  have hnonempty : ¬ s.nodes.isEmpty = true := by
    rw [List.isEmpty_iff]
    exact List.ne_nil_of_mem hr
  obtain ⟨count, hcount⟩ : ∃ count, (if override_warmup_count > 0 then override_warmup_count
      else s.request_warm_up_for_reshard) = count + 1 := by
    apply Nat.exists_eq_succ_of_ne_zero
    split
    · omega
    · omega
  obtain ⟨found, hdetect, hkeys⟩ := detect_turns.spec hturns count .empty
  have hmem : ∀ t, t ∈ found.keys ↔ t ∈ turns_of s.node_values route :=
    fun t => (hkeys t).trans (or_iff_left (by simp [Dict.keys, Dict.empty]))
  obtain ⟨a', hrun, hdone⟩ := (truncating_start h hfastest.way hmem).run
  refine ⟨route, { s with layer_allocator := a' }, hfastest, ?_, hdone⟩
  have hmodel : s.model_info.num_layers = m.num_layers := by
    unfold Scheduler.model_info
    rw [h.bookkeeping.model_info]
  unfold run_warmup_and_truncate
  rw [get_bind, if_neg hnonempty, hcount, hmodel, hdetect]
  show on_allocator (found.keys.forM truncate) s = _
  unfold on_allocator
  rw [hrun]

end values

/-! ## A slow node and a fast one -/

/-- The fast node saves nine milliseconds on a layer, and it is one millisecond away. -/
def slow_and_fast (r : Ref) : Node :=
  { a100_80g (build_model_info 3) (if r = 0 then "a" else "b") with
    avg_layer_latency_ms := some (if r = 0 then (10 : Rat) else (1 : Rat))
    rtt_to_nodes := some [(if r = 0 then "b" else "a", ((1 : Rat) : Latency))]
    force_max_concurrent_requests := true }

/-- The allocator after the two nodes have got their ranges. -/
def two_ranges (slow fast : Int × Int) : Allocator :=
  (Call.reallocate 1 fast.1 fast.2).after
    ((Call.reallocate 0 slow.1 slow.2).after (pool slow_and_fast (build_model_info 3) 2))

def slow_fast_scheduler (slow fast : Int × Int) : Scheduler :=
  { Scheduler.init slow_and_fast (build_model_info 3) [0, 1] 3 .dp (.rr .init) ⊤ 40 1 60 with
    layer_allocator := two_ranges slow fast }

theorem timed_of_finite {nodes : List Node}
    (hlatency : ∀ n ∈ nodes, n.layer_latency_ms = .ok (latency_of n) ∧ latency_of n ≠ ⊤)
    (hrtt : ∀ n ∈ nodes, ∀ m ∈ nodes, n.get_rtt_to m ≠ ⊤) : Timed nodes := by
  refine ⟨fun n hn => ?_, hrtt⟩
  obtain ⟨hrun, hfinite⟩ := hlatency n hn
  obtain ⟨x, hx⟩ := WithTop.ne_top_iff_exists.mp hfinite
  exact ⟨x, hx ▸ hrun⟩

theorem two_halves_kept : WellKept (build_model_info 3) (two_ranges (0, 2) (1, 3)) where
  bookkeeping := bookkeeping_agrees_after_any_calls (by decide) (by decide)
    (.call (.call .start ⟨by unfold Usable; decide +kernel, by decide +kernel⟩)
      ⟨by unfold Usable; decide +kernel, by decide +kernel⟩)
  listed := by
    intro id r hr
    have hall : ∀ x ∈ (two_ranges (0, 2) (1, 3)).node_id_to_node.items,
        x.2 ∈ (two_ranges (0, 2) (1, 3)).nodes := by
      decide +kernel
    exact hall (id, r) (Dict.get?_eq_some.mp hr)

end coverage

end scheduling.scheduler
