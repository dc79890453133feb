-- The router over ranges is exact. Every vertex that a chain can come from
-- starts before the one it leads to, so the sorted pass uses final costs only,
-- and the parents lead back along a chain of exactly the cost that is reported.
import InferenceMesh.Scheduling.Chains

open ordered_dict python
open scheduling.node

namespace scheduling.request_routing

/-- A chain that serves a request: active nodes of the list whose ranges tile all layers. -/
def ActiveChain (nodes : List Node) (num_layers : Int) (chain : List Node) : Prop :=
  (∀ n ∈ chain, n ∈ nodes ∧ n.is_active = true) ∧ Tiles 0 chain num_layers

namespace DynamicProgrammingRouting

/-! ## Vertices -/

theorem mem_vertices {nodes : List Node} {v : Vertex} : v ∈ vertices nodes ↔
    nodes[v.index]? = some v.node ∧ v.node.start_layer = some v.start_layer ∧
      v.node.end_layer = some v.end_layer := by
  unfold vertices
  rw [List.mem_filterMap]
  constructor
  · rintro ⟨⟨n, i⟩, hmem, hx⟩
    have hi := List.mem_zipIdx_iff_getElem?.mp hmem
    rcases hs : n.start_layer with _ | s
    · simp [hs] at hx
    · rcases he : n.end_layer with _ | e
      · simp [hs, he] at hx
      · simp only [hs, he, Option.some.injEq] at hx
        subst hx
        exact ⟨hi, hs, he⟩
  · rintro ⟨hi, hs, he⟩
    refine ⟨(v.node, v.index), List.mem_zipIdx_iff_getElem?.mpr hi, ?_⟩
    simp only [hs, he]

theorem mem_active_vertices {nodes : List Node} {v : Vertex} :
    v ∈ active_vertices nodes ↔ v ∈ vertices nodes ∧ v.node.is_active = true := by
  unfold active_vertices
  rw [List.mem_filter]

/-- A vertex is known by its index. -/
theorem vertex_ext {nodes : List Node} {v w : Vertex} (hv : v ∈ vertices nodes)
    (hw : w ∈ vertices nodes) (h : v.index = w.index) : v = w := by
  obtain ⟨hi, hs, he⟩ := mem_vertices.mp hv
  obtain ⟨hi', hs', he'⟩ := mem_vertices.mp hw
  have hnode : v.node = w.node := by
    rw [h, hi'] at hi
    exact (Option.some.inj hi).symm
  have hstart : v.start_layer = w.start_layer := by
    rw [hnode, hs'] at hs
    exact (Option.some.inj hs).symm
  have hend : v.end_layer = w.end_layer := by
    rw [hnode, he'] at he
    exact (Option.some.inj he).symm
  cases v
  cases w
  simp_all

/-! ## Routes -/

/-- Active vertices whose ranges follow each other from the first layer on, the last one first. -/
inductive Route (active : List Vertex) : List Vertex → Prop
  | first {v : Vertex} : v ∈ active → v.start_layer = 0 → Route active [v]
  | step {v w : Vertex} {rest : List Vertex} : Route active (w :: rest) → v ∈ active →
    w.end_layer = v.start_layer → Route active (v :: w :: rest)

def route_cost (latency : Node → Latency) : List Vertex → Latency
  | [] => 0
  | [v] => latency v.node
  | v :: w :: rest =>
    route_cost latency (w :: rest) + w.node.get_rtt_to v.node + latency v.node

/-- The parents lead back along the route. -/
def Follows (parent : Dict Nat Nat) : List Vertex → Prop
  | [] => True
  | [v] => parent.get? v.index = none
  | v :: w :: rest => parent.get? v.index = some w.index ∧ Follows parent (w :: rest)

theorem Route.mem {active : List Vertex} {route : List Vertex} (h : Route active route) :
    ∀ v ∈ route, v ∈ active := by
  induction h with
  | first hv _ =>
    intro w hw
    rw [List.mem_singleton.mp hw]
    exact hv
  | step _ hv _ ih =>
    intro x hx
    rcases List.mem_cons.mp hx with rfl | hx
    · exact hv
    · exact ih x hx

/-- Other entries do not matter to a route. -/
theorem Follows.congr {parent parent' : Dict Nat Nat} {route : List Vertex}
    (h : Follows parent route)
    (hsame : ∀ v ∈ route, parent'.get? v.index = parent.get? v.index) : Follows parent' route := by
  induction route with
  | nil => exact h
  | cons v rest ih =>
    cases rest with
    | nil => exact (hsame v List.mem_cons_self).trans h
    | cons w rest =>
      exact ⟨(hsame v List.mem_cons_self).trans h.1,
        ih h.2 (fun x hx => hsame x (List.mem_cons_of_mem _ hx))⟩

/-- Following the parents gives back the route. -/
theorem reconstruct.spec {parent : Dict Nat Nat} {v : Vertex} {rest : List Vertex} {fuel : Nat}
    (path : List Nat) (h : Follows parent (v :: rest)) (hfuel : rest.length < fuel) :
    reconstruct parent fuel v.index path = ((v :: rest).map Vertex.index).reverse ++ path := by
  induction rest generalizing v fuel path with
  | nil =>
    obtain ⟨fuel, rfl⟩ := Nat.exists_eq_succ_of_ne_zero (by omega : fuel ≠ 0)
    have hnone : parent.get? v.index = none := h
    simp [reconstruct, hnone]
  | cons w rest ih =>
    obtain ⟨fuel, rfl⟩ := Nat.exists_eq_succ_of_ne_zero (by omega : fuel ≠ 0)
    have hlen : rest.length < fuel := by
      rw [List.length_cons] at hfuel
      omega
    simp only [reconstruct, h.1, ih (v.index :: path) h.2 hlen]
    simp

/-! ## One vertex -/

theorem cost_eq {t t' : Table} {i : Nat} (h : t'.dp.get? i = t.dp.get? i) : t'.cost i = t.cost i := by
  unfold Table.cost
  rw [h]

/-- A vertex takes the best of its cost and the costs over the given vertices. -/
theorem relax_vertex.spec {latency : Node → Latency} {v : Vertex} {l : List Vertex} {t t' : Table}
    (hrun : relax_vertex v l t = .ok t')
    (hlatency : ∀ x, v.node.layer_latency_ms = .ok x → x = latency v.node)
    (hother : ∀ w ∈ l, w.index ≠ v.index ∧ w.node.node_id ≠ v.node.node_id) :
    (∀ i, i ≠ v.index → t'.dp.get? i = t.dp.get? i ∧ t'.parent.get? i = t.parent.get? i) ∧
      t'.cost v.index ≤ t.cost v.index ∧
      (∀ w ∈ l, t'.cost v.index ≤
        t.cost w.index + w.node.get_rtt_to v.node + latency v.node) ∧
      (t'.dp.get? v.index = t.dp.get? v.index ∧ t'.parent.get? v.index = t.parent.get? v.index ∨
        ∃ w ∈ l, t'.cost v.index =
            t.cost w.index + w.node.get_rtt_to v.node + latency v.node ∧
          t.cost w.index ≠ ⊤ ∧ t'.parent.get? v.index = some w.index) := by
  induction l generalizing t with
  | nil =>
    cases hrun
    exact ⟨fun i _ => ⟨rfl, rfl⟩, le_rfl, by simp, Or.inl ⟨rfl, rfl⟩⟩
  | cons w l ih =>
    obtain ⟨hindex, hid⟩ := hother w List.mem_cons_self
    have hother' : ∀ w ∈ l, w.index ≠ v.index ∧ w.node.node_id ≠ v.node.node_id :=
      fun x hx => hother x (List.mem_cons_of_mem _ hx)
    unfold relax_vertex at hrun
    by_cases htop : t.cost w.index = ⊤
    · rw [if_pos htop] at hrun
      obtain ⟨hframe, hle, hall, hcase⟩ := ih hrun hother'
      refine ⟨hframe, hle, ?_, ?_⟩
      · intro x hx
        rcases List.mem_cons.mp hx with rfl | hx
        · rw [htop, top_add, top_add]
          exact le_top
        · exact hall x hx
      · rcases hcase with h | ⟨x, hx, h⟩
        · exact Or.inl h
        · exact Or.inr ⟨x, List.mem_cons_of_mem _ hx, h⟩
    · rw [if_neg htop, if_neg hid] at hrun
      rcases hlat : v.node.layer_latency_ms with e | x
      · rw [hlat] at hrun
        cases hrun
      · rw [hlat, hlatency x hlat] at hrun
        simp only [bind, Except.bind] at hrun
        set cand := t.cost w.index + w.node.get_rtt_to v.node + latency v.node with hcand
        by_cases hlt : cand < t.cost v.index
        · rw [if_pos hlt] at hrun
          set t₁ : Table := ⟨t.dp.insert v.index cand, t.parent.insert v.index w.index⟩ with ht₁
          have hcost : t₁.cost v.index = cand := by
            simp [ht₁, Table.cost]
          have hframe₁ : ∀ i, i ≠ v.index →
              t₁.dp.get? i = t.dp.get? i ∧ t₁.parent.get? i = t.parent.get? i :=
            fun i hi => ⟨Dict.get?_insert_ne _ _ (Ne.symm hi), Dict.get?_insert_ne _ _ (Ne.symm hi)⟩
          have hsame : ∀ x ∈ l, t₁.cost x.index = t.cost x.index :=
            fun x hx => cost_eq (hframe₁ _ (hother' x hx).1).1
          obtain ⟨hframe, hle, hall, hcase⟩ := ih hrun hother'
          refine ⟨?_, ?_, ?_, ?_⟩
          · intro i hi
            exact ⟨(hframe i hi).1.trans (hframe₁ i hi).1, (hframe i hi).2.trans (hframe₁ i hi).2⟩
          · exact hle.trans (hcost.le.trans hlt.le)
          · intro x hx
            rcases List.mem_cons.mp hx with rfl | hx
            · exact hle.trans hcost.le
            · rw [← hsame x hx]
              exact hall x hx
          · right
            rcases hcase with ⟨hdp, hparent⟩ | ⟨x, hx, h⟩
            · refine ⟨w, List.mem_cons_self, (cost_eq hdp).trans hcost, htop, ?_⟩
              rw [hparent]
              exact Dict.get?_insert_self _ _ _
            · rw [hsame x hx] at h
              exact ⟨x, List.mem_cons_of_mem _ hx, h⟩
        · rw [if_neg hlt] at hrun
          obtain ⟨hframe, hle, hall, hcase⟩ := ih hrun hother'
          refine ⟨hframe, hle, ?_, ?_⟩
          · intro x hx
            rcases List.mem_cons.mp hx with rfl | hx
            · exact hle.trans (not_lt.mp hlt)
            · exact hall x hx
          · rcases hcase with h | ⟨x, hx, h⟩
            · exact Or.inl h
            · exact Or.inr ⟨x, List.mem_cons_of_mem _ hx, h⟩

theorem relax_vertex_returns {v : Vertex} {latency : Latency}
    (hlatency : v.node.layer_latency_ms = .ok latency) (l : List Vertex) (t : Table) :
    ∃ t', relax_vertex v l t = .ok t' := by
  induction l generalizing t with
  | nil => exact ⟨t, rfl⟩
  | cons w l ih =>
    unfold relax_vertex
    split
    · exact ih t
    · rw [hlatency]
      exact ih _

/-! ## The pass over all vertices -/

/-- What the router relies on: distinct ids, and no range that is empty. The function gives the
latencies, where the nodes have them. -/
structure Layout (nodes : List Node) (latency : Node → Latency) : Prop where
  ids : (nodes.map Node.node_id).Nodup
  ranges : Ascending nodes
  agrees : ∀ n ∈ nodes, n.is_allocated = true → ∀ x, n.layer_latency_ms = .ok x → x = latency n

section pass

variable {nodes : List Node} {num_layers : Int} {latency : Node → Latency}

theorem vertex_mem {v : Vertex} (hv : v ∈ vertices nodes) : v.node ∈ nodes :=
  List.mem_of_getElem? (mem_vertices.mp hv).1

theorem vertex_allocated {v : Vertex} (hv : v ∈ vertices nodes) : v.node.is_allocated = true := by
  obtain ⟨_, hs, he⟩ := mem_vertices.mp hv
  simp [Node.is_allocated, hs, he]

theorem Layout.latency_eq (L : Layout nodes latency) {v : Vertex}
    (hv : v ∈ vertices nodes) {x : Latency} (h : v.node.layer_latency_ms = .ok x) :
    x = latency v.node := L.agrees _ (vertex_mem hv) (vertex_allocated hv) x h

theorem Layout.range (L : Layout nodes latency) {v : Vertex} (hv : v ∈ vertices nodes) :
    v.start_layer < v.end_layer := by
  obtain ⟨_, hs, he⟩ := mem_vertices.mp hv
  exact L.ranges _ (vertex_mem hv) _ _ hs he

theorem Layout.id_ne (L : Layout nodes latency) {v w : Vertex}
    (hv : v ∈ vertices nodes) (hw : w ∈ vertices nodes) (h : v.index ≠ w.index) :
    v.node.node_id ≠ w.node.node_id := by
  intro heq
  apply h
  obtain ⟨hlt, hi⟩ := List.getElem?_eq_some_iff.mp (mem_vertices.mp hv).1
  obtain ⟨hlt', hi'⟩ := List.getElem?_eq_some_iff.mp (mem_vertices.mp hw).1
  have hv' : v.index < (nodes.map Node.node_id).length := by simpa using hlt
  have hw' : w.index < (nodes.map Node.node_id).length := by simpa using hlt'
  have hmap : (nodes.map Node.node_id)[v.index] = (nodes.map Node.node_id)[w.index] := by
    simp only [List.getElem_map, hi, hi', heq]
  exact (List.Nodup.getElem_inj_iff L.ids).mp hmap

/-- A vertex whose cost is final: no route to it costs less, and if its cost is finite then the
parents lead back along a route of that cost. -/
structure Settled (nodes : List Node) (latency : Node → Latency) (finished : List Vertex) (t : Table)
    (v : Vertex) : Prop where
  least : ∀ rest, Route (active_vertices nodes) (v :: rest) →
    t.cost v.index ≤ route_cost latency (v :: rest)
  found : t.cost v.index = ⊤ ∨ ∃ rest, Route (active_vertices nodes) (v :: rest) ∧
    t.cost v.index = route_cost latency (v :: rest) ∧ Follows t.parent (v :: rest) ∧
    ∀ w ∈ v :: rest, w ∈ finished

/-- The table behind the vertices that are finished. The others still have what they started
with. -/
structure Pass (nodes : List Node) (latency : Node → Latency) (finished : List Vertex) (t : Table) :
    Prop where
  settled : ∀ v ∈ finished, v ∈ active_vertices nodes → Settled nodes latency finished t v
  untouched : ∀ v ∈ vertices nodes, v ∉ finished →
    t.dp.get? v.index =
      (if v.node.is_active = true ∧ v.start_layer = 0 then some (latency v.node) else none) ∧
    t.parent.get? v.index = none

/-- A table that keeps the entries of the finished vertices keeps them settled. -/
theorem Settled.congr {finished finished' : List Vertex} {t t' : Table} {v : Vertex}
    (h : Settled nodes latency finished t v) (hsub : ∀ w ∈ finished, w ∈ finished')
    (hv : v ∈ finished)
    (hsame : ∀ w ∈ finished, t'.dp.get? w.index = t.dp.get? w.index ∧
      t'.parent.get? w.index = t.parent.get? w.index) :
    Settled nodes latency finished' t' v := by
  have hcost := cost_eq (hsame v hv).1
  constructor
  · intro rest hroute
    rw [hcost]
    exact h.least rest hroute
  · rw [hcost]
    rcases h.found with htop | ⟨rest, hroute, heq, hfollows, hmem⟩
    · exact Or.inl htop
    · exact Or.inr ⟨rest, hroute, heq, hfollows.congr (fun w hw => (hsame w (hmem w hw)).2),
        fun w hw => hsub w (hmem w hw)⟩

/-- A route to a vertex starts there, or comes from a vertex that ends where it starts. -/
theorem route_cons {active : List Vertex} {v : Vertex} {rest : List Vertex}
    (h : Route active (v :: rest)) :
    (rest = [] ∧ v.start_layer = 0) ∨
      ∃ w rest', rest = w :: rest' ∧ Route active (w :: rest') ∧ w.end_layer = v.start_layer := by
  cases h with
  | first _ hzero => exact Or.inl ⟨rfl, hzero⟩
  | step hrest _ hend => exact Or.inr ⟨_, _, rfl, hrest, hend⟩

/-- One vertex of the pass, when all vertices that end where it starts are finished. -/
theorem relax_vertex_pass (L : Layout nodes latency) {finished : List Vertex}
    {v : Vertex} {t t' : Table} (hpass : Pass nodes latency finished t) (hv : v ∈ vertices nodes)
    (hnew : v ∉ finished) (hall : ∀ w ∈ finished, w ∈ vertices nodes)
    (hbefore : ∀ w ∈ active_vertices nodes, w.end_layer = v.start_layer → w ∈ finished)
    (hrun : relax_vertex v
      ((active_vertices nodes).filter (fun w => w.end_layer = v.start_layer)) t = .ok t') :
    Pass nodes latency (finished ++ [v]) t' := by
  set preds := (active_vertices nodes).filter (fun w => w.end_layer = v.start_layer) with hpreds
  have hpred : ∀ w, w ∈ preds ↔ w ∈ active_vertices nodes ∧ w.end_layer = v.start_layer := by
    intro w
    rw [hpreds, List.mem_filter, decide_eq_true_eq]
  have hother : ∀ w ∈ vertices nodes, w ≠ v → w.index ≠ v.index :=
    fun w hw hne heq => hne (vertex_ext hw hv heq)
  have hne : ∀ w ∈ preds, w ≠ v := by
    rintro w hw rfl
    have hend := ((hpred w).mp hw).2
    have hrange := L.range hv
    omega
  have hvertex : ∀ w ∈ preds, w ∈ vertices nodes :=
    fun w hw => (mem_active_vertices.mp ((hpred w).mp hw).1).1
  obtain ⟨hframe, hle, hbest, hcase⟩ := relax_vertex.spec hrun (fun _ => L.latency_eq hv)
    (fun w hw => ⟨hother w (hvertex w hw) (hne w hw),
      L.id_ne (hvertex w hw) hv (hother w (hvertex w hw) (hne w hw))⟩)
  obtain ⟨hstart, hroot⟩ := hpass.untouched v hv hnew
  refine ⟨?_, ?_⟩
  · intro x hx hactive
    rcases List.mem_append.mp hx with hx | hx
    · -- A finished vertex keeps its entry.
      refine (hpass.settled x hx hactive).congr (fun w hw => List.mem_append_left _ hw) hx ?_
      intro w hw
      refine hframe _ (hother w (hall w hw) ?_)
      rintro rfl
      exact hnew hw
    · rw [List.mem_singleton.mp hx] at hactive ⊢
      have hisactive := (mem_active_vertices.mp hactive).2
      constructor
      · intro rest hroute
        rcases route_cons hroute with ⟨rfl, hzero⟩ | ⟨w, rest, rfl, hrest, hend⟩
        · rw [if_pos ⟨hisactive, hzero⟩] at hstart
          refine hle.trans (le_of_eq ?_)
          unfold Table.cost
          rw [hstart]
          rfl
        · have hw : w ∈ preds := (hpred w).mpr ⟨hrest.mem w List.mem_cons_self, hend⟩
          have hleast := (hpass.settled w (hbefore w ((hpred w).mp hw).1 hend)
            ((hpred w).mp hw).1).least rest hrest
          refine (hbest w hw).trans ?_
          unfold route_cost
          gcongr
      · rcases hcase with ⟨hdp, hparent⟩ | ⟨w, hw, hcost, hfinite, hparent⟩
        · by_cases hzero : v.start_layer = 0
          · right
            rw [if_pos ⟨hisactive, hzero⟩] at hstart
            refine ⟨[], Route.first hactive hzero, ?_, hparent.trans hroot, ?_⟩
            · rw [cost_eq hdp]
              unfold Table.cost
              rw [hstart]
              rfl
            · intro w hw
              exact List.mem_append_right _ hw
          · left
            rw [if_neg (fun h => hzero h.2)] at hstart
            rw [cost_eq hdp]
            unfold Table.cost
            rw [hstart]
            rfl
        · right
          obtain ⟨hwactive, hend⟩ := (hpred w).mp hw
          have hfinished := hbefore w hwactive hend
          rcases (hpass.settled w hfinished hwactive).found with htop |
            ⟨rest, hroute, heq, hfollows, hmem⟩
          · exact absurd htop hfinite
          · refine ⟨w :: rest, Route.step hroute hactive hend, ?_, ⟨hparent, ?_⟩, ?_⟩
            · rw [hcost, heq]
              rfl
            · apply hfollows.congr
              intro y hy
              refine (hframe _ (hother y (hall y (hmem y hy)) ?_)).2
              rintro rfl
              exact hnew (hmem y hy)
            · intro x hx
              rcases List.mem_cons.mp hx with rfl | hx
              · exact List.mem_append_right _ (List.mem_singleton_self x)
              · exact List.mem_append_left _ (hmem x hx)
  · intro x hx hxnew
    rw [List.mem_append, not_or, List.mem_singleton] at hxnew
    obtain ⟨hdp, hparent⟩ := hframe x.index (hother x hx hxnew.2)
    rw [hdp, hparent]
    exact hpass.untouched x hx hxnew.1

/-- The vertices of the list get their latencies, and the others stay as they are. -/
theorem initial_table.spec (L : Layout nodes latency) {l : List Vertex} {t t' : Table}
    (hrun : initial_table l t = .ok t') (hl : ∀ v ∈ l, v ∈ vertices nodes) :
    t'.parent = t.parent ∧ ∀ v ∈ vertices nodes,
      (v ∈ l → t'.dp.get? v.index = some (latency v.node)) ∧
      (v ∉ l → t'.dp.get? v.index = t.dp.get? v.index) := by
  induction l generalizing t with
  | nil =>
    cases hrun
    exact ⟨rfl, fun v _ => ⟨fun h => (by cases h), fun _ => rfl⟩⟩
  | cons w l ih =>
    unfold initial_table at hrun
    rcases hlat : w.node.layer_latency_ms with e | x
    · rw [hlat] at hrun
      cases hrun
    · rw [hlat, L.latency_eq (hl w List.mem_cons_self) hlat] at hrun
      obtain ⟨hparent, hget⟩ := ih (t := ⟨t.dp.insert w.index (latency w.node), t.parent⟩) hrun
        (fun v hv => hl v (List.mem_cons_of_mem _ hv))
      refine ⟨hparent, ?_⟩
      intro v hv
      obtain ⟨hin, hout⟩ := hget v hv
      have hother : v ≠ w → w.index ≠ v.index :=
        fun hne h => hne (vertex_ext hv (hl w List.mem_cons_self) h.symm)
      constructor
      · intro hmem
        by_cases hl' : v ∈ l
        · exact hin hl'
        · have heq : v = w := (List.mem_cons.mp hmem).resolve_right hl'
          rw [hout hl', heq]
          exact Dict.get?_insert_self _ _ _
      · intro hmem
        rw [List.mem_cons, not_or] at hmem
        rw [hout hmem.2]
        exact Dict.get?_insert_ne _ _ (hother hmem.1)

theorem vertices_nodup (nodes : List Node) : (vertices nodes).Nodup := by
  unfold vertices
  apply List.Nodup.filterMap
  · rintro ⟨n, i⟩ ⟨n', i'⟩ v hx hx'
    rw [Option.mem_def] at hx hx'
    split at hx
    · split at hx'
      · injection hx with hx
        injection hx' with hx'
        rw [← hx'] at hx
        injection hx with hindex _ _ hnode
        exact Prod.ext hnode hindex
      · cases hx'
    · cases hx
  · exact List.Nodup.of_map Prod.snd (by rw [List.zipIdx_map_snd]; exact List.nodup_range')

theorem sorted_vertices_perm (nodes : List Node) :
    (sorted_vertices nodes).Perm (vertices nodes) := List.perm_insertionSort _ _

theorem sorted_vertices_pairwise (nodes : List Node) :
    (sorted_vertices nodes).Pairwise (fun v w => v.start_layer ≤ w.start_layer) := by
  have : Std.Total (fun v w : Vertex => v.start_layer < w.start_layer ∨
      (v.start_layer = w.start_layer ∧ v.end_layer ≤ w.end_layer)) := ⟨fun v w => by omega⟩
  have : IsTrans Vertex (fun v w => v.start_layer < w.start_layer ∨
      (v.start_layer = w.start_layer ∧ v.end_layer ≤ w.end_layer)) :=
    ⟨fun u v w h h' => by omega⟩
  refine List.Pairwise.imp ?_ (List.pairwise_insertionSort (fun v w : Vertex =>
    v.start_layer < w.start_layer ∨
      (v.start_layer = w.start_layer ∧ v.end_layer ≤ w.end_layer)) (vertices nodes))
  intro v w h
  omega

/-- The pass settles all vertices. -/
theorem relax_all.spec (L : Layout nodes latency) (finished todo : List Vertex)
    {t t' : Table} (hsorted : sorted_vertices nodes = finished ++ todo)
    (hpass : Pass nodes latency finished t)
    (hrun : relax_all (active_vertices nodes) todo t = .ok t') :
    Pass nodes latency (sorted_vertices nodes) t' := by
  induction todo generalizing finished t with
  | nil =>
    rw [List.append_nil] at hsorted
    cases hrun
    exact hsorted ▸ hpass
  | cons v todo ih =>
    have hperm := sorted_vertices_perm nodes
    have hnodup : (sorted_vertices nodes).Nodup := hperm.nodup_iff.mpr (vertices_nodup nodes)
    have hpairwise := sorted_vertices_pairwise nodes
    rw [hsorted] at hnodup hpairwise
    have hmem : ∀ w, w ∈ finished ++ v :: todo ↔ w ∈ vertices nodes :=
      fun w => hsorted ▸ hperm.mem_iff
    have hnew : v ∉ finished :=
      fun h => (List.disjoint_of_nodup_append hnodup) h List.mem_cons_self
    have hbefore : ∀ w ∈ active_vertices nodes, w.end_layer = v.start_layer → w ∈ finished := by
      -- A vertex that ends where this one starts has started earlier.
      intro w hw hend
      have hrange := L.range (mem_active_vertices.mp hw).1
      rcases List.mem_append.mp ((hmem w).mpr (mem_active_vertices.mp hw).1) with h | h
      · exact h
      · exfalso
        rcases List.mem_cons.mp h with rfl | h
        · omega
        · have hle := (List.pairwise_cons.mp (List.pairwise_append.mp hpairwise).2.1).1 w h
          omega
    unfold relax_all at hrun
    rcases hstep : relax_vertex v
        ((active_vertices nodes).filter (fun w => w.end_layer = v.start_layer)) t with e | t₁
    · rw [hstep] at hrun
      cases hrun
    · rw [hstep] at hrun
      have hpass₁ := relax_vertex_pass L hpass ((hmem v).mp (by simp)) hnew
        (fun w hw => (hmem w).mp (List.mem_append_left _ hw)) hbefore hstep
      exact ih (finished ++ [v]) (by rw [hsorted]; simp) hpass₁ hrun

/-- The vertices that the router starts from. -/
theorem mem_first_vertices {v : Vertex} :
    v ∈ (active_vertices nodes).filter (fun v => v.start_layer = 0) ↔
      v ∈ vertices nodes ∧ v.node.is_active = true ∧ v.start_layer = 0 := by
  rw [List.mem_filter, mem_active_vertices, decide_eq_true_eq, and_assoc]

/-- The pass over the whole list ends with all vertices settled. -/
theorem whole_pass (L : Layout nodes latency) {t₀ t : Table}
    (hinit : initial_table ((active_vertices nodes).filter (fun v => v.start_layer = 0))
      ⟨.empty, .empty⟩ = .ok t₀)
    (hrun : relax_all (active_vertices nodes) (sorted_vertices nodes) t₀ = .ok t) :
    ∀ v ∈ active_vertices nodes, Settled nodes latency (sorted_vertices nodes) t v := by
  obtain ⟨hparent, hget⟩ := initial_table.spec L hinit (fun v hv => (mem_first_vertices.mp hv).1)
  have hpass : Pass nodes latency [] t₀ := by
    refine ⟨fun v hv => (by cases hv), ?_⟩
    intro v hv _
    rw [hparent]
    refine ⟨?_, rfl⟩
    by_cases h : v.node.is_active = true ∧ v.start_layer = 0
    · rw [if_pos h]
      exact (hget v hv).1 (mem_first_vertices.mpr ⟨hv, h⟩)
    · rw [if_neg h]
      exact (hget v hv).2 (fun hmem => h (mem_first_vertices.mp hmem).2)
  have hall := relax_all.spec L [] (sorted_vertices nodes) rfl hpass hrun
  intro v hv
  exact hall.settled v ((sorted_vertices_perm nodes).mem_iff.mpr (mem_active_vertices.mp hv).1) hv

/-- With a latency of each node that has a range, the pass returns. -/
theorem whole_pass_returns
    (hlatency : ∀ n ∈ nodes, n.is_allocated = true → ∃ x, n.layer_latency_ms = .ok x) :
    ∃ t₀ t, initial_table ((active_vertices nodes).filter (fun v => v.start_layer = 0))
        ⟨.empty, .empty⟩ = .ok t₀ ∧
      relax_all (active_vertices nodes) (sorted_vertices nodes) t₀ = .ok t := by
  have hknown : ∀ v ∈ vertices nodes, ∃ x, v.node.layer_latency_ms = .ok x :=
    fun v hv => hlatency _ (vertex_mem hv) (vertex_allocated hv)
  have hfirst : ∀ (l : List Vertex) (t : Table), (∀ v ∈ l, v ∈ vertices nodes) →
      ∃ t', initial_table l t = .ok t' := by
    intro l
    induction l with
    | nil => exact fun t _ => ⟨t, rfl⟩
    | cons w l ih =>
      intro t hl
      obtain ⟨x, hx⟩ := hknown w (hl w List.mem_cons_self)
      unfold initial_table
      rw [hx]
      exact ih _ (fun v hv => hl v (List.mem_cons_of_mem _ hv))
  have hall : ∀ (l : List Vertex) (t : Table), (∀ v ∈ l, v ∈ vertices nodes) →
      ∃ t', relax_all (active_vertices nodes) l t = .ok t' := by
    intro l
    induction l with
    | nil => exact fun t _ => ⟨t, rfl⟩
    | cons w l ih =>
      intro t hl
      obtain ⟨x, hx⟩ := hknown w (hl w List.mem_cons_self)
      obtain ⟨t₁, ht₁⟩ := relax_vertex_returns hx
        ((active_vertices nodes).filter (fun v => v.end_layer = w.start_layer)) t
      unfold relax_all
      rw [ht₁]
      exact ih t₁ (fun v hv => hl v (List.mem_cons_of_mem _ hv))
  obtain ⟨t₀, hinit⟩ := hfirst ((active_vertices nodes).filter (fun v => v.start_layer = 0))
    ⟨.empty, .empty⟩ (fun v hv => (mem_first_vertices.mp hv).1)
  obtain ⟨t, hrun⟩ := hall (sorted_vertices nodes) t₀
    (fun v hv => (sorted_vertices_perm nodes).mem_iff.mp hv)
  exact ⟨t₀, t, hinit, hrun⟩

/-! ## Routes and chains -/

/-- A route is a chain from the first layer to the end of its last range, of the same cost. -/
theorem Route.chain {v : Vertex} {rest : List Vertex}
    (h : Route (active_vertices nodes) (v :: rest)) :
    ActiveChain nodes v.end_layer (((v :: rest).map Vertex.node).reverse) ∧
      chain_cost latency (((v :: rest).map Vertex.node).reverse) =
        route_cost latency (v :: rest) := by
  have hmem : ∀ n ∈ ((v :: rest).map Vertex.node).reverse, n ∈ nodes ∧ n.is_active = true := by
    intro n hn
    rw [List.mem_reverse] at hn
    obtain ⟨w, hw, rfl⟩ := List.mem_map.mp hn
    obtain ⟨hvertex, hactive⟩ := mem_active_vertices.mp (h.mem w hw)
    exact ⟨vertex_mem hvertex, hactive⟩
  suffices hrest : Tiles 0 (((v :: rest).map Vertex.node).reverse) v.end_layer ∧
      chain_cost latency (((v :: rest).map Vertex.node).reverse) = route_cost latency (v :: rest) from
    ⟨⟨hmem, hrest.1⟩, hrest.2⟩
  clear hmem
  induction rest generalizing v with
  | nil =>
    obtain ⟨_, hs, he⟩ := mem_vertices.mp (mem_active_vertices.mp (h.mem v List.mem_cons_self)).1
    rcases route_cons h with ⟨_, hzero⟩ | ⟨w, rest, hcons, _⟩
    · rw [hzero] at hs
      exact ⟨tiles_cons.mpr ⟨hs, _, he, rfl⟩, rfl⟩
    · cases hcons
  | cons w rest ih =>
    obtain ⟨_, hs, he⟩ := mem_vertices.mp (mem_active_vertices.mp (h.mem v List.mem_cons_self)).1
    rcases route_cons h with ⟨hnil, _⟩ | ⟨w, rest, hcons, hroute, hend⟩
    · cases hnil
    · cases hcons
      obtain ⟨htiles, hcost⟩ := ih hroute
      have hsplit : ((v :: w :: rest).map Vertex.node).reverse =
          (rest.map Vertex.node).reverse ++ [w.node, v.node] := by simp
      have hsplit' : ((w :: rest).map Vertex.node).reverse =
          (rest.map Vertex.node).reverse ++ [w.node] := by simp
      constructor
      · rw [List.map_cons, List.reverse_cons]
        exact tiles_concat.mpr ⟨_, htiles, hend ▸ hs, he⟩
      · rw [hsplit, chain_cost_concat, ← hsplit', hcost]
        rfl

/-- Every chain comes from a route. -/
theorem route_of_chain {chain : List Node} {last : Int} (hne : chain ≠ [])
    (h : ActiveChain nodes last chain) :
    ∃ v rest, Route (active_vertices nodes) (v :: rest) ∧ v.end_layer = last ∧
      ((v :: rest).map Vertex.node).reverse = chain := by
  obtain ⟨hmem, htiles⟩ := h
  induction chain using List.reverseRecOn generalizing last with
  | nil => exact absurd rfl hne
  | append_singleton c n ih =>
    obtain ⟨s, hfront, hs, he⟩ := tiles_concat.mp htiles
    obtain ⟨hn, hactive⟩ := hmem n (by simp)
    obtain ⟨i, hi⟩ := List.mem_iff_getElem?.mp hn
    have hv : (⟨i, s, last, n⟩ : Vertex) ∈ active_vertices nodes :=
      mem_active_vertices.mpr ⟨mem_vertices.mpr ⟨hi, hs, he⟩, hactive⟩
    by_cases hnil : c = []
    · subst hnil
      have hzero : (0 : Int) = s := hfront
      exact ⟨⟨i, s, last, n⟩, [], Route.first hv hzero.symm, rfl, rfl⟩
    · obtain ⟨w, rest, hroute, hend, hmap⟩ :=
        ih hnil (fun m hm => hmem m (List.mem_append_left _ hm)) hfront
      refine ⟨⟨i, s, last, n⟩, w :: rest, Route.step hroute hv hend, rfl, ?_⟩
      rw [List.map_cons, List.reverse_cons, hmap]

/-- A route has no vertex twice, so it is no longer than the list of nodes. -/
theorem Route.length_le (L : Layout nodes latency) {route : List Vertex}
    (h : Route (active_vertices nodes) route) : route.length ≤ nodes.length := by
  have hbelow : ∀ v rest, Route (active_vertices nodes) (v :: rest) →
      (v :: rest).Nodup ∧ ∀ w ∈ v :: rest, w.start_layer ≤ v.start_layer := by
    intro v rest hroute
    induction rest generalizing v with
    | nil => exact ⟨List.nodup_singleton v, fun w hw => (List.mem_singleton.mp hw) ▸ le_rfl⟩
    | cons x rest ih =>
      rcases route_cons hroute with ⟨hnil, _⟩ | ⟨w, rest, hcons, hrest, hend⟩
      · cases hnil
      · cases hcons
        obtain ⟨hnodup, hle⟩ := ih x hrest
        have hrange := L.range (mem_active_vertices.mp (hrest.mem x List.mem_cons_self)).1
        refine ⟨List.nodup_cons.mpr ⟨?_, hnodup⟩, ?_⟩
        · intro hv
          have hle' := hle v hv
          omega
        · intro w hw
          rcases List.mem_cons.mp hw with rfl | hw
          · exact le_rfl
          · have hle' := hle w hw
            omega
  rcases route with _ | ⟨v, rest⟩
  · exact Nat.zero_le _
  · have hsub := List.Nodup.subperm (hbelow v rest h).1
      (fun w hw => (mem_active_vertices.mp (h.mem w hw)).1)
    refine hsub.length_le.trans ?_
    unfold vertices
    exact (List.length_filterMap_le _ _).trans (by simp)

theorem best_terminal.spec (t : Table) (l : List Vertex) :
    (best_terminal t l = none ∧ l = []) ∨ ∃ v ∈ l, best_terminal t l = some v ∧
      ∀ w ∈ l, t.cost v.index ≤ t.cost w.index := by
  cases l with
  | nil => exact Or.inl ⟨rfl, rfl⟩
  | cons v rest =>
    right
    have hfold : ∀ (l : List Vertex) (best : Vertex),
        (l.foldl (fun best w => if t.cost w.index < t.cost best.index then w else best) best) ∈
          best :: l ∧
        ∀ w ∈ best :: l, t.cost (l.foldl (fun best w =>
          if t.cost w.index < t.cost best.index then w else best) best).index ≤ t.cost w.index := by
      intro l
      induction l with
      | nil =>
        intro best
        exact ⟨List.mem_cons_self, fun w hw => (List.mem_singleton.mp hw) ▸ le_rfl⟩
      | cons x l ih =>
        intro best
        rw [List.foldl_cons]
        by_cases hlt : t.cost x.index < t.cost best.index
        · rw [if_pos hlt]
          obtain ⟨hmem, hle⟩ := ih x
          refine ⟨List.mem_cons_of_mem _ hmem, ?_⟩
          intro w hw
          rcases List.mem_cons.mp hw with rfl | hw
          · exact (hle x List.mem_cons_self).trans hlt.le
          · exact hle w hw
        · rw [if_neg hlt]
          obtain ⟨hmem, hle⟩ := ih best
          constructor
          · rcases List.mem_cons.mp hmem with h | h
            · rw [h]
              exact List.mem_cons_self
            · exact List.mem_cons_of_mem _ (List.mem_cons_of_mem _ h)
          · intro w hw
            rcases List.mem_cons.mp hw with rfl | hw
            · exact hle w List.mem_cons_self
            · rcases List.mem_cons.mp hw with rfl | hw
              · exact (hle best List.mem_cons_self).trans (not_lt.mp hlt)
              · exact hle w (List.mem_cons_of_mem _ hw)
    obtain ⟨hmem, hle⟩ := hfold rest v
    exact ⟨_, hmem, rfl, hle⟩

/-- What the router returns: nothing when no chain has a finite cost, and otherwise a chain of the
least cost, with that cost. -/
theorem find_optimal_path.spec (L : Layout nodes latency) (hlayers : 1 ≤ num_layers)
    (hnodes : nodes ≠ []) {found : List String × Latency}
    (hfound : find_optimal_path nodes num_layers = .ok found) :
    (found = ([], ⊤) ∧
        ∀ chain, ActiveChain nodes num_layers chain → chain_cost latency chain = ⊤) ∨
      ∃ chain, ActiveChain nodes num_layers chain ∧ chain_cost latency chain ≠ ⊤ ∧
        found = (chain.map Node.node_id, chain_cost latency chain) ∧
        ∀ other, ActiveChain nodes num_layers other →
          chain_cost latency chain ≤ chain_cost latency other := by
  have hguard : ¬ (num_layers ≤ 0 ∨ nodes = []) := by
    rw [not_or]
    exact ⟨by omega, hnodes⟩
  unfold find_optimal_path at hfound
  rw [if_neg hguard] at hfound
  dsimp only at hfound
  rcases hinit : initial_table ((active_vertices nodes).filter (fun v => v.start_layer = 0))
      ⟨.empty, .empty⟩ with e | t₀
  · rw [hinit] at hfound
    cases hfound
  rw [hinit] at hfound
  rcases hrun : relax_all (active_vertices nodes) (sorted_vertices nodes) t₀ with e | t
  · simp only [bind, Except.bind, hrun] at hfound
    cases hfound
  simp only [bind, Except.bind, hrun] at hfound
  have hsettled := whole_pass L hinit hrun
  have hterminal : ∀ v, v ∈ (active_vertices nodes).filter (fun v => v.end_layer = num_layers) ↔
      v ∈ active_vertices nodes ∧ v.end_layer = num_layers := by
    intro v
    rw [List.mem_filter, decide_eq_true_eq]
  have hroute : ∀ chain, ActiveChain nodes num_layers chain →
      ∃ v ∈ (active_vertices nodes).filter (fun v => v.end_layer = num_layers),
        t.cost v.index ≤ chain_cost latency chain := by
    intro chain hchain
    have hne : chain ≠ [] := by
      rintro rfl
      have hzero : (0 : Int) = num_layers := hchain.2
      omega
    obtain ⟨v, rest, hroute, hend, rfl⟩ := route_of_chain hne hchain
    have hv := hroute.mem v List.mem_cons_self
    refine ⟨v, (hterminal v).mpr ⟨hv, hend⟩, ?_⟩
    rw [(Route.chain hroute).2]
    exact (hsettled v hv).least rest hroute
  rcases best_terminal.spec t ((active_vertices nodes).filter (fun v => v.end_layer = num_layers))
    with ⟨hnone, hnil⟩ | ⟨v, hv, hbest, hleast⟩
  · left
    rw [hnone] at hfound
    refine ⟨(Except.ok.inj hfound).symm, ?_⟩
    intro chain hchain
    obtain ⟨v, hv, _⟩ := hroute chain hchain
    rw [hnil] at hv
    cases hv
  · rw [hbest] at hfound
    dsimp only at hfound
    obtain ⟨hactive, hend⟩ := (hterminal v).mp hv
    have hmin : ∀ chain, ActiveChain nodes num_layers chain →
        t.cost v.index ≤ chain_cost latency chain := by
      intro chain hchain
      obtain ⟨w, hw, hle⟩ := hroute chain hchain
      exact (hleast w hw).trans hle
    by_cases htop : t.cost v.index = ⊤
    · left
      rw [if_pos htop] at hfound
      refine ⟨(Except.ok.inj hfound).symm, ?_⟩
      intro chain hchain
      rw [htop] at hmin
      exact top_le_iff.mp (hmin chain hchain)
    · right
      obtain ⟨rest, hr, hcost, hfollows, _⟩ := (hsettled v hactive).found.resolve_left htop
      rw [if_neg htop] at hfound
      obtain ⟨hchain, hchaincost⟩ := Route.chain hr
      rw [hend] at hchain
      have hlen := Route.length_le L hr
      rw [List.length_cons] at hlen
      refine ⟨_, hchain, ?_, ?_, ?_⟩
      · rw [hchaincost, ← hcost]
        exact htop
      · rw [reconstruct.spec [] hfollows (by omega), List.append_nil] at hfound
        have hids : (((v :: rest).map Vertex.index).reverse).filterMap
            (fun i => (nodes[i]?).map Node.node_id) =
              (((v :: rest).map Vertex.node).reverse).map Node.node_id := by
          rw [← List.map_reverse, ← List.map_reverse, List.filterMap_map, List.map_map,
            ← List.filterMap_eq_map]
          apply List.filterMap_congr
          intro w hw
          have hvertex := (mem_active_vertices.mp (hr.mem w (List.mem_reverse.mp hw))).1
          simp [(mem_vertices.mp hvertex).1]
        rw [hids] at hfound
        rw [hchaincost, ← hcost]
        exact (Except.ok.inj hfound).symm
      · intro other hother
        rw [hchaincost, ← hcost]
        exact hmin other hother

theorem find_optimal_path_returns
    (hlatency : ∀ n ∈ nodes, n.is_allocated = true → ∃ x, n.layer_latency_ms = .ok x) :
    ∃ found, find_optimal_path nodes num_layers = .ok found := by
  obtain ⟨t₀, t, hinit, hrun⟩ := whole_pass_returns hlatency
  unfold find_optimal_path
  split
  · exact ⟨_, rfl⟩
  · dsimp only
    rw [hinit]
    simp only [bind, Except.bind, hrun]
    split
    · exact ⟨_, rfl⟩
    · split
      · exact ⟨_, rfl⟩
      · exact ⟨_, rfl⟩

end pass

/-- The router over ranges returns nothing exactly when no chain has a finite cost. Otherwise it
returns a chain of the least cost, and reports the sum of its latencies and hops. -/
theorem dp_router_is_exact {nodes : List Node} {num_layers : Int} {latency : Node → Latency}
    (hlayers : 1 ≤ num_layers) (hnodes : nodes ≠ []) (hids : (nodes.map Node.node_id).Nodup)
    (hranges : Ascending nodes)
    (hlatency : ∀ n ∈ nodes, n.is_allocated = true → n.layer_latency_ms = .ok (latency n)) :
    (find_optimal_path nodes num_layers = .ok ([], ⊤) ↔
        ∀ chain, ActiveChain nodes num_layers chain → chain_cost latency chain = ⊤) ∧
      (find_optimal_path nodes num_layers ≠ .ok ([], ⊤) →
        ∃ chain, ActiveChain nodes num_layers chain ∧ chain_cost latency chain ≠ ⊤ ∧
          find_optimal_path nodes num_layers =
            .ok (chain.map Node.node_id, chain_cost latency chain) ∧
          ∀ other, ActiveChain nodes num_layers other →
            chain_cost latency chain ≤ chain_cost latency other) := by
  obtain ⟨found, hfound⟩ := find_optimal_path_returns
    (fun n hn hn' => ⟨_, hlatency n hn hn'⟩)
  have L : Layout nodes latency := by
    refine ⟨hids, hranges, ?_⟩
    intro n hn hn' x hx
    rw [hlatency n hn hn'] at hx
    exact (Except.ok.inj hx).symm
  rcases find_optimal_path.spec L hlayers hnodes hfound with ⟨rfl, hall⟩ |
    ⟨chain, hchain, hfinite, rfl, hleast⟩
  · exact ⟨⟨fun _ => hall, fun _ => hfound⟩, fun h => absurd hfound h⟩
  · refine ⟨⟨?_, fun hall => absurd (hall chain hchain) hfinite⟩,
      fun _ => ⟨chain, hchain, hfinite, hfound, hleast⟩⟩
    intro hnone
    rw [hfound] at hnone
    exact absurd (Prod.mk.inj (Except.ok.inj hnone)).2 hfinite

/-- Two halves of the model that are far apart, and a slow node that has all of it. -/
def split_and_whole : List Node :=
  [serving_node "first" 0 2 5 [("second", (20 : Rat))], serving_node "second" 2 4 5 [],
    serving_node "whole" 0 4 12 []]

theorem whole_node_is_shortest :
    ∃ chain, ActiveChain split_and_whole 4 chain ∧ chain_cost latency_of chain ≠ ⊤ ∧
      find_optimal_path split_and_whole 4 =
        .ok (chain.map Node.node_id, chain_cost latency_of chain) ∧
      ∀ other, ActiveChain split_and_whole 4 other →
        chain_cost latency_of chain ≤ chain_cost latency_of other := by
  have hranges : Ascending split_and_whole := by
    intro n hn s e hs he
    fin_cases hn <;> cases hs <;> cases he <;> decide
  have hknown : ∀ n ∈ split_and_whole, n.is_allocated = true →
      n.layer_latency_ms = .ok (latency_of n) := by
    decide +kernel
  exact (dp_router_is_exact (by decide) (by decide) (by decide +kernel) hranges hknown).2
    (by decide +kernel)

end DynamicProgrammingRouting

end scheduling.request_routing
