-- The layer-level search is exact: it returns the route over the hosts of the
-- layers that costs least, and among those the one whose nodes, read from the
-- last layer back, come first in the list.
import InferenceMesh.Lib.ExceptList
import InferenceMesh.Scheduling.CostAgreement
import Mathlib.Data.List.Lex
import Mathlib.Data.Prod.Lex

open scheduling.node python except_list

namespace scheduling.request_routing

/-! ## Ways -/

/-- The node of an index hosts the layer. -/
def Hosts (nodes : List Node) (layer_id i : Nat) : Prop :=
  ∃ n, nodes[i]? = some n ∧ n.hosts_layer layer_id = true

/-- A host for each of the first layers, the last layer first. -/
inductive Way (nodes : List Node) : Nat → List Nat → Prop
  | first {i : Nat} : Hosts nodes 0 i → Way nodes 1 [i]
  | step {num_layers i j : Nat} {rest : List Nat} : Way nodes num_layers (j :: rest) →
    Hosts nodes num_layers i → Way nodes (num_layers + 1) (i :: j :: rest)

def weight_at (nodes : List Node) (i : Nat) : Rat :=
  match nodes[i]? with
  | none => 0
  | some n => layer_weight n

def hop_at (nodes : List Node) (j i : Nat) : Rat :=
  match nodes[j]?, nodes[i]? with
  | some m, some n => hop_time m n
  | _, _ => 0

/-- What a request pays on a way: the latency of each host, and the hops. -/
def way_cost (nodes : List Node) : List Nat → Rat
  | [] => 0
  | [i] => weight_at nodes i
  | i :: j :: rest => way_cost nodes (j :: rest) + hop_at nodes j i + weight_at nodes i

/-- Cheaper ways come first, and then those with the lower indices. -/
def rank (nodes : List Node) (way : List Nat) : Rat ×ₗ List Nat := toLex (way_cost nodes way, way)

/-- The best way to a host. -/
structure BestTo (nodes : List Node) (num_layers i : Nat) (rest : List Nat) : Prop where
  way : Way nodes num_layers (i :: rest)
  least : ∀ rest', Way nodes num_layers (i :: rest') →
    rank nodes (i :: rest) ≤ rank nodes (i :: rest')

/-- The fastest route over all layers. Among equals it is the one whose hosts, from the last layer
back, come first. -/
structure Fastest (nodes : List Node) (num_layers : Nat) (route : List Nat) : Prop where
  way : Way nodes num_layers route.reverse
  least : ∀ way, Way nodes num_layers way → rank nodes route.reverse ≤ rank nodes way

theorem rank_le_iff {nodes : List Node} {way way' : List Nat} :
    rank nodes way ≤ rank nodes way' ↔
      way_cost nodes way < way_cost nodes way' ∨
        way_cost nodes way = way_cost nodes way' ∧ way ≤ way' := Prod.Lex.toLex_le_toLex

theorem Fastest.unique {nodes : List Node} {num_layers : Nat} {route route' : List Nat}
    (h : Fastest nodes num_layers route) (h' : Fastest nodes num_layers route') : route = route' := by
  have heq := le_antisymm (h.least _ h'.way) (h'.least _ h.way)
  exact List.reverse_injective (congrArg (fun x => (ofLex x).2) heq)

theorem Way.length {nodes : List Node} {num_layers : Nat} {way : List Nat}
    (h : Way nodes num_layers way) : way.length = num_layers := by
  induction h with
  | first => rfl
  | step _ _ ih => rw [List.length_cons, ih]

/-- The first host of a way is that of the last layer. -/
theorem Way.hosts_last {nodes : List Node} {num_layers i : Nat} {rest : List Nat}
    (h : Way nodes (num_layers + 1) (i :: rest)) : Hosts nodes num_layers i := by
  cases h with
  | first hosts => exact hosts
  | step _ hosts => exact hosts

/-- Each layer has its host on the route. -/
theorem Way.hosts {nodes : List Node} {num_layers : Nat} {way : List Nat}
    (h : Way nodes num_layers way) :
    ∀ (l : Nat) i, way.reverse[l]? = some i → Hosts nodes l i := by
  induction h with
  | first hosts =>
    intro l i hi
    rcases l with _ | l
    · cases hi
      exact hosts
    · cases hi
  | @step num_layers i j rest hway hosts ih =>
    intro l k hk
    rw [List.reverse_cons, List.getElem?_append] at hk
    split at hk
    · exact ih l k hk
    · rename_i hl
      rw [List.length_reverse, hway.length] at hl hk
      obtain ⟨hzero, hget⟩ := List.getElem?_eq_some_iff.mp hk
      have hl' : l = num_layers := by
        rw [List.length_singleton] at hzero
        omega
      subst hl'
      simp only [Nat.sub_self, List.getElem_cons_zero] at hget
      exact hget ▸ hosts

/-! ## Times -/

/-- The latencies of the nodes and the hops between them are finite. -/
structure Timed (nodes : List Node) : Prop where
  latency : ∀ n ∈ nodes, ∃ x : Rat, n.layer_latency_ms = .ok (x : Latency)
  rtt : ∀ n ∈ nodes, ∀ m ∈ nodes, n.get_rtt_to m ≠ ⊤

section timed

variable {nodes : List Node} {num_layers : Nat}

theorem Timed.latency_eq (T : Timed nodes) {i : Nat} {n : Node} (hi : nodes[i]? = some n) :
    n.layer_latency_ms = .ok (weight_at nodes i : Latency) := by
  obtain ⟨x, hx⟩ := T.latency n (List.mem_of_getElem? hi)
  have hweight : weight_at nodes i = x := by
    unfold weight_at
    rw [hi]
    dsimp only
    unfold layer_weight
    rw [latency_of_eq hx]
    rfl
  rw [hweight, hx]

theorem Timed.rtt_eq (T : Timed nodes) {i j : Nat} {n m : Node} (hi : nodes[i]? = some n)
    (hj : nodes[j]? = some m) : m.get_rtt_to n = (hop_at nodes j i : Latency) := by
  unfold hop_at hop_time
  rw [hi, hj]
  dsimp only
  obtain ⟨x, hx⟩ := WithTop.ne_top_iff_exists.mp
    (T.rtt m (List.mem_of_getElem? hj) n (List.mem_of_getElem? hi))
  rw [← hx]
  rfl

/-! ## Rows -/

theorem mem_layer_hosts {layer_id i : Nat} {n : Node} :
    (n, i) ∈ layer_hosts nodes layer_id ↔ nodes[i]? = some n ∧ n.hosts_layer layer_id = true := by
  unfold layer_hosts
  rw [List.mem_filter, List.mem_zipIdx_iff_getElem?]

/-- The hosts of a layer are listed by their indices. -/
theorem layer_hosts_ascending (nodes : List Node) (layer_id : Nat) :
    (layer_hosts nodes layer_id).Pairwise (fun x y => x.2 < y.2) := by
  unfold layer_hosts
  apply List.Pairwise.filter
  rw [← List.pairwise_map, List.zipIdx_map_snd]
  exact List.pairwise_lt_range'

/-- The entries of a row tell of the hosts of the last layer. The best way to each of them has the
cost of the entry, and the search traces it back. -/
structure Traced (nodes : List Node) (num_layers : Nat) (row : List Entry) (rows : List (List Entry)) :
    Prop where
  hosts : ∀ e ∈ row, nodes[e.index]? = some e.node
  ascending : row.Pairwise (fun e e' => e.index < e'.index)
  complete : ∀ i rest, Way nodes num_layers (i :: rest) → ∃ e ∈ row, e.index = i
  best : ∀ e ∈ row, ∃ rest, BestTo nodes num_layers e.index rest ∧
    e.cost = (way_cost nodes (e.index :: rest) : Latency) ∧
      ∀ path, trace_back row rows e.index path = (e.index :: rest).reverse ++ path

/-- What the way to a host costs over an entry of the row before. -/
def cost_over (nodes : List Node) (i : Nat) (e : Entry) : Latency :=
  e.cost + hop_at nodes e.index i + weight_at nodes i

/-- The search for the host before takes the first of the least cost. -/
theorem relax.spec (T : Timed nodes) {i : Nat} {n : Node} (hi : nodes[i]? = some n) {l : List Entry}
    (hl : ∀ e ∈ l, nodes[e.index]? = some e.node ∧ e.cost ≠ ⊤) (best : Latency × Option Nat) :
    ∃ best', relax n i l best = .ok best' ∧
      ((best' = best ∧ ∀ e ∈ l, best.1 ≤ cost_over nodes i e) ∨
        ∃ before e after, l = before ++ e :: after ∧
          best' = (cost_over nodes i e, some e.index) ∧ cost_over nodes i e < best.1 ∧
            (∀ x ∈ before, cost_over nodes i e < cost_over nodes i x) ∧
              ∀ x ∈ after, cost_over nodes i e ≤ cost_over nodes i x) := by
  induction l generalizing best with
  | nil => exact ⟨best, rfl, Or.inl ⟨rfl, fun e he => absurd he List.not_mem_nil⟩⟩
  | cons e l ih =>
    obtain ⟨hnode, hfinite⟩ := hl e List.mem_cons_self
    have ih := ih (fun x hx => hl x (List.mem_cons_of_mem _ hx))
    have htrans : (if i = e.index then (0 : Latency) else e.node.get_rtt_to n) =
        (hop_at nodes e.index i : Latency) := by
      rw [← T.rtt_eq hi hnode]
      split
      · rename_i heq
        rw [heq, hnode] at hi
        rw [Option.some.inj hi, get_rtt_to_self]
      · rfl
    unfold relax
    rw [if_neg hfinite, htrans, T.latency_eq hi]
    simp only [bind, Except.bind]
    change ∃ best', relax n i l (if cost_over nodes i e < best.1
      then (cost_over nodes i e, some e.index) else best) = .ok best' ∧ _
    by_cases hlt : cost_over nodes i e < best.1
    · rw [if_pos hlt]
      obtain ⟨best', hrun, ⟨rfl, hall⟩ | ⟨before, x, after, rfl, rfl, hx, hbefore, hafter⟩⟩ :=
        ih (cost_over nodes i e, some e.index)
      · exact ⟨_, hrun, Or.inr ⟨[], e, l, rfl, rfl, hlt, fun x hx => absurd hx List.not_mem_nil, hall⟩⟩
      · refine ⟨_, hrun, Or.inr ⟨e :: before, x, after, rfl, rfl, hx.trans hlt, ?_, hafter⟩⟩
        exact List.forall_mem_cons.mpr ⟨hx, hbefore⟩
    · rw [if_neg hlt]
      obtain ⟨best', hrun, ⟨rfl, hall⟩ | ⟨before, x, after, rfl, rfl, hx, hbefore, hafter⟩⟩ :=
        ih best
      · exact ⟨_, hrun, Or.inl ⟨rfl, List.forall_mem_cons.mpr ⟨not_lt.mp hlt, hall⟩⟩⟩
      · refine ⟨_, hrun, Or.inr ⟨e :: before, x, after, rfl, rfl, hx, ?_, hafter⟩⟩
        exact List.forall_mem_cons.mpr ⟨hx.trans_le (not_lt.mp hlt), hbefore⟩

/-- A way to the next layer comes from a way to the one before. -/
theorem Way.before {i : Nat} {rest : List Nat} (h : Way nodes (num_layers + 1) (i :: rest))
    (hlayers : 0 < num_layers) : ∃ j rest', rest = j :: rest' ∧ Way nodes num_layers (j :: rest') := by
  cases h with
  | first _ => omega
  | step hway _ => exact ⟨_, _, rfl, hway⟩

theorem rank_cons_le {i j : Nat} {rest rest' : List Nat}
    (h : rank nodes (j :: rest) ≤ rank nodes (j :: rest')) :
    rank nodes (i :: j :: rest) ≤ rank nodes (i :: j :: rest') := by
  rw [rank_le_iff] at h ⊢
  simp only [way_cost]
  rcases h with hlt | ⟨heq, hle⟩
  · exact Or.inl (by linarith)
  · exact Or.inr ⟨by rw [heq], List.cons_le_cons i hle⟩

theorem cost_over_eq {e : Entry} {i : Nat} {rest : List Nat}
    (h : e.cost = (way_cost nodes (e.index :: rest) : Latency)) :
    cost_over nodes i e = (way_cost nodes (i :: e.index :: rest) : Latency) := by
  unfold cost_over
  rw [h, way_cost]
  rfl

/-- The best way to a host comes over the first of the cheapest entries of the row before. -/
theorem Traced.extend {row : List Entry} {rows : List (List Entry)} (h : Traced nodes num_layers row rows)
    (hlayers : 0 < num_layers) {i : Nat} (hosts : Hosts nodes num_layers i) {before after : List Entry}
    {e : Entry} (hsplit : row = before ++ e :: after)
    (hbefore : ∀ x ∈ before, cost_over nodes i e < cost_over nodes i x)
    (hafter : ∀ x ∈ after, cost_over nodes i e ≤ cost_over nodes i x) {rest : List Nat}
    (hbest : BestTo nodes num_layers e.index rest)
    (hcost : e.cost = (way_cost nodes (e.index :: rest) : Latency)) :
    BestTo nodes (num_layers + 1) i (e.index :: rest) := by
  refine ⟨.step hbest.way hosts, fun rest' hway => ?_⟩
  obtain ⟨j, rest'', rfl, hway'⟩ := hway.before hlayers
  obtain ⟨x, hx, rfl⟩ := h.complete j rest'' hway'
  obtain ⟨restx, hbestx, hcostx, _⟩ := h.best x hx
  have hover := hbestx.least rest'' hway'
  refine le_trans ?_ (rank_cons_le (i := i) hover)
  rw [hsplit, List.mem_append, List.mem_cons] at hx
  rcases hx with hx | rfl | hx
  · have hlt := hbefore x hx
    rw [cost_over_eq hcost, cost_over_eq hcostx, WithTop.coe_lt_coe] at hlt
    exact rank_le_iff.mpr (Or.inl hlt)
  · exact rank_cons_le (hbest.least restx hbestx.way)
  · have hle := hafter x hx
    rw [cost_over_eq hcost, cost_over_eq hcostx, WithTop.coe_le_coe] at hle
    rw [rank_le_iff]
    rcases hle.lt_or_eq with hlt | heq
    · exact Or.inl hlt
    · -- Among equals the entry comes first.
      have hascending := h.ascending
      rw [hsplit] at hascending
      have hindex := (List.pairwise_cons.mp (List.pairwise_append.mp hascending).2.1).1 x hx
      exact Or.inr ⟨heq, le_of_lt (List.Lex.cons (List.Lex.rel hindex))⟩

/-! ## The search -/

theorem first_row.spec (T : Timed nodes) :
    ∃ row, first_row (layer_hosts nodes 0) = .ok row ∧ Traced nodes 1 row [] := by
  refine ⟨(layer_hosts nodes 0).map (fun x => ⟨x.2, x.1, (weight_at nodes x.2 : Latency), none⟩), ?_,
    ?_, ?_, ?_, ?_⟩
  · apply mapM_of_ok
    intro x hx
    rw [T.latency_eq (mem_layer_hosts.mp hx).1]
    rfl
  · intro e he
    obtain ⟨x, hx, rfl⟩ := List.mem_map.mp he
    exact (mem_layer_hosts.mp hx).1
  · rw [List.pairwise_map]
    exact layer_hosts_ascending nodes 0
  · rintro i rest (⟨n, hi, hosts⟩ | ⟨hway, _⟩)
    · exact ⟨_, List.mem_map.mpr ⟨(n, i), mem_layer_hosts.mpr ⟨hi, hosts⟩, rfl⟩, rfl⟩
    · cases hway.length
  · intro e he
    obtain ⟨⟨n, i⟩, hx, rfl⟩ := List.mem_map.mp he
    obtain ⟨hi, hosts⟩ := mem_layer_hosts.mp hx
    refine ⟨[], ⟨.first ⟨n, hi, hosts⟩, ?_⟩, rfl, fun path => rfl⟩
    intro rest' hway
    have hlength := hway.length
    rw [List.length_cons, Nat.add_eq_right, List.length_eq_zero_iff] at hlength
    rw [hlength]

/-- An entry is found by its index. -/
theorem find_entry {row : List Entry} (h : row.Pairwise (fun e e' => e.index < e'.index)) {e : Entry}
    (he : e ∈ row) : row.find? (fun x => x.index = e.index) = some e := by
  induction row with
  | nil => cases he
  | cons x row ih =>
    obtain ⟨hless, hrest⟩ := List.pairwise_cons.mp h
    rcases List.mem_cons.mp he with rfl | he
    · exact List.find?_cons_of_pos (by simp)
    · rw [List.find?_cons_of_neg]
      · exact ih hrest he
      · simpa using (hless e he).ne

/-- One host of the next layer. -/
theorem Traced.relaxed (T : Timed nodes) {row : List Entry} {rows : List (List Entry)}
    (h : Traced nodes num_layers row rows) (hlayers : 0 < num_layers) (hrow : row ≠ []) {i : Nat}
    {n : Node} (hi : nodes[i]? = some n) (hosts : n.hosts_layer num_layers = true) :
    ∃ e ∈ row, ∃ rest, relax n i row (⊤, none) =
        .ok ((way_cost nodes (i :: e.index :: rest) : Latency), some e.index) ∧
      BestTo nodes (num_layers + 1) i (e.index :: rest) ∧
        ∀ path, trace_back row rows e.index path = (e.index :: rest).reverse ++ path := by
  have hfinite : ∀ e ∈ row, e.cost ≠ ⊤ := by
    intro e he
    obtain ⟨rest, _, hcost, _⟩ := h.best e he
    rw [hcost]
    exact WithTop.coe_ne_top
  obtain ⟨best', hrun, ⟨_, hall⟩ | ⟨before, e, after, hsplit, rfl, _, hbefore, hafter⟩⟩ :=
    relax.spec T hi (fun e he => ⟨h.hosts e he, hfinite e he⟩) (⊤, none)
  · obtain ⟨e, he⟩ := List.exists_mem_of_ne_nil row hrow
    obtain ⟨rest, _, hcost, _⟩ := h.best e he
    have htop := hall e he
    rw [cost_over_eq hcost] at htop
    exact absurd htop (not_le.mpr (WithTop.coe_lt_top _))
  · have he : e ∈ row := by
      rw [hsplit]
      exact List.mem_append_right _ List.mem_cons_self
    obtain ⟨rest, hbest, hcost, htrace⟩ := h.best e he
    refine ⟨e, he, rest, ?_, ?_, htrace⟩
    · rw [hrun, cost_over_eq hcost]
    · exact h.extend hlayers ⟨n, hi, hosts⟩ hsplit hbefore hafter hbest hcost

theorem next_row.spec (T : Timed nodes) {row : List Entry} {rows : List (List Entry)}
    (h : Traced nodes num_layers row rows) (hlayers : 0 < num_layers) (hrow : row ≠ []) :
    ∃ row', next_row row (layer_hosts nodes num_layers) = .ok row' ∧
      Traced nodes (num_layers + 1) row' (row :: rows) ∧
        row'.length = (layer_hosts nodes num_layers).length := by
  have hreturns : ∀ x ∈ layer_hosts nodes num_layers, ∃ e : Entry,
      (do
        let best ← relax x.1 x.2 row (⊤, none)
        return (⟨x.2, x.1, best.1, best.2⟩ : Entry)) = .ok e ∧ e.index = x.2 ∧ e.node = x.1 ∧
      ∃ rest, BestTo nodes (num_layers + 1) x.2 rest ∧
        e.cost = (way_cost nodes (x.2 :: rest) : Latency) ∧
          ∃ j, e.back = some j ∧
            ∀ path, trace_back row rows j path = rest.reverse ++ path := by
    rintro ⟨n, i⟩ hx
    obtain ⟨hi, hosts⟩ := mem_layer_hosts.mp hx
    obtain ⟨e, he, rest, hrun, hbest, htrace⟩ := h.relaxed T hlayers hrow hi hosts
    refine ⟨⟨i, n, (way_cost nodes (i :: e.index :: rest) : Latency), some e.index⟩, ?_, rfl, rfl,
      e.index :: rest, hbest, rfl, e.index, rfl, htrace⟩
    rw [hrun]
    rfl
  have : Nonempty Entry := ⟨row.head hrow⟩
  choose! f hf using hreturns
  have hnext : next_row row (layer_hosts nodes num_layers) =
      .ok ((layer_hosts nodes num_layers).map f) := mapM_of_ok (fun x hx => (hf x hx).1)
  have hascending : ((layer_hosts nodes num_layers).map f).Pairwise
      (fun e e' => e.index < e'.index) := by
    rw [List.pairwise_map]
    refine (layer_hosts_ascending nodes num_layers).imp_of_mem ?_
    intro x y hx hy hlt
    rw [(hf x hx).2.1, (hf y hy).2.1]
    exact hlt
  refine ⟨_, hnext, ⟨?_, hascending, ?_, ?_⟩, List.length_map _⟩
  · intro e he
    obtain ⟨x, hx, rfl⟩ := List.mem_map.mp he
    obtain ⟨_, hindex, hnode, _⟩ := hf x hx
    rw [hindex, hnode]
    exact (mem_layer_hosts.mp hx).1
  · intro i rest hway
    obtain ⟨n, hi, hosts⟩ := hway.hosts_last
    have hx := mem_layer_hosts.mpr ⟨hi, hosts⟩
    exact ⟨f (n, i), List.mem_map_of_mem hx, (hf _ hx).2.1⟩
  · intro e he
    have hfind := find_entry hascending he
    obtain ⟨x, hx, rfl⟩ := List.mem_map.mp he
    obtain ⟨_, hindex, _, rest, hbest, hcost, j, hback, htrace⟩ := hf x hx
    rw [hindex] at hfind ⊢
    refine ⟨rest, hbest, hcost, fun path => ?_⟩
    unfold trace_back
    rw [hfind, Option.bind_some, hback]
    dsimp only
    rw [htrace, List.reverse_cons, List.append_assoc]
    rfl

theorem later_rows.spec (T : Timed nodes) (n : Nat) {row : List Entry} {rows : List (List Entry)}
    (h : Traced nodes num_layers row rows) (hlayers : 0 < num_layers) (hrow : row ≠ [])
    (hosts : ∀ l < num_layers + n, layer_hosts nodes l ≠ []) :
    ∃ last rows', later_rows nodes n num_layers row rows = .ok (last, rows') ∧
      Traced nodes (num_layers + n) last rows' ∧ last ≠ [] := by
  induction n generalizing num_layers row rows with
  | zero => exact ⟨row, rows, rfl, h, hrow⟩
  | succ n ih =>
    obtain ⟨row', hrun, htraced, hlength⟩ := next_row.spec T h hlayers hrow
    have hrow' : row' ≠ [] := by
      have hne := hosts num_layers (by omega)
      rw [ne_eq, ← List.length_eq_zero_iff] at hne ⊢
      omega
    have hsum : num_layers + 1 + n = num_layers + (n + 1) := by omega
    obtain ⟨last, rows', hrest, htraced', hlast⟩ :=
      ih htraced (Nat.succ_pos _) hrow' (fun l hl => hosts l (by omega))
    refine ⟨last, rows', ?_, hsum ▸ htraced', hlast⟩
    unfold later_rows
    rw [hrun]
    exact hrest

/-- Cheaper entries come first, and then those with the lower index. -/
def Before (e x : Entry) : Prop := e.cost < x.cost ∨ e.cost = x.cost ∧ e.index ≤ x.index

theorem Before.trans {e x y : Entry} (h : Before e x) (h' : Before x y) : Before e y := by
  rcases h with hlt | ⟨heq, hle⟩
  · rcases h' with hlt' | ⟨heq', _⟩
    · exact Or.inl (hlt.trans hlt')
    · exact Or.inl (heq' ▸ hlt)
  · rcases h' with hlt' | ⟨heq', hle'⟩
    · exact Or.inl (heq ▸ hlt')
    · exact Or.inr ⟨heq.trans heq', hle.trans hle'⟩

theorem cheapest.spec {row : List Entry} (h : row.Pairwise (fun e e' => e.index < e'.index))
    (hrow : row ≠ []) : ∃ e, cheapest row = some e ∧ e ∈ row ∧ ∀ x ∈ row, Before e x := by
  have hfold : ∀ (l : List Entry) best, l.Pairwise (fun e e' => e.index < e'.index) →
      (∀ x ∈ l, best.index < x.index) →
      ∃ e ∈ best :: l, l.foldl (fun best e => if e.cost < best.cost then e else best) best = e ∧
        ∀ x ∈ best :: l, Before e x := by
    intro l
    induction l with
    | nil =>
      refine fun best _ _ => ⟨best, List.mem_cons_self, rfl, fun x hx => ?_⟩
      rw [List.mem_singleton.mp hx]
      exact Or.inr ⟨rfl, le_rfl⟩
    | cons y l ih =>
      intro best hpairwise hless
      obtain ⟨hy, hl⟩ := List.pairwise_cons.mp hpairwise
      obtain ⟨hbesty, hbestl⟩ := List.forall_mem_cons.mp hless
      rw [List.foldl_cons]
      by_cases hlt : y.cost < best.cost
      · rw [if_pos hlt]
        obtain ⟨e, he, hrun, hall⟩ := ih y hl hy
        refine ⟨e, List.mem_cons_of_mem _ he, hrun, List.forall_mem_cons.mpr ⟨?_, hall⟩⟩
        exact (hall y List.mem_cons_self).trans (Or.inl hlt)
      · rw [if_neg hlt]
        obtain ⟨e, he, hrun, hall⟩ := ih best hl hbestl
        obtain ⟨hbest, hrest⟩ := List.forall_mem_cons.mp hall
        refine ⟨e, ?_, hrun, List.forall_mem_cons.mpr ⟨hbest, List.forall_mem_cons.mpr ⟨?_, hrest⟩⟩⟩
        · exact (List.mem_cons.mp he).elim (fun heq => heq ▸ List.mem_cons_self)
            (fun he => List.mem_cons_of_mem _ (List.mem_cons_of_mem _ he))
        · refine hbest.trans ?_
          rcases (not_lt.mp hlt).lt_or_eq with hcost | hcost
          · exact Or.inl hcost
          · exact Or.inr ⟨hcost, hbesty.le⟩
  rcases row with _ | ⟨first, rest⟩
  · exact absurd rfl hrow
  · obtain ⟨hless, hrest⟩ := List.pairwise_cons.mp h
    obtain ⟨e, he, hrun, hall⟩ := hfold rest first hrest hless
    exact ⟨e, congrArg some hrun, he, hall⟩

/-- When each layer has a host, the search returns the fastest route. -/
theorem layer_route.spec (T : Timed nodes) (hlayers : 0 < num_layers)
    (hosts : ∀ l < num_layers, ∃ i, Hosts nodes l i) :
    ∃ route, layer_route nodes num_layers = .ok (some route) ∧ Fastest nodes num_layers route := by
  have hosts' : ∀ l < num_layers, layer_hosts nodes l ≠ [] := by
    intro l hl
    obtain ⟨i, n, hi⟩ := hosts l hl
    exact List.ne_nil_of_mem (mem_layer_hosts.mpr hi)
  have hnodes : nodes ≠ [] := by
    rintro rfl
    exact hosts' 0 hlayers rfl
  have hany : ¬ (List.range num_layers).any (fun li => (layer_hosts nodes li).isEmpty) = true := by
    rw [List.any_eq_true]
    rintro ⟨l, hl, hempty⟩
    exact hosts' l (List.mem_range.mp hl) (List.isEmpty_iff.mp hempty)
  obtain ⟨row, hfirst, htraced⟩ := first_row.spec T
  have hrow : row ≠ [] := by
    obtain ⟨i, hi⟩ := hosts 0 hlayers
    obtain ⟨e, he, _⟩ := htraced.complete i [] (.first hi)
    exact List.ne_nil_of_mem he
  have hsum : 1 + (num_layers - 1) = num_layers := by omega
  obtain ⟨last, rows, hlater, htraced', hlast⟩ :=
    later_rows.spec T (num_layers - 1) htraced Nat.one_pos hrow (fun l hl => hosts' l (by omega))
  rw [hsum] at htraced'
  obtain ⟨e, hcheapest, he, hbefore⟩ := cheapest.spec htraced'.ascending hlast
  obtain ⟨rest, hbest, hcost, htrace⟩ := htraced'.best e he
  refine ⟨(e.index :: rest).reverse, ?_, ?_, ?_⟩
  · unfold layer_route
    rw [if_neg (by simp [hnodes, hlayers.ne']), if_neg hany, hfirst]
    simp only [bind, Except.bind]
    rw [hlater]
    dsimp only
    rw [hcheapest]
    dsimp only
    rw [htrace, List.append_nil]
    rfl
  · rw [List.reverse_reverse]
    exact hbest.way
  · rw [List.reverse_reverse]
    intro way hway
    rcases way with _ | ⟨i, rest'⟩
    · have hzero := hway.length
      rw [List.length_nil] at hzero
      omega
    · obtain ⟨x, hx, rfl⟩ := htraced'.complete i rest' hway
      obtain ⟨restx, hbestx, hcostx, _⟩ := htraced'.best x hx
      refine le_trans ?_ (hbestx.least rest' hway)
      have hfirst := hbefore x hx
      unfold Before at hfirst
      rw [hcost, hcostx, WithTop.coe_lt_coe, WithTop.coe_inj] at hfirst
      rcases hfirst with hlt | ⟨heq, hle⟩
      · exact rank_le_iff.mpr (Or.inl hlt)
      · rcases hle.lt_or_eq with hlt | hindex
        · exact rank_le_iff.mpr (Or.inr ⟨heq, le_of_lt (List.Lex.rel hlt)⟩)
        · rw [← hindex] at hbestx ⊢
          exact hbest.least restx hbestx.way

end timed

end scheduling.request_routing
