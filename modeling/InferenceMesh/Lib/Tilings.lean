-- Tilings of a stretch of layers by ranges, and two costs of a tiling: each
-- range pays its weight once, or once for each of its layers, and each step
-- from a range to the next pays a hop. When the two costs agree on which
-- tiling is the least is a matter of the ranges alone.
import Mathlib

namespace tilings

variable {V : Type*} (start stop : V → Int)

/-- The ranges follow each other from one layer to another. -/
def Tiles : Int → List V → Int → Prop
  | a, [], b => a = b
  | a, v :: rest, b => start v = a ∧ Tiles (stop v) rest b

/-- A tiling of the layers up to `last` by ranges of the layout. -/
structure Chain (layout : List V) (last : Int) (c : List V) : Prop where
  members : ∀ v ∈ c, v ∈ layout
  tiles : Tiles start stop 0 c last

/-- What a chain pays: a weight for each range, and a hop for each step. -/
def cost {K : Type*} [Add K] [Zero K] (weight : V → K) (hop : V → V → K) : List V → K
  | [] => 0
  | [v] => weight v
  | v :: w :: rest => weight v + hop v w + cost weight hop (w :: rest)

/-- The weight of a range is paid for each of its layers. -/
def layered {K : Type*} [Ring K] (weight : V → K) (v : V) : K :=
  weight v * ((stop v - start v : Int) : K)

/-- Whatever a chain of several ranges does without has one layer. -/
def Interchangeable (layout : List V) (last : Int) : Prop :=
  ∀ a b, Chain start stop layout last a → Chain start stop layout last b → 2 ≤ b.length →
    ∀ v ∈ a, v ∉ b → stop v - start v = 1

/-! ## Tilings -/

section tiles

variable {start stop} {a b : Int} {c d : List V} {v : V}

theorem Tiles.bounds (hpos : ∀ v ∈ c, start v < stop v) (h : Tiles start stop a c b) :
    a ≤ b ∧ ∀ v ∈ c, a ≤ start v ∧ stop v ≤ b := by
  induction c generalizing a with
  | nil => exact ⟨le_of_eq h, fun v hv => absurd hv List.not_mem_nil⟩
  | cons w rest ih =>
    obtain ⟨hw, hrest⟩ := h
    have hlt := hpos w List.mem_cons_self
    obtain ⟨hle, hall⟩ := ih (fun v hv => hpos v (List.mem_cons_of_mem _ hv)) hrest
    refine ⟨by omega, ?_⟩
    intro v hv
    rcases List.mem_cons.mp hv with rfl | hv
    · omega
    · have := hall v hv
      omega

/-- The ranges behind the first one start later. -/
theorem Tiles.start_lt {w : V} (hpos : ∀ v ∈ w :: c, start v < stop v)
    (h : Tiles start stop a (w :: c) b) : ∀ v ∈ c, start w < start v := by
  intro v hv
  obtain ⟨_, hrest⟩ := h
  have hlt := hpos w List.mem_cons_self
  have := (hrest.bounds (fun x hx => hpos x (List.mem_cons_of_mem _ hx))).2 v hv
  omega

theorem Tiles.nodup (hpos : ∀ v ∈ c, start v < stop v) (h : Tiles start stop a c b) : c.Nodup := by
  induction c generalizing a with
  | nil => exact List.nodup_nil
  | cons w rest ih =>
    refine List.nodup_cons.mpr ⟨fun hw => ?_,
      ih (fun v hv => hpos v (List.mem_cons_of_mem _ hv)) h.2⟩
    exact lt_irrefl _ (h.start_lt hpos w hw)

/-- A tiling by ranges of another tiling is that tiling. -/
theorem Tiles.eq_of_subset (hc : ∀ v ∈ c, start v < stop v) (hd : ∀ v ∈ d, start v < stop v)
    (h : Tiles start stop a c b) (h' : Tiles start stop a d b) (hsub : ∀ v ∈ c, v ∈ d) : c = d := by
  induction c generalizing a d with
  | nil =>
    rcases d with _ | ⟨w, rest⟩
    · rfl
    · have hab : a = b := h
      have hlt := hd w List.mem_cons_self
      have := h'.1
      have := (h'.bounds hd).2 w List.mem_cons_self
      omega
  | cons v rest ih =>
    rcases d with _ | ⟨w, rest'⟩
    · exact absurd (hsub v List.mem_cons_self) List.not_mem_nil
    · have hvw : v = w := by
        rcases List.mem_cons.mp (hsub v List.mem_cons_self) with heq | hin
        · exact heq
        · have := h'.start_lt hd v hin
          have := h.1
          have := h'.1
          omega
      subst hvw
      congr 1
      refine ih (fun x hx => hc x (List.mem_cons_of_mem _ hx))
        (fun x hx => hd x (List.mem_cons_of_mem _ hx)) h.2 h'.2 fun x hx => ?_
      refine (List.mem_cons.mp (hsub x (List.mem_cons_of_mem _ hx))).resolve_left ?_
      rintro rfl
      exact lt_irrefl _ (h.start_lt hc x hx)

/-- A range that covers everything is alone. -/
theorem Tiles.eq_singleton (hpos : ∀ v ∈ c, start v < stop v) (h : Tiles start stop a c b)
    (hv : v ∈ c) (hstart : start v = a) (hstop : stop v = b) : c = [v] := by
  have hsingle : Tiles start stop a [v] b := ⟨hstart, hstop⟩
  refine (hsingle.eq_of_subset (fun x hx => ?_) hpos h fun x hx => ?_).symm
  · rw [List.mem_singleton.mp hx]
    exact hpos v hv
  · rw [List.mem_singleton.mp hx]
    exact hv

/-- Several ranges have several layers. -/
theorem Tiles.two_layers (hpos : ∀ v ∈ c, start v < stop v) (h : Tiles start stop a c b)
    (hlen : 2 ≤ c.length) : a + 2 ≤ b := by
  rcases c with _ | ⟨v, _ | ⟨w, rest⟩⟩
  · simp at hlen
  · simp at hlen
  · have hv := hpos v List.mem_cons_self
    have hw := hpos w (List.mem_cons_of_mem _ List.mem_cons_self)
    have hb := (h.bounds hpos).2 w (List.mem_cons_of_mem _ List.mem_cons_self)
    have := h.1
    have := h.2.1
    omega

/-- Each layer of the stretch is in a range. -/
theorem Tiles.exists_cover (h : Tiles start stop a c b) {l : Int} (ha : a ≤ l) (hb : l < b) :
    ∃ v ∈ c, start v ≤ l ∧ l < stop v := by
  induction c generalizing a with
  | nil =>
    have hab : a = b := h
    omega
  | cons w rest ih =>
    by_cases hl : l < stop w
    · have hstart := h.1
      exact ⟨w, List.mem_cons_self, by omega, hl⟩
    · obtain ⟨v, hv, hcover⟩ := ih h.2 (by omega)
      exact ⟨v, List.mem_cons_of_mem _ hv, hcover⟩

/-- The first range starts where the stretch does. -/
theorem Tiles.first {ranges : List V} (h : Tiles start stop a ranges b)
    (hv : ranges[0]? = some v) : start v = a := by
  cases ranges with
  | nil => cases hv
  | cons w rest =>
    cases hv
    exact h.1

/-- Each range ends where the next one starts, and the last one where the stretch does. -/
theorem Tiles.next {ranges : List V} (h : Tiles start stop a ranges b) {j : Nat}
    (hv : ranges[j]? = some v) : (ranges.length = j + 1 → stop v = b) ∧
      ∀ w, ranges[j + 1]? = some w → start w = stop v := by
  induction ranges generalizing a j with
  | nil => cases hv
  | cons x rest ih =>
    cases j with
    | zero =>
      cases hv
      refine ⟨fun hlength => ?_, fun w hw => h.2.first hw⟩
      obtain rfl := List.length_eq_zero_iff.mp (Nat.succ.inj hlength)
      exact h.2
    | succ j =>
      obtain ⟨hlast, hnext⟩ := ih h.2 hv
      exact ⟨fun hlength => hlast (Nat.succ.inj hlength), hnext⟩

/-- And it is in no other one. -/
theorem Tiles.cover_unique (hpos : ∀ v ∈ c, start v < stop v) (h : Tiles start stop a c b) {l : Int}
    {v w : V} (hv : v ∈ c) (hw : w ∈ c) (hvl : start v ≤ l ∧ l < stop v)
    (hwl : start w ≤ l ∧ l < stop w) : v = w := by
  induction c generalizing a with
  | nil => exact absurd hv List.not_mem_nil
  | cons x rest ih =>
    have hrest : ∀ y ∈ rest, stop x ≤ start y := fun y hy =>
      ((h.2.bounds (fun z hz => hpos z (List.mem_cons_of_mem _ hz))).2 y hy).1
    rcases List.mem_cons.mp hv with rfl | hv'
    · rcases List.mem_cons.mp hw with rfl | hw'
      · rfl
      · have := hrest w hw'
        omega
    · rcases List.mem_cons.mp hw with rfl | hw'
      · have := hrest v hv'
        omega
      · exact ih (fun y hy => hpos y (List.mem_cons_of_mem _ hy)) h.2 hv' hw'

end tiles

namespace Chain

variable {start stop} {layout : List V} {last : Int} {c d : List V} {v : V}

theorem pos (hlayout : ∀ v ∈ layout, start v < stop v) (h : Chain start stop layout last c) :
    ∀ v ∈ c, start v < stop v := fun v hv => hlayout v (h.members v hv)

/-- Of two chains of which one is a single range, both are single, or that range is not in the
other one. -/
theorem not_mem_several (hlayout : ∀ v ∈ layout, start v < stop v)
    (h : Chain start stop layout last [v]) (h' : Chain start stop layout last c)
    (hlen : 2 ≤ c.length) : v ∉ c := by
  intro hv
  have hc := h'.tiles.eq_singleton (h'.pos hlayout) hv h.tiles.1 h.tiles.2
  rw [hc] at hlen
  simp at hlen

/-- In an interchangeable layout, no chain of several ranges stands next to a single range. -/
theorem several_of_several (hlayout : ∀ v ∈ layout, start v < stop v)
    (hinter : Interchangeable start stop layout last) (h : Chain start stop layout last c)
    (h' : Chain start stop layout last d) (hlen : 2 ≤ d.length) : 2 ≤ c.length := by
  have htwo := h'.tiles.two_layers (h'.pos hlayout) hlen
  rcases c with _ | ⟨v, _ | ⟨w, rest⟩⟩
  · have hlast : (0 : Int) = last := h.tiles
    omega
  · have hone := hinter [v] d h h' hlen v List.mem_cons_self (h.not_mem_several hlayout h' hlen)
    have hstart : start v = 0 := h.tiles.1
    have hstop : stop v = last := h.tiles.2
    omega
  · simp

end Chain

/-! ## Other names for the ranges -/

section rename

variable {W : Type*} {f : W → V} {layout c : List W} {last : Int} {start stop}

theorem tiles_map {a b : Int} :
    Tiles start stop a (c.map f) b ↔ Tiles (start ∘ f) (stop ∘ f) a c b := by
  induction c generalizing a with
  | nil => exact Iff.rfl
  | cons v rest ih => exact and_congr_right fun _ => ih

theorem Chain.map (h : Chain (start ∘ f) (stop ∘ f) layout last c) :
    Chain start stop (layout.map f) last (c.map f) := by
  refine ⟨fun v hv => ?_, tiles_map.mpr h.tiles⟩
  obtain ⟨w, hw, rfl⟩ := List.mem_map.mp hv
  exact List.mem_map_of_mem (h.members w hw)

/-- Names that tell the ranges apart keep a layout interchangeable. -/
theorem Interchangeable.of_map (hinj : ∀ v ∈ layout, ∀ w ∈ layout, f v = f w → v = w)
    (h : Interchangeable start stop (layout.map f) last) :
    Interchangeable (start ∘ f) (stop ∘ f) layout last := by
  intro a b ha hb hlen v hva hvb
  refine h (a.map f) (b.map f) ha.map hb.map (by rw [List.length_map]; exact hlen) (f v)
    (List.mem_map_of_mem hva) ?_
  intro hmem
  obtain ⟨w, hw, heq⟩ := List.mem_map.mp hmem
  have hwv := hinj w (hb.members w hw) v (ha.members v hva) heq
  exact hvb (hwv ▸ hw)

theorem cost_map {K : Type*} [Add K] [Zero K] (weight : V → K) (hop : V → V → K) (c : List W) :
    cost weight hop (c.map f) = cost (weight ∘ f) (fun v w => hop (f v) (f w)) c := by
  induction c with
  | nil => rfl
  | cons v rest ih =>
    rcases rest with _ | ⟨w, rest⟩
    · rfl
    · simp only [List.map_cons, cost] at ih ⊢
      rw [ih]
      rfl

/-- The hops from a range to itself do not matter. -/
theorem cost_congr {K : Type*} [Add K] [Zero K] {weight weight' : W → K} {hop hop' : W → W → K}
    (hnodup : c.Nodup) (hweight : ∀ v ∈ c, weight v = weight' v)
    (hhop : ∀ v ∈ c, ∀ w ∈ c, v ≠ w → hop v w = hop' v w) :
    cost weight hop c = cost weight' hop' c := by
  induction c with
  | nil => rfl
  | cons v rest ih =>
    rcases rest with _ | ⟨w, rest⟩
    · exact hweight v List.mem_cons_self
    · obtain ⟨hv, hrest⟩ := List.nodup_cons.mp hnodup
      have hne : v ≠ w := fun h => hv (h ▸ List.mem_cons_self)
      rw [cost, cost, hweight v List.mem_cons_self,
        hhop v List.mem_cons_self w (List.mem_cons_of_mem _ List.mem_cons_self) hne,
        ih hrest (fun x hx => hweight x (List.mem_cons_of_mem _ hx))
          (fun x hx y hy => hhop x (List.mem_cons_of_mem _ hx) y (List.mem_cons_of_mem _ hy))]

end rename

/-! ## Layouts on which the costs agree -/

section costs

variable {K : Type*} [Field K] {start stop} {layout : List V} {last : Int} {c d : List V}
  {weight : V → K} {hop : V → V → K}

theorem cost_add (f g : V → K) (hop : V → V → K) (c : List V) :
    cost (fun v => f v + g v) hop c = cost f hop c + (c.map g).sum := by
  induction c with
  | nil => simp [cost]
  | cons v rest ih =>
    rcases rest with _ | ⟨w, rest⟩
    · simp [cost]
    · simp only [cost, ih, List.map_cons, List.sum_cons]
      ring

/-- The layers behind the first one of each range. -/
theorem cost_layered (c : List V) : cost (layered start stop weight) hop c = cost weight hop c +
    (c.map (fun v => weight v * ((stop v - start v - 1 : Int) : K))).sum := by
  rw [← cost_add]
  congr 1
  funext v
  unfold layered
  push_cast
  ring

/-- Two chains of several ranges in an interchangeable layout pay the same for those layers. -/
theorem further_layers_eq (hlayout : ∀ v ∈ layout, start v < stop v)
    (hinter : Interchangeable start stop layout last) (hc : Chain start stop layout last c)
    (hd : Chain start stop layout last d) (hclen : 2 ≤ c.length) (hdlen : 2 ≤ d.length) :
    (c.map (fun v => weight v * ((stop v - start v - 1 : Int) : K))).sum =
      (d.map (fun v => weight v * ((stop v - start v - 1 : Int) : K))).sum := by
  classical
  have hzero : ∀ v, stop v - start v = 1 → weight v * ((stop v - start v - 1 : Int) : K) = 0 := by
    intro v hv
    rw [hv]
    simp
  have hmeet : ∀ {a b : List V}, Chain start stop layout last a → Chain start stop layout last b →
      2 ≤ b.length → (a.map (fun v => weight v * ((stop v - start v - 1 : Int) : K))).sum =
        ∑ v ∈ a.toFinset ∩ b.toFinset, weight v * ((stop v - start v - 1 : Int) : K) := by
    intro a b ha hb hlen
    rw [← List.sum_toFinset _ (ha.tiles.nodup (ha.pos hlayout))]
    symm
    refine Finset.sum_subset Finset.inter_subset_left fun v hv hnot => hzero v ?_
    have hva := List.mem_toFinset.mp hv
    exact hinter a b ha hb hlen v hva fun hvb =>
      hnot (Finset.mem_inter.mpr ⟨hv, List.mem_toFinset.mpr hvb⟩)
  rw [hmeet hc hd hdlen, hmeet hd hc hclen, Finset.inter_comm]

variable [LinearOrder K] [IsStrictOrderedRing K]

/-- In an interchangeable layout a chain that is cheaper by its ranges is cheaper by its layers. -/
theorem layered_le (hlayout : ∀ v ∈ layout, start v < stop v)
    (hinter : Interchangeable start stop layout last) (hc : Chain start stop layout last c)
    (hd : Chain start stop layout last d) (hle : cost weight hop c ≤ cost weight hop d) :
    cost (layered start stop weight) hop c ≤ cost (layered start stop weight) hop d := by
  by_cases hlen : 2 ≤ d.length
  · have hclen := hc.several_of_several hlayout hinter hd hlen
    rw [cost_layered, cost_layered, further_layers_eq hlayout hinter hc hd hclen hlen]
    exact add_le_add_left hle _
  · have hclen : ¬ 2 ≤ c.length := fun h => hlen (hd.several_of_several hlayout hinter hc h)
    rcases c with _ | ⟨v, _ | ⟨v', rest⟩⟩
    · rcases d with _ | ⟨w, _ | ⟨w', rest'⟩⟩
      · exact le_refl _
      · have hlast : (0 : Int) = last := hc.tiles
        have hpos := hd.pos hlayout w List.mem_cons_self
        have hstart : start w = 0 := hd.tiles.1
        have hstop : stop w = last := hd.tiles.2
        omega
      · simp at hlen
    · rcases d with _ | ⟨w, _ | ⟨w', rest'⟩⟩
      · have hlast : (0 : Int) = last := hd.tiles
        have hpos := hc.pos hlayout v List.mem_cons_self
        have hstart : start v = 0 := hc.tiles.1
        have hstop : stop v = last := hc.tiles.2
        omega
      · have hv : stop v - start v = last := by
          have hstart : start v = 0 := hc.tiles.1
          have hstop : stop v = last := hc.tiles.2
          omega
        have hw : stop w - start w = last := by
          have hstart : start w = 0 := hd.tiles.1
          have hstop : stop w = last := hd.tiles.2
          omega
        have hpos := hc.pos hlayout v List.mem_cons_self
        have hlast : (0 : K) ≤ ((last : Int) : K) := by
          have hnonneg : 0 ≤ last := by omega
          exact_mod_cast hnonneg
        show layered start stop weight v ≤ layered start stop weight w
        unfold layered
        rw [hv, hw]
        exact mul_le_mul_of_nonneg_right hle hlast
      · simp at hlen
    · simp at hclen

end costs

/-! ## Layouts on which they do not -/

section disagree

variable {start stop} {layout : List V} {last : Int} {a c : List V} {x : V} [DecidableEq V]

/-- A step that leaves the chain `a`, or is not on it, pays a toll. -/
def toll (a : List V) (v w : V) : Nat := if v ∈ a ∧ w ∈ a then 0 else 1

/-- The tolls of a chain. -/
def tolls (a : List V) : List V → Nat
  | [] => 0
  | [_] => 0
  | v :: w :: rest => toll a v w + tolls a (w :: rest)

theorem tolls_self_sub (h : ∀ v ∈ c, v ∈ a) : tolls a c = 0 := by
  induction c with
  | nil => rfl
  | cons v rest ih =>
    rcases rest with _ | ⟨w, rest⟩
    · rfl
    · rw [tolls, ih (fun u hu => h u (List.mem_cons_of_mem _ hu)), toll,
        if_pos ⟨h v List.mem_cons_self, h w (List.mem_cons_of_mem _ List.mem_cons_self)⟩]

/-- Several ranges without a toll are on the chain. -/
theorem mem_of_no_toll (hlen : 2 ≤ c.length) (h : tolls a c = 0) : ∀ v ∈ c, v ∈ a := by
  induction c with
  | nil => simp at hlen
  | cons v rest ih =>
    rcases rest with _ | ⟨w, rest⟩
    · simp at hlen
    · rw [tolls, Nat.add_eq_zero_iff] at h
      have hboth : v ∈ a ∧ w ∈ a := by
        by_contra hnot
        rw [toll, if_neg hnot] at h
        omega
      intro u hu
      rcases List.mem_cons.mp hu with rfl | hu
      · exact hboth.1
      · rcases rest with _ | ⟨w', rest⟩
        · rw [List.mem_singleton.mp hu]
          exact hboth.2
        · exact ih (by simp) h.2 u hu

/-- The chain of several ranges without `x` that pays the fewest tolls. -/
theorem exists_fewest_tolls (a : List V) {b : List V} (hb : Chain start stop layout last b)
    (hx : x ∉ b) (hlen : 2 ≤ b.length) :
    ∃ d, Chain start stop layout last d ∧ x ∉ d ∧ 2 ≤ d.length ∧
      ∀ c, Chain start stop layout last c → x ∉ c → 2 ≤ c.length → tolls a d ≤ tolls a c := by
  let without := {d : List V | Chain start stop layout last d ∧ x ∉ d ∧ 2 ≤ d.length}
  obtain ⟨d, ⟨hd, hxd, hdlen⟩, hmin⟩ :=
    (measure (tolls a)).wf.has_min without ⟨b, hb, hx, hlen⟩
  exact ⟨d, hd, hxd, hdlen, fun c hc hxc hclen => not_lt.mp (hmin c ⟨hc, hxc, hclen⟩)⟩

/-- The weights: two thirds of the tolls for `x`, and all of them for a range that covers
everything and is not on the chain. -/
def weight_for (start stop : V → Int) (last : Int) (a : List V) (x : V) (n : Nat) (v : V) : Rat :=
  if v = x then 2 / 3 * n
  else if v ∉ a ∧ start v = 0 ∧ stop v = last then n
  else 0

def hop_for (a : List V) (v w : V) : Rat := toll a v w

theorem cost_of_weights {weight : V → Rat} (a : List V) (c : List V) :
    cost weight (hop_for a) c = (c.map weight).sum + tolls a c := by
  induction c with
  | nil => simp [cost, tolls]
  | cons v rest ih =>
    rcases rest with _ | ⟨w, rest⟩
    · simp [cost, tolls]
    · simp only [cost, ih, tolls, hop_for, List.map_cons, List.sum_cons]
      push_cast
      ring

theorem weight_for_nonneg (last : Int) (a : List V) (x : V) (n : Nat) (v : V) :
    0 ≤ weight_for start stop last a x n v := by
  unfold weight_for
  split
  · positivity
  · split
    · positivity
    · exact le_refl _

/-- The sum over a chain with `x` on it, of a weight that vanishes elsewhere on the chain. -/
theorem sum_eq_of_zero {f : V → Rat} (hnodup : c.Nodup) (hx : x ∈ c)
    (h : ∀ v ∈ c, v ≠ x → f v = 0) : (c.map f).sum = f x := by
  rw [← List.sum_toFinset _ hnodup]
  refine Finset.sum_eq_single x (fun v hv hne => h v (List.mem_toFinset.mp hv) hne) fun hnot => ?_
  exact absurd (List.mem_toFinset.mpr hx) hnot

/-- On a layout that is not interchangeable there are weights and hops for which each chain that
the first cost could choose is beaten by another one in the second cost. -/
theorem costs_disagree (hlayout : ∀ v ∈ layout, start v < stop v)
    (hnot : ¬ Interchangeable start stop layout last) :
    ∃ (weight : V → Rat) (hop : V → V → Rat), (∀ v, 0 ≤ weight v) ∧ (∀ v w, 0 ≤ hop v w) ∧
      (∃ c, Chain start stop layout last c) ∧
      ∀ c, Chain start stop layout last c →
        (∀ d, Chain start stop layout last d → cost weight hop c ≤ cost weight hop d) →
        ∃ d, Chain start stop layout last d ∧
          cost (layered start stop weight) hop d < cost (layered start stop weight) hop c := by
  unfold Interchangeable at hnot
  push Not at hnot
  obtain ⟨a, b, ha, hb, hlen, x, hxa, hxb, hmany⟩ := hnot
  obtain ⟨d, hd, hxd, hdlen, hfewest⟩ := exists_fewest_tolls a hb hxb hlen
  have htwo : 2 ≤ stop x - start x := by
    have := ha.pos hlayout x hxa
    omega
  have hn : 1 ≤ tolls a d := by
    by_contra hzero
    have hsub := mem_of_no_toll hdlen (by omega : tolls a d = 0)
    have heq := hd.tiles.eq_of_subset (hd.pos hlayout) (ha.pos hlayout) ha.tiles hsub
    exact hxd (heq ▸ hxa)
  have hn' : (1 : Rat) ≤ (tolls a d : Rat) := by exact_mod_cast hn
  let weight := weight_for start stop last a x (tolls a d)
  have hwx : weight x = 2 / 3 * (tolls a d : Rat) := by
    show weight_for start stop last a x (tolls a d) x = _
    unfold weight_for
    rw [if_pos rfl]
  refine ⟨weight, hop_for a, weight_for_nonneg last a x _, fun v w => Nat.cast_nonneg _, ⟨a, ha⟩, ?_⟩
  intro c hc hleast
  -- The chain `a` pays two thirds of the tolls.
  have hcost_a : cost weight (hop_for a) a = 2 / 3 * (tolls a d : Rat) := by
    rw [cost_of_weights, tolls_self_sub (fun v hv => hv),
      sum_eq_of_zero (ha.tiles.nodup (ha.pos hlayout)) hxa, hwx]
    · simp
    · intro v hv hne
      show weight_for start stop last a x (tolls a d) v = 0
      unfold weight_for
      rw [if_neg hne, if_neg (fun h => h.1 hv)]
  have hle := hleast a ha
  rw [hcost_a, cost_of_weights] at hle
  have hnonneg : 0 ≤ (c.map weight).sum := by
    refine List.sum_nonneg fun y hy => ?_
    obtain ⟨v, _, rfl⟩ := List.mem_map.mp hy
    exact weight_for_nonneg last a x _ v
  -- So the chain that is chosen has `x`.
  have hxc : x ∈ c := by
    by_contra hxc
    by_cases hclen : 2 ≤ c.length
    · have hmost : (tolls a d : Rat) ≤ (tolls a c : Rat) := by
        exact_mod_cast hfewest c hc hxc hclen
      linarith
    · rcases c with _ | ⟨v, _ | ⟨w, rest⟩⟩
      · have hlast : (0 : Int) = last := hc.tiles
        have := hd.tiles.two_layers (hd.pos hlayout) hdlen
        omega
      · have hstart : start v = 0 := hc.tiles.1
        have hstop : stop v = last := hc.tiles.2
        have hva : v ∉ a := by
          intro hva
          have heq := ha.tiles.eq_singleton (ha.pos hlayout) hva hstart hstop
          rw [heq] at hxa
          exact hxc hxa
        have hv : weight v = (tolls a d : Rat) := by
          show weight_for start stop last a x (tolls a d) v = _
          unfold weight_for
          rw [if_neg (fun h : v = x => hxc (h ▸ List.mem_cons_self)), if_pos ⟨hva, hstart, hstop⟩]
        simp only [List.map_cons, List.map_nil, List.sum_cons, List.sum_nil, hv, tolls] at hle
        push_cast at hle
        linarith
      · simp at hclen
  refine ⟨d, hd, ?_⟩
  -- The chain with the fewest tolls pays nothing else.
  have hcost_d : cost (layered start stop weight) (hop_for a) d = (tolls a d : Rat) := by
    rw [cost_of_weights, List.sum_eq_zero, zero_add]
    intro y hy
    obtain ⟨v, hv, rfl⟩ := List.mem_map.mp hy
    have hzero : weight v = 0 := by
      show weight_for start stop last a x (tolls a d) v = 0
      unfold weight_for
      rw [if_neg (fun h : v = x => hxd (h ▸ hv)), if_neg]
      rintro ⟨_, hstart, hstop⟩
      rw [hd.tiles.eq_singleton (hd.pos hlayout) hv hstart hstop] at hdlen
      simp at hdlen
    unfold layered
    rw [hzero, zero_mul]
  -- The chosen chain pays for each layer of `x`.
  have hcost_c : 2 * (2 / 3 * (tolls a d : Rat)) ≤ cost (layered start stop weight) (hop_for a) c := by
    rw [cost_of_weights]
    have hsingle : layered start stop weight x ≤ (c.map (layered start stop weight)).sum := by
      refine List.single_le_sum ?_ _ (List.mem_map_of_mem hxc)
      intro y hy
      obtain ⟨v, hv, rfl⟩ := List.mem_map.mp hy
      have hlayers : (0 : Rat) ≤ ((stop v - start v : Int) : Rat) := by
        have := hc.pos hlayout v hv
        have hnonneg : 0 ≤ stop v - start v := by omega
        exact_mod_cast hnonneg
      exact mul_nonneg (weight_for_nonneg last a x _ v) hlayers
    have hlayers : (2 : Rat) ≤ ((stop x - start x : Int) : Rat) := by exact_mod_cast htwo
    have hx : 2 * (2 / 3 * (tolls a d : Rat)) ≤ layered start stop weight x := by
      unfold layered
      rw [hwx, mul_comm]
      exact mul_le_mul_of_nonneg_left hlayers (by positivity)
    have htolls : (0 : Rat) ≤ (tolls a c : Rat) := Nat.cast_nonneg _
    linarith
  rw [hcost_d]
  linarith

end disagree

end tilings
