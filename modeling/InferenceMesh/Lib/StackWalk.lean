-- The walk over a tree with a stack: the top of the stack is visited, and its
-- children take its place. When every item has one parent and nothing stands
-- below itself, each item below the start is visited once.
import Mathlib

open Relation

namespace stack_walk

variable {α : Type*}

/-- The items in the order in which they are taken from the stack, the top of the stack first.
The last child comes to the top. -/
def walk (children : α → List α) : Nat → List α → List α
  | 0, _ => []
  | _ + 1, [] => []
  | fuel + 1, cur_node :: stack =>
    cur_node :: walk children fuel ((children cur_node).reverse ++ stack)

/-- The first item stands above the second one, or is the same. -/
def Above (children : α → List α) : α → α → Prop := ReflTransGen (fun a b => b ∈ children a)

/-- A part of the items with their children, as a tree has it. -/
structure Forest (children : α → List α) (live : Finset α) : Prop where
  closed : ∀ a ∈ live, ∀ b ∈ children a, b ∈ live
  nodup : ∀ a ∈ live, (children a).Nodup
  parent : ∀ a ∈ live, ∀ b ∈ live, ∀ x, x ∈ children a → x ∈ children b → a = b
  acyclic : ∀ a ∈ live, ∀ b ∈ children a, ¬ Above children b a

variable {children : α → List α} {live : Finset α}

/-- What stands below an item is the item and what stands below its children. -/
theorem below_top {a y : α} :
    Above children a y ↔ y = a ∨ ∃ b ∈ (children a).reverse, Above children b y := by
  constructor
  · intro hay
    rcases ReflTransGen.cases_head hay with heq | ⟨b, hb, hby⟩
    · exact Or.inl heq.symm
    · exact Or.inr ⟨b, List.mem_reverse.mpr hb, hby⟩
  · rintro (rfl | ⟨b, hb, hby⟩)
    · exact ReflTransGen.refl
    · exact ReflTransGen.head (List.mem_reverse.mp hb) hby

namespace Forest

theorem above_live (h : Forest children live) {a b : α} (ha : a ∈ live)
    (hab : Above children a b) : b ∈ live := by
  induction hab with
  | refl => exact ha
  | tail _ hstep ih => exact h.closed _ ih _ hstep

/-- Who stands above a child stands above its parent, or is the child. -/
theorem above_child (h : Forest children live) {a b x : α} (hx : x ∈ live) (ha : a ∈ live)
    (hb : b ∈ children a) (hxb : Above children x b) : x = b ∨ Above children x a := by
  rcases ReflTransGen.cases_tail hxb with heq | ⟨c, hxc, hcb⟩
  · exact Or.inl heq.symm
  · right
    have hc := h.above_live hx hxc
    rw [h.parent a ha c hc b hb hcb]
    exact hxc

/-- No item of the stack stands above another one. -/
def Apart (children : α → List α) (stack : List α) : Prop :=
  stack.Pairwise (fun a b => ¬ Above children a b ∧ ¬ Above children b a)

theorem apart_children (h : Forest children live) {a : α} (ha : a ∈ live) :
    Apart children (children a) := by
  unfold Apart
  apply List.Pairwise.imp_of_mem _ (h.nodup a ha)
  intro b c hb hc hne
  have hb' := h.closed a ha b hb
  have hc' := h.closed a ha c hc
  constructor
  · intro hbc
    rcases h.above_child hb' ha hc hbc with heq | hba
    · exact hne heq
    · exact h.acyclic a ha b hb hba
  · intro hcb
    rcases h.above_child hc' ha hb hcb with heq | hca
    · exact hne heq.symm
    · exact h.acyclic a ha c hc hca

/-- The children in place of the top of the stack. -/
theorem apart_step (h : Forest children live) {a : α} {stack : List α}
    (hlive : ∀ x ∈ a :: stack, x ∈ live) (hapart : Apart children (a :: stack)) :
    Apart children ((children a).reverse ++ stack) := by
  have ha := hlive a List.mem_cons_self
  obtain ⟨hhead, htail⟩ := List.pairwise_cons.mp hapart
  refine List.pairwise_append.mpr ⟨?_, htail, ?_⟩
  · rw [List.pairwise_reverse]
    exact (h.apart_children ha).imp (fun h => ⟨h.2, h.1⟩)
  · intro b hb x hx
    have hb' := List.mem_reverse.mp hb
    have hab : Above children a b := ReflTransGen.single hb'
    obtain ⟨h1, h2⟩ := hhead x hx
    refine ⟨fun hbx => h1 (hab.trans hbx), ?_⟩
    intro hxb
    rcases h.above_child (hlive x (List.mem_cons_of_mem a hx)) ha hb' hxb with rfl | hxa
    · exact h1 hab
    · exact h2 hxa

open Classical in
/-- With enough fuel, the walk visits what stands below the stack, and each item once. -/
theorem walk_spec (h : Forest children live) (fuel : Nat) (stack : List α)
    (hlive : ∀ x ∈ stack, x ∈ live) (hapart : Apart children stack)
    (hfuel : (live.filter (fun y => ∃ x ∈ stack, Above children x y)).card ≤ fuel) :
    (walk children fuel stack).Nodup ∧
      ∀ y, y ∈ walk children fuel stack ↔ ∃ x ∈ stack, Above children x y := by
  induction fuel generalizing stack with
  | zero =>
    have hnone : stack = [] := by
      rcases stack with _ | ⟨a, stack⟩
      · rfl
      · have hmem : a ∈ live.filter (fun y => ∃ x ∈ a :: stack, Above children x y) :=
          Finset.mem_filter.mpr ⟨hlive a List.mem_cons_self, a, List.mem_cons_self,
            ReflTransGen.refl⟩
        have hpos := Finset.card_pos.mpr ⟨a, hmem⟩
        omega
    subst hnone
    simp [walk]
  | succ fuel ih =>
    rcases stack with _ | ⟨a, stack⟩
    · simp [walk]
    · have ha := hlive a List.mem_cons_self
      have hlive' : ∀ x ∈ (children a).reverse ++ stack, x ∈ live := by
        intro x hx
        rcases List.mem_append.mp hx with hx | hx
        · exact h.closed a ha x (List.mem_reverse.mp hx)
        · exact hlive x (List.mem_cons_of_mem a hx)
      have hsplit : ∀ y, (∃ x ∈ a :: stack, Above children x y) ↔
          y = a ∨ ∃ x ∈ (children a).reverse ++ stack, Above children x y := by
        intro y
        simp only [List.mem_cons, List.mem_append, or_and_right, exists_or, exists_eq_left]
        rw [below_top, or_assoc]
      have hnot : ¬ ∃ x ∈ (children a).reverse ++ stack, Above children x a := by
        rintro ⟨x, hx, hxa⟩
        rcases List.mem_append.mp hx with hx | hx
        · exact h.acyclic a ha x (List.mem_reverse.mp hx) hxa
        · exact ((List.pairwise_cons.mp hapart).1 x hx).2 hxa
      have hcard : (live.filter (fun y => ∃ x ∈ (children a).reverse ++ stack,
          Above children x y)).card < (live.filter (fun y => ∃ x ∈ a :: stack,
            Above children x y)).card := by
        apply Finset.card_lt_card
        rw [Finset.ssubset_iff_of_subset]
        · exact ⟨a, Finset.mem_filter.mpr ⟨ha, a, List.mem_cons_self, ReflTransGen.refl⟩,
            fun hmem => hnot (Finset.mem_filter.mp hmem).2⟩
        · intro y hy
          obtain ⟨hy, hbelow⟩ := Finset.mem_filter.mp hy
          exact Finset.mem_filter.mpr ⟨hy, (hsplit y).mpr (Or.inr hbelow)⟩
      obtain ⟨hnodup, hmem⟩ := ih _ hlive' (h.apart_step hlive hapart) (by omega)
      constructor
      · refine List.nodup_cons.mpr ⟨?_, hnodup⟩
        rw [hmem]
        exact hnot
      · intro y
        show y ∈ a :: walk children fuel _ ↔ _
        rw [List.mem_cons, hmem, hsplit]

/-- The walk from one item. -/
theorem walk_from (h : Forest children live) {a : α} (ha : a ∈ live) {fuel : Nat}
    (hfuel : live.card ≤ fuel) :
    (walk children fuel [a]).Nodup ∧ ∀ y, y ∈ walk children fuel [a] ↔ Above children a y := by
  classical
  have hspec := h.walk_spec fuel [a] (by simpa using ha) (List.pairwise_singleton _ a)
    ((Finset.card_filter_le _ _).trans hfuel)
  simpa using hspec

end Forest

end stack_walk
