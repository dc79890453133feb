-- Eviction. A leaf that is not locked goes, the one that was not used for the
-- longest time first, and its parent may be the next leaf. What is locked
-- stays, and the loop ends early only when nothing else is left.
import InferenceMesh.Cache.RadixLocks

open ordered_dict python state_exn stack_walk prefix_store

namespace parallax.server.radix_cache

variable {κ : Type}

/-! ## One leaf -/

def Childless (c : RadixCache κ) (r : Ref) : Prop :=
  ∀ token, (c.node r).children.get? token = none

/-- All of a node but its children. -/
def TreeNode.item (n : TreeNode κ) : Option Ref × List Int × List Int × Option (List κ) × Nat :=
  (n.parent, n.key, n.value, n.kv_cache, n.lock_ref)

namespace TreeNode

variable {n n' : TreeNode κ}

theorem item_parent (h : n'.item = n.item) : n'.parent = n.parent := congrArg Prod.fst h

theorem item_key (h : n'.item = n.item) : n'.key = n.key := congrArg (fun x => x.2.1) h

theorem item_value (h : n'.item = n.item) : n'.value = n.value := congrArg (fun x => x.2.2.1) h

theorem item_kv_cache (h : n'.item = n.item) : n'.kv_cache = n.kv_cache :=
  congrArg (fun x => x.2.2.2.1) h

theorem item_lock_ref (h : n'.item = n.item) : n'.lock_ref = n.lock_ref :=
  congrArg (fun x => x.2.2.2.2) h

end TreeNode

section

variable {c c' : RadixCache κ} {line : Ref → Line} {live : Finset Ref} {held : List (List Int)}
  {x : Ref}

theorem childless_iff : (c.node x).children.size = 0 ↔ Childless c x := by
  unfold Childless
  constructor
  · intro h token
    rw [Dict.get?_eq_none, Dict.keys, List.length_eq_zero_iff.mp h]
    exact List.not_mem_nil
  · intro h
    apply List.length_eq_zero_iff.mpr
    rw [List.eq_nil_iff_forall_not_mem]
    rintro ⟨token, r⟩ hmem
    have hget := Dict.get?_eq_some.mpr hmem
    rw [h token] at hget
    cases hget

/-- One node has left its parent. -/
structure Dropped (c c' : RadixCache κ) (live : Finset Ref) (x : Ref) : Prop where
  root : c'.root_node = c.root_node
  counter : c'.counter = c.counter
  evictable : c'.evictable_size_ = c.evictable_size_ - (c.node x).key.length
  protected_size : c'.protected_size_ = c.protected_size_
  item : ∀ r, (c'.node r).item = (c.node r).item
  children : ∀ r ∈ live, ∀ token y, (c'.node r).children.get? token = some y ↔
    (c.node r).children.get? token = some y ∧ y ≠ x

/-- The state after a leaf was taken from its parent, where it had the given token. -/
def without_child (c : RadixCache κ) (p x : Ref) (token : Int) : RadixCache κ :=
  { c.modify_node p (fun m => { m with children := m.children.erase token }) with
    evictable_size_ := c.evictable_size_ - (c.node x).key.length }

/-- The parent has the leaf under one token only, which the search finds. -/
theorem delete_leaf_eq (ht : Tree c line live) {p : Ref} (hp : p ∈ live) (hchild : IsChild c p x)
    {token : Int} (hget : (c.node p).children.get? token = some x) :
    delete_leaf x c = .ok p (without_child c p x token) := by
  have hsome : ∃ y, (c.node p).children.items.find? (fun y => y.2 = x) = some y := by
    rw [← Option.isSome_iff_exists, List.find?_isSome]
    exact ⟨(token, x), Dict.get?_eq_some.mp hget, by simp⟩
  obtain ⟨⟨token', y⟩, hfind⟩ := hsome
  have hy : y = x := by simpa using List.find?_some hfind
  subst hy
  have hget' : (c.node p).children.get? token' = some y :=
    Dict.get?_eq_some.mpr (List.mem_of_find?_eq_some hfind)
  have htoken : token' = token := by
    obtain ⟨_, _, _, _, _, rest, hkey⟩ := ht.child hp hget
    obtain ⟨_, _, _, _, _, rest', hkey'⟩ := ht.child hp hget'
    rw [hkey] at hkey'
    exact (List.cons.inj hkey').1.symm
  subst htoken
  have hkey : ((c.modify_node p (fun m => { m with children := m.children.erase token' })).node
      y).key = (c.node y).key := by
    by_cases hyp : y = p
    · subst hyp
      simp [RadixCache.modify_node]
    · simp [RadixCache.modify_node, hyp]
  unfold delete_leaf without_child
  rw [get_bind, hchild.parent]
  dsimp only
  rw [hfind, set_bind, hkey]
  rfl

theorem without_child_dropped (ht : Tree c line live) {p : Ref} (hchild : IsChild c p x)
    {token : Int} (hget : (c.node p).children.get? token = some x) :
    Dropped c (without_child c p x token) live x := by
  refine ⟨rfl, rfl, rfl, rfl, ?_, ?_⟩
  · intro r
    by_cases hr : r = p
    · subst hr
      simp [without_child, RadixCache.modify_node, TreeNode.item]
    · simp [without_child, RadixCache.modify_node, hr]
  · intro r hr token' y
    by_cases hrp : r = p
    · subst hrp
      have hchildren : ((without_child c r x token).node r).children =
          (c.node r).children.erase token := by
        simp [without_child, RadixCache.modify_node]
      obtain ⟨_, _, _, _, _, rest, hkey⟩ := ht.child hr hget
      rw [hchildren, Dict.get?_erase]
      split
      · rename_i heq
        subst heq
        constructor
        · intro hnone
          cases hnone
        · rintro ⟨hsome, hne⟩
          rw [hget] at hsome
          exact absurd (Option.some.inj hsome).symm hne
      · rename_i hne
        constructor
        · intro hsome
          refine ⟨hsome, ?_⟩
          rintro rfl
          obtain ⟨_, _, _, _, _, rest', hkey'⟩ := ht.child hr hsome
          rw [hkey] at hkey'
          exact hne (List.cons.inj hkey').1
        · rintro ⟨hsome, _⟩
          exact hsome
    · have hchildren : ((without_child c p x token).node r).children = (c.node r).children := by
        simp [without_child, RadixCache.modify_node, hrp]
      rw [hchildren]
      constructor
      · intro hsome
        refine ⟨hsome, ?_⟩
        rintro rfl
        have hparent := (ht.child hr hsome).2.2.1.parent
        rw [hchild.parent] at hparent
        exact hrp (Option.some.inj hparent).symm
      · rintro ⟨hsome, _⟩
        exact hsome

theorem delete_leaf.spec (ht : Tree c line live) (hx : x ∈ live) (hroot : x ≠ c.root_node) :
    Triple (fun s => s = c) (delete_leaf x)
      (fun p c' => p ∈ live ∧ IsChild c p x ∧ Dropped c c' live x) (fun _ _ => False) := by
  obtain ⟨p, hp, hchild, _⟩ := ht.parent hx hroot
  obtain ⟨token, _, _, hget⟩ := hchild.first
  rintro s rfl
  rw [delete_leaf_eq ht hp hchild hget]
  exact ⟨hp, hchild, without_child_dropped ht hchild hget⟩

section

variable (hd : Dropped c c' live x)
include hd

theorem drop_tree (ht : Tree c line live) (hroot : x ≠ c.root_node) (hleaf : Childless c x) :
    Tree c' line (live.erase x) := by
  refine ⟨?_, ?_, ?_, ?_, ?_, ?_, ?_⟩
  · rw [hd.root]
    exact Finset.mem_erase.mpr ⟨hroot.symm, ht.root_live⟩
  · rw [hd.root]
    exact ht.root_line
  · rw [hd.root, TreeNode.item_key (hd.item _)]
    exact ht.root_key
  · intro r hr
    rw [hd.counter]
    exact ht.created r (Finset.mem_of_mem_erase hr)
  · intro r hr
    rw [TreeNode.item_value (hd.item r), TreeNode.item_key (hd.item r)]
    exact ht.sized r (Finset.mem_of_mem_erase hr)
  · intro r hr hne
    rw [hd.root] at hne
    obtain ⟨hrx, hr⟩ := Finset.mem_erase.mp hr
    obtain ⟨p, hp, hchild, hline⟩ := ht.up r hr hne
    obtain ⟨token, rest, hkey, hget⟩ := hchild.first
    have hpx : p ≠ x := by
      rintro rfl
      rw [hleaf token] at hget
      cases hget
    refine ⟨p, Finset.mem_erase.mpr ⟨hpx, hp⟩, ⟨?_, token, rest, ?_, ?_⟩, ?_⟩
    · rw [TreeNode.item_parent (hd.item r)]
      exact hchild.parent
    · rw [TreeNode.item_key (hd.item r)]
      exact hkey
    · exact (hd.children p hp token r).mpr ⟨hget, hrx⟩
    · rw [hline, TreeNode.edge, TreeNode.edge, TreeNode.item_value (hd.item r),
        TreeNode.item_key (hd.item r)]
  · intro p hp token r hget
    obtain ⟨hget, hrx⟩ := (hd.children p (Finset.mem_of_mem_erase hp) token r).mp hget
    obtain ⟨hr, hne, hparent, hkey⟩ := ht.down p (Finset.mem_of_mem_erase hp) token r hget
    rw [hd.root, TreeNode.item_parent (hd.item r), TreeNode.item_key (hd.item r)]
    exact ⟨Finset.mem_erase.mpr ⟨hrx, hr⟩, hne, hparent, hkey⟩

theorem drop_counted (hcounted : Counted c live) (hx : x ∈ live)
    (hfree : (c.node x).lock_ref = 0) : Counted c' (live.erase x) := by
  have hsize : ∀ r, (c'.node r).free_size = (c.node r).free_size ∧
      (c'.node r).bound_size = (c.node r).bound_size := by
    intro r
    unfold TreeNode.free_size TreeNode.bound_size
    rw [TreeNode.item_lock_ref (hd.item r), TreeNode.item_key (hd.item r)]
    exact ⟨rfl, rfl⟩
  constructor
  · have hself : (c.node x).free_size = (c.node x).key.length := if_pos hfree
    have hsum := Finset.add_sum_erase live (fun r => (c.node r).free_size) hx
    rw [hd.evictable, hcounted.evictable, Finset.sum_congr rfl (fun r _ => (hsize r).1)]
    omega
  · have hself : (c.node x).bound_size = 0 := if_pos hfree
    have hsum := Finset.add_sum_erase live (fun r => (c.node r).bound_size) hx
    rw [hd.protected_size, hcounted.protected_size, Finset.sum_congr rfl (fun r _ => (hsize r).2)]
    omega

theorem drop_locked (hlocked : Locked c line live held) (hx : x ∈ live) (hroot : x ≠ c.root_node)
    (hfree : (c.node x).lock_ref = 0) : Locked c' line (live.erase x) held := by
  refine ⟨?_, ?_, ?_⟩
  · rw [hd.root, TreeNode.item_lock_ref (hd.item _)]
    exact hlocked.root
  · intro r hr hne
    rw [hd.root] at hne
    rw [TreeNode.item_lock_ref (hd.item r)]
    exact hlocked.count r (Finset.mem_of_mem_erase hr) hne
  · intro q hq
    obtain ⟨r, hr, rfl⟩ := hlocked.held_live q hq
    refine ⟨r, Finset.mem_erase.mpr ⟨?_, hr⟩, rfl⟩
    rintro rfl
    have hcount := hlocked.count r hx hroot
    rw [hfree, eq_comm, List.countP_eq_zero] at hcount
    exact hcount _ hq (by simp)

theorem drop_linked (h : Linked c line live held) (hx : x ∈ live) (hroot : x ≠ c.root_node)
    (hleaf : Childless c x) (hfree : (c.node x).lock_ref = 0) :
    Linked c' line (live.erase x) held :=
  ⟨drop_tree hd h.tree hroot hleaf, drop_counted hd h.counted hx hfree,
    drop_locked hd h.locked hx hroot hfree⟩

end

/-! ## The loop -/

/-- Some nodes have left the tree. The others are as they were, but for their children. -/
structure Evicted (c c' : RadixCache κ) (live live' : Finset Ref) : Prop where
  root : c'.root_node = c.root_node
  protected_size : c'.protected_size_ = c.protected_size_
  fewer : live' ⊆ live
  unlocked : ∀ r ∈ live, r ∉ live' → (c.node r).lock_ref = 0
  item : ∀ r, (c'.node r).item = (c.node r).item

theorem Evicted.refl (c : RadixCache κ) (live : Finset Ref) : Evicted c c live live :=
  ⟨rfl, rfl, Finset.Subset.refl _, fun _ hr hno => absurd hr hno, fun _ => rfl⟩

theorem Evicted.trans {c₁ : RadixCache κ} {live₁ live₂ : Finset Ref} (h : Evicted c c₁ live live₁)
    (h' : Evicted c₁ c' live₁ live₂) : Evicted c c' live live₂ := by
  refine ⟨h'.root.trans h.root, h'.protected_size.trans h.protected_size,
    h'.fewer.trans h.fewer, ?_, fun r => (h'.item r).trans (h.item r)⟩
  intro r hr hno
  by_cases hr₁ : r ∈ live₁
  · have hlock := h'.unlocked r hr₁ hno
    rw [TreeNode.item_lock_ref (h.item r)] at hlock
    exact hlock
  · exact h.unlocked r hr hr₁

theorem Dropped.evicted (hd : Dropped c c' live x) (hfree : (c.node x).lock_ref = 0) :
    Evicted c c' live (live.erase x) := by
  refine ⟨hd.root, hd.protected_size, Finset.erase_subset _ _, ?_, hd.item⟩
  intro r hr hno
  have hrx : r = x := by
    by_contra hne
    exact hno (Finset.mem_erase.mpr ⟨hne, hr⟩)
  rw [hrx]
  exact hfree

/-- The heap has leaves only, and all of those that may go. -/
structure Leaves (c : RadixCache κ) (live : Finset Ref) (leaves : List Ref) : Prop where
  nodup : leaves.Nodup
  leaf : ∀ r ∈ leaves, r ∈ live ∧ Childless c r
  all : ∀ r ∈ live, r ≠ c.root_node → Childless c r → (c.node r).lock_ref = 0 → r ∈ leaves

/-- Below a node that is not locked there is a leaf that is not locked. -/
theorem unlocked_leaf (h : Linked c line live held) {r : Ref} (hr : r ∈ live)
    (hroot : r ≠ c.root_node) (hfree : (c.node r).lock_ref = 0) :
    ∃ y ∈ live, y ≠ c.root_node ∧ Childless c y ∧ (c.node y).lock_ref = 0 := by
  obtain ⟨y, hy, hry, hleaf⟩ := h.tree.leaf_below hr
  have hyroot : y ≠ c.root_node := by
    rintro rfl
    rw [h.tree.tokens_root, List.prefix_nil] at hry
    exact hroot (h.tree.tokens_injective hr hy (hry.trans h.tree.tokens_root.symm))
  refine ⟨y, hy, hyroot, hleaf, ?_⟩
  rw [h.locked.count r hr hroot, List.countP_eq_zero] at hfree
  rw [h.locked.count y hy hyroot, List.countP_eq_zero]
  intro q hq hyq
  rw [decide_eq_true_eq] at hyq
  exact hfree q hq (decide_eq_true (hry.trans hyq))

/-- Without a leaf that may go nothing can be evicted. -/
theorem nothing_evictable (h : Linked c line live held)
    (hno : ∀ r ∈ live, r ≠ c.root_node → Childless c r → (c.node r).lock_ref ≠ 0) :
    c.evictable_size_ = 0 := by
  rw [h.counted.evictable, Finset.sum_eq_zero, Nat.cast_zero]
  intro r hr
  by_cases hroot : r = c.root_node
  · rw [hroot, TreeNode.free_size, h.tree.root_key]
    split
    · rfl
    · rfl
  · apply if_neg
    intro hfree
    obtain ⟨y, hy, hyroot, hleaf, hyfree⟩ := unlocked_leaf h hr hroot hfree
    exact hno y hy hyroot hleaf hyfree

/-- A root without children stands alone. -/
theorem root_alone (ht : Tree c line live) (hleaf : Childless c c.root_node) {r : Ref}
    (hr : r ∈ live) : r = c.root_node := by
  have habove : Above (Tree.children c) c.root_node r := by
    apply ht.above_of_tokens ht.root_live hr
    rw [ht.tokens_root]
    exact List.nil_prefix
  rcases Relation.ReflTransGen.cases_head habove with heq | ⟨y, hy, _⟩
  · exact heq.symm
  · obtain ⟨token, hget⟩ := Tree.mem_children.mp hy
    rw [hleaf token] at hget
    cases hget

/-- The leaves that are left when one has gone, with its parent when that is a leaf now. -/
theorem leaves_after_drop {p : Ref} {rest leaves : List Ref} (ht : Tree c line live)
    (hd : Dropped c c' live x) (hp : p ∈ live) (hchild : IsChild c p x)
    (hl : Leaves c live leaves) (hperm : (x :: rest).Perm leaves) {after : List Ref}
    (hafter : after.Perm (if (c'.node p).children.size = 0 then p :: rest else rest)) :
    Leaves c' (live.erase x) after := by
  obtain ⟨token, _, _, hget⟩ := hchild.first
  have hnodup : (x :: rest).Nodup := hperm.nodup_iff.mpr hl.nodup
  have hxrest : x ∉ rest := (List.nodup_cons.mp hnodup).1
  have hpx : p ≠ x := by
    rintro rfl
    have hlt := ht.length_lt_child hp hget
    omega
  have hrest : ∀ r ∈ rest, r ∈ live ∧ Childless c r :=
    fun r hr => hl.leaf r (hperm.mem_iff.mp (List.mem_cons_of_mem _ hr))
  have hprest : p ∉ rest := by
    intro hmem
    have hnone := (hrest p hmem).2 token
    rw [hget] at hnone
    cases hnone
  have hchildless : ∀ r ∈ live, Childless c r → Childless c' r := by
    intro r hr hleaf token'
    rw [Option.eq_none_iff_forall_ne_some]
    intro y hy
    have hy' := ((hd.children r hr token' y).mp hy).1
    rw [hleaf token'] at hy'
    cases hy'
  have hback : ∀ r ∈ live, r ≠ p → Childless c' r → Childless c r := by
    intro r hr hrp hleaf token'
    rw [Option.eq_none_iff_forall_ne_some]
    intro y hy
    by_cases hyx : y = x
    · subst hyx
      have hparent := (ht.child hr hy).2.2.1.parent
      rw [hchild.parent] at hparent
      exact hrp (Option.some.inj hparent).symm
    · have hy' := (hd.children r hr token' y).mpr ⟨hy, hyx⟩
      rw [hleaf token'] at hy'
      cases hy'
  have hrest' : ∀ r ∈ rest, r ∈ live.erase x ∧ Childless c' r := by
    intro r hr
    obtain ⟨hlive, hleaf⟩ := hrest r hr
    refine ⟨Finset.mem_erase.mpr ⟨?_, hlive⟩, hchildless r hlive hleaf⟩
    rintro rfl
    exact hxrest hr
  have hall : ∀ r ∈ live.erase x, r ≠ p → r ≠ c'.root_node → Childless c' r →
      (c'.node r).lock_ref = 0 → r ∈ rest := by
    intro r hr hrp hroot hleaf hfree
    obtain ⟨hrx, hr⟩ := Finset.mem_erase.mp hr
    rw [hd.root] at hroot
    rw [TreeNode.item_lock_ref (hd.item r)] at hfree
    have hmem := hperm.mem_iff.mpr (hl.all r hr hroot (hback r hr hrp hleaf) hfree)
    exact (List.mem_cons.mp hmem).resolve_left hrx
  split at hafter
  · rename_i hsize
    refine ⟨hafter.nodup_iff.mpr (List.nodup_cons.mpr ⟨hprest, (List.nodup_cons.mp hnodup).2⟩),
      ?_, ?_⟩
    · intro r hr
      rcases List.mem_cons.mp (hafter.mem_iff.mp hr) with rfl | hr
      · exact ⟨Finset.mem_erase.mpr ⟨hpx, hp⟩, childless_iff.mp hsize⟩
      · exact hrest' r hr
    · intro r hr hroot hleaf hfree
      rw [hafter.mem_iff, List.mem_cons]
      by_cases hrp : r = p
      · exact Or.inl hrp
      · exact Or.inr (hall r hr hrp hroot hleaf hfree)
  · rename_i hsize
    refine ⟨hafter.nodup_iff.mpr (List.nodup_cons.mp hnodup).2, ?_, ?_⟩
    · intro r hr
      exact hrest' r (hafter.mem_iff.mp hr)
    · intro r hr hroot hleaf hfree
      rw [hafter.mem_iff]
      refine hall r hr ?_ hroot hleaf hfree
      rintro rfl
      exact hsize (childless_iff.mpr hleaf)

theorem evict_loop.spec (num_tokens : Int) (fuel : Nat) (h : Linked c line live held)
    {leaves : List Ref} (hl : Leaves c live leaves) (hfuel : leaves.length + live.card ≤ fuel)
    (num_evicted : Int) :
    Triple (fun s => s = c) (evict_loop num_tokens fuel leaves num_evicted)
      (fun _ c' => ∃ live', Linked c' line live' held ∧ Evicted c c' live live' ∧
        (num_tokens ≤ num_evicted + (c.evictable_size_ - c'.evictable_size_) ∨
          c'.evictable_size_ = 0)) (fun _ _ => False) := by
  induction fuel generalizing c live leaves num_evicted with
  | zero =>
    have hcard : live.card = 0 := by omega
    have hroot := h.tree.root_live
    rw [Finset.card_eq_zero.mp hcard] at hroot
    cases hroot
  | succ fuel ih =>
    rintro s rfl
    unfold evict_loop
    rw [get_bind]
    dsimp only
    by_cases henough : num_evicted < num_tokens
    · rw [if_pos henough]
      rcases hpop : binary_heap.heappop (fun r => (s.node r).last_access_time) leaves with
        _ | ⟨x, rest⟩
      · have hnil := binary_heap.heappop_eq_none.mp hpop
        refine ⟨live, h, .refl s live, Or.inr (nothing_evictable h ?_)⟩
        intro r hr hroot hleaf hfree
        have hmem := hl.all r hr hroot hleaf hfree
        rw [hnil] at hmem
        cases hmem
      · have hperm := binary_heap.heappop_perm hpop
        have hlen : leaves.length = rest.length + 1 := hperm.length_eq.symm
        obtain ⟨hx, hleaf⟩ := hl.leaf x (hperm.mem_iff.mp List.mem_cons_self)
        dsimp only
        by_cases hroot : x = s.root_node
        · rw [if_pos hroot]
          refine ⟨live, h, .refl s live, Or.inr (nothing_evictable h ?_)⟩
          intro r hr hrroot
          exact absurd (root_alone h.tree (hroot ▸ hleaf) hr) hrroot
        · rw [if_neg hroot]
          by_cases hlock : (s.node x).lock_ref > 0
          · -- A locked leaf leaves the heap and stays in the tree.
            rw [if_pos hlock]
            refine ih h ⟨?_, ?_, ?_⟩ (by omega) num_evicted s rfl
            · exact (List.nodup_cons.mp (hperm.nodup_iff.mpr hl.nodup)).2
            · intro r hr
              exact hl.leaf r (hperm.mem_iff.mp (List.mem_cons_of_mem _ hr))
            · intro r hr hrroot hrleaf hfree
              have hmem := hperm.mem_iff.mpr (hl.all r hr hrroot hrleaf hfree)
              apply (List.mem_cons.mp hmem).resolve_left
              rintro rfl
              omega
          · rw [if_neg hlock]
            have hfree : (s.node x).lock_ref = 0 := by omega
            refine Triple.bind (Triple.mono (delete_leaf.spec h.tree hx hroot) (fun _ h => h)
              (fun _ _ h => h) (fun _ _ h => h)) ?_ s rfl
            rintro p s₁ ⟨hp, hchild, hd⟩
            rw [get_bind]
            have h₁ := drop_linked hd h hx hroot hleaf hfree
            have hcard : (live.erase x).card + 1 = live.card := Finset.card_erase_add_one hx
            have hsized := h.tree.sized x hx
            have hstep : ∀ after : List Ref,
                after.Perm (if (s₁.node p).children.size = 0 then p :: rest else rest) →
                after.length ≤ rest.length + 1 →
                Triple (fun s => s = s₁)
                  (evict_loop num_tokens fuel after (num_evicted + (s.node x).value.length))
                  (fun _ c' => ∃ live', Linked c' line live' held ∧ Evicted s c' live live' ∧
                    (num_tokens ≤ num_evicted + (s.evictable_size_ - c'.evictable_size_) ∨
                      c'.evictable_size_ = 0)) (fun _ _ => False) := by
              intro after hafter hshort
              refine Triple.mono (ih h₁ (leaves_after_drop h.tree hd hp hchild hl hperm hafter)
                (by omega) _) (fun _ h => h) ?_ (fun _ _ h => h)
              rintro _ c' ⟨live', hlinked, hevicted, hdone⟩
              refine ⟨live', hlinked, (hd.evicted hfree).trans hevicted, ?_⟩
              have hev := hd.evictable
              rcases hdone with hdone | hdone
              · left
                omega
              · exact Or.inr hdone
            dsimp only
            by_cases hsize : (s₁.node p).children.size = 0
            · have hpush := binary_heap.heappush_perm (fun r => (s.node r).last_access_time) rest p
              rw [if_pos hsize] at hstep ⊢
              exact hstep _ hpush hpush.length_eq.le s₁ rfl
            · rw [if_neg hsize] at hstep ⊢
              exact hstep _ (List.Perm.refl _) (Nat.le_succ _) s₁ rfl
    · rw [if_neg henough]
      refine ⟨live, h, .refl s live, Or.inl ?_⟩
      omega

theorem collect_leaves.spec (ht : Tree c line live) : Leaves c live c.collect_leaves := by
  obtain ⟨hnodup, hmem⟩ := ht.tree_nodes_spec
  refine ⟨hnodup.filter _, ?_, ?_⟩
  · intro r hr
    obtain ⟨hr, hsize⟩ := List.mem_filter.mp hr
    exact ⟨(hmem r).mp hr, childless_iff.mp (of_decide_eq_true hsize)⟩
  · intro r hr _ hleaf _
    exact List.mem_filter.mpr ⟨(hmem r).mpr hr, decide_eq_true (childless_iff.mpr hleaf)⟩

theorem Leaves.perm {leaves leaves' : List Ref} (h : Leaves c live leaves)
    (hperm : leaves'.Perm leaves) : Leaves c live leaves' := by
  refine ⟨hperm.nodup_iff.mpr h.nodup, ?_, ?_⟩
  · intro r hr
    exact h.leaf r (hperm.mem_iff.mp hr)
  · intro r hr hroot hleaf hfree
    exact hperm.mem_iff.mpr (h.all r hr hroot hleaf hfree)

/-! ## What is left -/

/-- The sequences that end in nodes which have left the tree. -/
def Gone (c c' : RadixCache κ) (q : List Int) : Prop :=
  ∃ x, x ∈ c.tree_nodes ∧ x ∉ c'.tree_nodes ∧ EndsIn c x q

variable {live' : Finset Ref} {S : PrefixStore Int Int}

/-- Who stands above a node that is left is left as well. -/
theorem Evicted.above (he : Evicted c c' live live') (ht : Tree c line live)
    (ht' : Tree c' line live') {a b : Ref} (ha : a ∈ live) (hab : Above (Tree.children c) a b)
    (hb : b ∈ live') : a ∈ live' := by
  induction hab with
  | refl => exact hb
  | tail hab hstep ih =>
    rename_i p r
    obtain ⟨token, hget⟩ := Tree.mem_children.mp hstep
    obtain ⟨_, hne, hchild, _⟩ := ht.child (ht.above_live ha hab) hget
    obtain ⟨p', hp', hchild', _⟩ := ht'.parent hb (he.root ▸ hne)
    have hparent := hchild'.parent
    rw [TreeNode.item_parent (he.item r), hchild.parent] at hparent
    rw [← Option.some.inj hparent] at hp'
    exact ih hp'

/-- An eviction takes the sequences that end in the nodes it removes, and nothing else. -/
theorem Spells.evict (he : Evicted c c' live live') (ht : Tree c line live)
    (ht' : Tree c' line live') (h : Spells (Lines line live) S) :
    Spells (Lines line live') (S.without (Gone c c')) := by
  have hnodes := ht.tree_nodes_spec.2
  have hnodes' := ht'.tree_nodes_spec.2
  intro p v
  rw [PrefixStore.without_label_some]
  constructor
  · rintro ⟨hlabel, hkept⟩
    obtain ⟨_, ⟨r, hr, rfl⟩, hl⟩ := (h p v).mp hlabel
    obtain ⟨x, hx, hends, hpx, hxr⟩ := ht.exists_endsIn hr hl.ne_nil hl.beginning
    have hx' : x ∈ live' := by
      by_contra hno
      exact hkept p List.prefix_rfl
        ⟨x, (hnodes x).mpr hx, fun hmem => hno ((hnodes' x).mp hmem), hends⟩
    obtain ⟨w, hw⟩ := exists_labels hl.ne_nil hpx
    have hvw := (h p w).mpr ⟨line x, ⟨x, hx, rfl⟩, hw⟩
    rw [hlabel] at hvw
    rw [Option.some.inj hvw]
    exact ⟨line x, ⟨x, hx', rfl⟩, hw⟩
  · rintro ⟨_, ⟨r, hr', rfl⟩, hl⟩
    have hr := he.fewer hr'
    refine ⟨(h p v).mpr ⟨line r, ⟨r, hr, rfl⟩, hl⟩, ?_⟩
    rintro q hqp ⟨x, _, hno, hends⟩
    obtain ⟨hx, habove⟩ := ht.above_of_endsIn hr hends (hqp.trans hl.beginning)
    exact hno ((hnodes' x).mpr (he.above ht ht' hx habove hr'))

/-- What an eviction has done: as many tokens as were asked for are gone, or all that could go. -/
structure Freed (host : Host κ) (line : Ref → Line) (live : Finset Ref) (held : List (List Int))
    (S : PrefixStore Int Int) (num_tokens : Int) (c c' : RadixCache κ) (live' : Finset Ref) :
    Prop where
  sound : Sound host c' line live' held (S.without (Gone c c'))
  evicted : Evicted c c' live live'
  enough : num_tokens ≤ c.evictable_size_ - c'.evictable_size_ ∨ c'.evictable_size_ = 0

theorem evict.spec {host : Host κ} (h : Sound host c line live held S) (num_tokens : Int) :
    Triple (fun s => s = c) (evict num_tokens)
      (fun _ c' => ∃ live', Freed host line live held S num_tokens c c' live')
      (fun _ _ => False) := by
  have ht := h.linked.tree
  have hperm := binary_heap.heapify_perm (fun r => (c.node r).last_access_time) c.collect_leaves
  have hl := (collect_leaves.spec ht).perm hperm
  have hsub : ∀ r ∈ c.collect_leaves, r ∈ live := fun r hr => ((collect_leaves.spec ht).leaf r hr).1
  have hfew : c.collect_leaves.length ≤ live.card := by
    rw [← List.toFinset_card_of_nodup (collect_leaves.spec ht).nodup]
    exact Finset.card_le_card (fun r hr => hsub r (List.mem_toFinset.mp hr))
  have hcard := ht.card_le
  have hfuel : (binary_heap.heapify (fun r => (c.node r).last_access_time) c.collect_leaves).length +
      live.card ≤ 2 * c.counter := by
    rw [hperm.length_eq]
    omega
  rintro s rfl
  unfold evict
  rw [get_bind]
  refine Triple.mono (evict_loop.spec num_tokens _ h.linked hl hfuel 0) (fun _ h => h) ?_
    (fun _ _ h => h) s rfl
  rintro _ c' ⟨live', hlinked, hevicted, hdone⟩
  refine ⟨live', ⟨hlinked, Spells.evict hevicted ht hlinked.tree h.spells, ?_⟩, hevicted, ?_⟩
  · intro hworks r hr hne
    rw [hevicted.root] at hne
    rw [TreeNode.item_kv_cache (hevicted.item r)]
    exact h.cached hworks r (hevicted.fewer hr) hne
  · rw [zero_add] at hdone
    exact hdone

theorem evict_over_limit.spec {host : Host κ} (h : Sound host c line live held S) :
    Triple (fun s => s = c) evict_over_limit
      (fun _ c' => ∃ live' S', Sound host c' line live' held S' ∧ Evicted c c' live live')
      (fun _ _ => False) := by
  have hfree : ∀ n, Triple (fun s => s = c) (evict n)
      (fun _ c' => ∃ live' S', Sound host c' line live' held S' ∧ Evicted c c' live live')
      (fun _ _ => False) := by
    intro n
    refine Triple.mono (evict.spec h n) (fun _ h => h) ?_ (fun _ _ h => h)
    rintro _ c' ⟨live', hfreed⟩
    exact ⟨live', _, hfreed.sound, hfreed.evicted⟩
  rintro s rfl
  unfold evict_over_limit
  rw [get_bind]
  by_cases hlocked : s.protected_size_ > s.max_num_tokens
  · rw [if_pos hlocked]
    exact hfree _ s rfl
  · rw [if_neg hlocked]
    by_cases hall : s.protected_size_ + s.evictable_size_ > s.max_num_tokens
    · rw [if_pos hall]
      exact hfree _ s rfl
    · rw [if_neg hall]
      exact ⟨live, S, h, .refl s live⟩

/-! ## From an empty cache -/

theorem init_sound (host : Host κ) (max_num_tokens : Option Int) :
    Sound host (.init host max_num_tokens) (fun _ => []) {0} [] .empty := by
  have hroot : ∀ r ∈ ({0} : Finset Ref), r = (RadixCache.init host max_num_tokens).root_node :=
    fun r hr => Finset.mem_singleton.mp hr
  refine ⟨⟨⟨Finset.mem_singleton_self _, rfl, rfl, ?_, fun _ _ => rfl, ?_, ?_⟩, ⟨rfl, rfl⟩,
    ⟨rfl, ?_, ?_⟩⟩, ?_, ?_⟩
  · intro r hr
    rw [hroot r hr]
    exact Nat.one_pos
  · intro r hr hne
    exact absurd (hroot r hr) hne
  · intro p _ token r hget
    cases hget
  · intro r hr hne
    exact absurd (hroot r hr) hne
  · intro p hp
    cases hp
  · apply Spells.empty.congr
    · rintro _ rfl
      exact ⟨0, Finset.mem_singleton_self _, rfl⟩
    · rintro _ ⟨r, _, rfl⟩
      exact ⟨[], rfl, List.prefix_rfl⟩
  · intro _ r hr hne
    exact absurd (hroot r hr) hne

/-- An insertion keeps what is in the tree, on either exit. -/
theorem insert_grown {host : Host κ} (h : Sound host c line live held S) {key : List Int}
    (value : Option (List Int)) (hlen : (value.getD key).length = key.length) (kv : List κ) :
    ∃ S' line' live', Grown host line live held S' (stateOf (insert host key value kv c)) line'
      live' := by
  by_cases hkey : key = []
  · subst hkey
    exact ⟨S, line, live, (h.touch c.root_node).grown⟩
  · refine Triple.state (R := fun c' => ∃ S' line' live', Grown host line live held S' c' line' live')
      (Triple.mono (insert.spec h hkey value hlen kv) (fun _ h => h) ?_ ?_) rfl
    · rintro _ c' ⟨line', live', _, _, _, hgrown, _⟩
      exact ⟨_, line', live', hgrown⟩
    · rintro _ c' ⟨_, hgrown⟩
      exact hgrown

/-- A match keeps what is in the tree, on either exit. -/
theorem match_prefix_grown {host : Host κ} (h : Sound host c line live held S) (key : List Int) :
    ∃ line' live', Grown host line live held S (stateOf ( match_prefix host key c)) line' live' := by
  refine Triple.state (R := fun c' => ∃ line' live', Grown host line live held S c' line' live')
    (Triple.mono ( match_prefix.spec h key) (fun _ h => h) ?_ ?_) rfl
  · rintro _ c' ⟨_, line', live', hgrown, _⟩
    exact ⟨line', live', hgrown⟩
  · rintro _ c' ⟨_, hgrown⟩
    exact hgrown

end

end parallax.server.radix_cache
