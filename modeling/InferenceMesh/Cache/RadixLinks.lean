-- What one change of the links does to the tree: a split and a new leaf keep
-- the shape, the two counters, and the locks as the numbers of the locked
-- token sequences that pass through a node.
import InferenceMesh.Cache.RadixTree

open ordered_dict python state_exn stack_walk prefix_store

namespace parallax.server.radix_cache

variable {κ : Type}

/-! ## Counters and locks -/

/-- The tokens of a node that can be evicted. -/
def TreeNode.free_size (n : TreeNode κ) : Nat := if n.lock_ref = 0 then n.key.length else 0

/-- The tokens of a node that are locked. -/
def TreeNode.bound_size (n : TreeNode κ) : Nat := if n.lock_ref = 0 then 0 else n.key.length

/-- The two counters say how many tokens can be evicted and how many are locked. -/
structure Counted (c : RadixCache κ) (live : Finset Ref) : Prop where
  evictable : c.evictable_size_ = (∑ r ∈ live, (c.node r).free_size : Nat)
  protected_size : c.protected_size_ = (∑ r ∈ live, (c.node r).bound_size : Nat)

/-- Each node counts the locked token sequences that pass through it, and all of these end at a
node. -/
structure Locked (c : RadixCache κ) (line : Ref → Line) (live : Finset Ref)
    (held : List (List Int)) : Prop where
  root : (c.node c.root_node).lock_ref = 1
  count : ∀ r ∈ live, r ≠ c.root_node →
    (c.node r).lock_ref = held.countP (fun p => tokens line r <+: p)
  held_live : ∀ p ∈ held, ∃ r ∈ live, tokens line r = p

structure Linked (c : RadixCache κ) (line : Ref → Line) (live : Finset Ref)
    (held : List (List Int)) : Prop where
  tree : Tree c line live
  counted : Counted c live
  locked : Locked c line live held

section

variable {c c' : RadixCache κ} {line line' : Ref → Line} {live live' : Finset Ref}
  {held : List (List Int)}

theorem free_size_eq {n n' : TreeNode κ} (h : n'.links = n.links) : n'.free_size = n.free_size := by
  unfold TreeNode.free_size
  rw [TreeNode.lock_ref_eq h, TreeNode.key_eq h]

theorem bound_size_eq {n n' : TreeNode κ} (h : n'.links = n.links) :
    n'.bound_size = n.bound_size := by
  unfold TreeNode.bound_size
  rw [TreeNode.lock_ref_eq h, TreeNode.key_eq h]

/-- What looks at links alone does not change them: times, KV caches and nodes outside. -/
structure SameLinks (c c' : RadixCache κ) (live : Finset Ref) : Prop where
  root : c'.root_node = c.root_node
  counter : c.counter ≤ c'.counter
  evictable : c'.evictable_size_ = c.evictable_size_
  protected_size : c'.protected_size_ = c.protected_size_
  links : ∀ r ∈ live, (c'.node r).links = (c.node r).links

theorem Linked.congr (h : Linked c line live held) (hs : SameLinks c c' live) :
    Linked c' line live held := by
  refine ⟨h.tree.congr hs.root hs.counter (fun r hr => .of_links (hs.links r hr)), ⟨?_, ?_⟩,
    ⟨?_, ?_, h.locked.held_live⟩⟩
  · rw [hs.evictable, h.counted.evictable]
    exact congrArg _ (Finset.sum_congr rfl (fun r hr => (free_size_eq (hs.links r hr)).symm))
  · rw [hs.protected_size, h.counted.protected_size]
    exact congrArg _ (Finset.sum_congr rfl (fun r hr => (bound_size_eq (hs.links r hr)).symm))
  · rw [hs.root, TreeNode.lock_ref_eq (hs.links _ h.tree.root_live)]
    exact h.locked.root
  · intro r hr hne
    rw [hs.root] at hne
    rw [TreeNode.lock_ref_eq (hs.links r hr)]
    exact h.locked.count r hr hne

theorem touch_same (host : Host κ) (r : Ref) : SameLinks c (c.touch host r) live := by
  refine ⟨rfl, le_rfl, rfl, rfl, ?_⟩
  intro x _
  by_cases hx : x = r
  · subst hx
    simp [RadixCache.touch, RadixCache.modify_node, TreeNode.links]
  · simp [RadixCache.touch, RadixCache.modify_node, hx]

theorem set_kv_cache_same (r : Ref) (kv : List κ) : SameLinks c (c.set_kv_cache r kv) live := by
  refine ⟨rfl, le_rfl, rfl, rfl, ?_⟩
  intro x _
  by_cases hx : x = r
  · subst hx
    simp [RadixCache.set_kv_cache, RadixCache.modify_node, TreeNode.links]
  · simp [RadixCache.set_kv_cache, RadixCache.modify_node, hx]

theorem new_tree_node_same (host : Host κ) (h : ∀ r ∈ live, r < c.counter) :
    SameLinks c (c.new_tree_node host) live := by
  refine ⟨rfl, Nat.le_succ _, rfl, rfl, ?_⟩
  intro x hx
  have hne : x ≠ c.counter := (h x hx).ne
  simp [RadixCache.new_tree_node, hne]

/-- A sum that changes at one node. -/
theorem sum_change (f f' : Ref → Nat) {x : Ref} (hx : x ∈ live)
    (h : ∀ r ∈ live, r ≠ x → f' r = f r) : ∑ r ∈ live, f' r + f x = ∑ r ∈ live, f r + f' x := by
  rw [← Finset.add_sum_erase live f hx, ← Finset.add_sum_erase live f' hx]
  have hrest : ∑ r ∈ live.erase x, f' r = ∑ r ∈ live.erase x, f r := by
    apply Finset.sum_congr rfl
    intro r hr
    exact h r (Finset.mem_of_mem_erase hr) (Finset.ne_of_mem_erase hr)
  rw [hrest]
  omega

/-- A locked sequence that goes on behind a node passes through the child that leads there. -/
theorem Locked.through (h : Locked c line live held) (ht : Tree c line live) {p x : Ref}
    (hp : p ∈ live) {token : Int} (hget : (c.node p).children.get? token = some x)
    {q : List Int} (hq : q ∈ held) (hpq : tokens line p ++ [token] <+: q) : tokens line x <+: q := by
  obtain ⟨r, hr, rfl⟩ := h.held_live q hq
  obtain ⟨y, hy, hyr⟩ := ht.descend hp hr hpq
  rw [hget] at hy
  rwa [Option.some.inj hy]

end

/-! ## A split -/

section split

variable {c : RadixCache κ} {line : Ref → Line} {live : Finset Ref} {held : List (List Int)}
  {child parent : Ref} {first_key child_key : Int} {front back : List Int} {split_len : Nat}

/-- The lines after a split: those of before, and that of the new node. -/
def split_line (c : RadixCache κ) (line : Ref → Line) (new_node child parent : Ref)
    (split_len : Nat) : Ref → Line :=
  Function.update line new_node (line parent ++ (c.node child).edge.take split_len)

/-- What is known when a node is split: it is a child that has more tokens than the new node
gets, and the new node is none of the tree. -/
structure Splits (c : RadixCache κ) (line : Ref → Line) (live : Finset Ref)
    (new_node child parent : Ref) (first_key child_key : Int) (split_len : Nat) : Prop where
  parent_live : parent ∈ live
  listed : (c.node parent).children.get? first_key = some child
  fresh : new_node ∉ live
  created : new_node < c.counter
  front : ∃ rest, (c.node child).key.take split_len = first_key :: rest
  back : ∃ rest, (c.node child).key.drop split_len = child_key :: rest

variable {new_node : Ref}

theorem Splits.ne (h : Splits c line live new_node child parent first_key child_key split_len)
    (ht : Tree c line live) : child ∈ live ∧ parent ≠ child ∧ new_node ≠ child ∧
      new_node ≠ parent := by
  have hlt := ht.length_lt_child h.parent_live h.listed
  have hchild := (ht.child h.parent_live h.listed).1
  refine ⟨hchild, ?_, ?_, ?_⟩
  · rintro rfl
    omega
  · rintro rfl
    exact h.fresh hchild
  · rintro rfl
    exact h.fresh h.parent_live

/-- The nodes after a split. -/
structure SplitNodes (c c' : RadixCache κ) (new_node child parent : Ref)
    (first_key child_key : Int) (split_len : Nat) : Prop where
  upper : (c'.node new_node).links = ((Dict.empty : Dict Int Ref).insert child_key child,
    some parent, (c.node child).key.take split_len, (c.node child).value.take split_len,
    (c.node child).lock_ref)
  lower : (c'.node child).links = ((c.node child).children, some new_node,
    (c.node child).key.drop split_len, (c.node child).value.drop split_len,
    (c.node child).lock_ref)
  above : (c'.node parent).links = ((c.node parent).children.insert first_key new_node,
    (c.node parent).parent, (c.node parent).key, (c.node parent).value, (c.node parent).lock_ref)
  other : ∀ r, r ≠ new_node → r ≠ child → r ≠ parent → (c'.node r).links = (c.node r).links

theorem link_split_nodes (h1 : parent ≠ child) (h2 : new_node ≠ child) (h3 : new_node ≠ parent) :
    SplitNodes c (c.link_split new_node child parent first_key child_key split_len) new_node child
      parent first_key child_key split_len := by
  constructor
  · simp [RadixCache.link_split, RadixCache.modify_node, TreeNode.links, h2, h3]
  · simp [RadixCache.link_split, RadixCache.modify_node, TreeNode.links, h1.symm, h2.symm]
  · simp [RadixCache.link_split, RadixCache.modify_node, TreeNode.links, h1, h3.symm]
  · intro r hn hc hp
    simp [RadixCache.link_split, RadixCache.modify_node, hn, hc, hp]

section after

variable {c' : RadixCache κ}

theorem split_line_new : split_line c line new_node child parent split_len new_node =
    line parent ++ (c.node child).edge.take split_len := Function.update_self _ _ _

section

variable (hn : SplitNodes c c' new_node child parent first_key child_key split_len)
include hn

theorem split_get_upper (token : Int) (r : Ref) :
    (c'.node new_node).children.get? token = some r ↔ token = child_key ∧ r = child := by
  have hchildren : (c'.node new_node).children =
      (Dict.empty : Dict Int Ref).insert child_key child := congrArg Prod.fst hn.upper
  rw [hchildren, Dict.get?_insert]
  split
  · rename_i heq
    constructor
    · intro hsome
      exact ⟨heq.symm, (Option.some.inj hsome).symm⟩
    · rintro ⟨_, rfl⟩
      rfl
  · rename_i hne
    constructor
    · intro hsome
      cases hsome
    · rintro ⟨rfl, _⟩
      exact absurd rfl hne

theorem split_get_parent (token : Int) (r : Ref) :
    (c'.node parent).children.get? token = some r ↔
      (token = first_key ∧ r = new_node) ∨
        (token ≠ first_key ∧ (c.node parent).children.get? token = some r) := by
  have hchildren : (c'.node parent).children =
      (c.node parent).children.insert first_key new_node := congrArg Prod.fst hn.above
  rw [hchildren, Dict.get?_insert]
  split
  · rename_i heq
    constructor
    · intro hsome
      exact Or.inl ⟨heq.symm, (Option.some.inj hsome).symm⟩
    · rintro (⟨_, rfl⟩ | ⟨hne, _⟩)
      · rfl
      · exact absurd heq.symm hne
  · rename_i hne
    constructor
    · intro hsome
      exact Or.inr ⟨fun heq => hne heq.symm, hsome⟩
    · rintro (⟨rfl, _⟩ | ⟨_, hsome⟩)
      · exact absurd rfl hne
      · exact hsome

end

section

variable (h : Splits c line live new_node child parent first_key child_key split_len)
include h

theorem split_line_old {r : Ref} (hr : r ∈ live) :
    split_line c line new_node child parent split_len r = line r := by
  apply Function.update_of_ne
  rintro rfl
  exact h.fresh hr

variable (hn : SplitNodes c c' new_node child parent first_key child_key split_len)
include hn

/-- The node keeps what a split does not look at. -/
theorem split_kept {r : Ref} (hr : r ∈ live) (hne : r ≠ child) :
    (c'.node r).parent = (c.node r).parent ∧ (c'.node r).key = (c.node r).key ∧
      (c'.node r).value = (c.node r).value ∧ (c'.node r).lock_ref = (c.node r).lock_ref := by
  have hnew : r ≠ new_node := by
    rintro rfl
    exact h.fresh hr
  by_cases hp : r = parent
  · subst hp
    exact ⟨congrArg (fun x => x.2.1) hn.above, congrArg (fun x => x.2.2.1) hn.above,
      congrArg (fun x => x.2.2.2.1) hn.above, congrArg (fun x => x.2.2.2.2) hn.above⟩
  · have hlinks := hn.other r hnew hne hp
    exact ⟨TreeNode.parent_eq hlinks, TreeNode.key_eq hlinks, TreeNode.value_eq hlinks,
      TreeNode.lock_ref_eq hlinks⟩

/-- The children of a node are the same, but for those of the new node and its parent. -/
theorem split_children {r : Ref} (hr : r ∈ live) (hp : r ≠ parent) :
    (c'.node r).children = (c.node r).children := by
  have hnew : r ≠ new_node := by
    rintro rfl
    exact h.fresh hr
  by_cases hc : r = child
  · subst hc
    exact congrArg Prod.fst hn.lower
  · exact TreeNode.children_eq (hn.other r hnew hc hp)

end

theorem split_tree (ht : Tree c line live)
    (h : Splits c line live new_node child parent first_key child_key split_len)
    (hn : SplitNodes c c' new_node child parent first_key child_key split_len)
    (hroot : c'.root_node = c.root_node) (hcounter : c.counter ≤ c'.counter) :
    Tree c' (split_line c line new_node child parent split_len)
      (Insert.insert new_node live) := by
  obtain ⟨hchild, hpc, hnc, hnp⟩ := h.ne ht
  obtain ⟨_, hcroot, hcp, hctokens, hcline, _⟩ := ht.child h.parent_live h.listed
  have hold := fun {r : Ref} (hr : r ∈ live) => split_line_old h hr
  have hkept := fun {r : Ref} (hr : r ∈ live) (hne : r ≠ child) =>
    split_kept h hn hr hne
  have hup_key : (c'.node new_node).key = (c.node child).key.take split_len :=
    congrArg (fun x => x.2.2.1) hn.upper
  have hup_value : (c'.node new_node).value = (c.node child).value.take split_len :=
    congrArg (fun x => x.2.2.2.1) hn.upper
  have hlow_key : (c'.node child).key = (c.node child).key.drop split_len :=
    congrArg (fun x => x.2.2.1) hn.lower
  have hlow_value : (c'.node child).value = (c.node child).value.drop split_len :=
    congrArg (fun x => x.2.2.2.1) hn.lower
  have hsized := ht.sized child hchild
  have hupper : (c'.node new_node).edge = (c.node child).edge.take split_len := by
    unfold TreeNode.edge
    rw [hup_key, hup_value]
    exact List.take_zipWith.symm
  have hlower : (c'.node child).edge = (c.node child).edge.drop split_len := by
    unfold TreeNode.edge
    rw [hlow_key, hlow_value]
    exact List.drop_zipWith.symm
  refine ⟨?_, ?_, ?_, ?_, ?_, ?_, ?_⟩
  · rw [hroot]
    exact Finset.mem_insert_of_mem ht.root_live
  · rw [hroot, hold ht.root_live]
    exact ht.root_line
  · rw [hroot, (hkept ht.root_live hcroot.symm).2.1]
    exact ht.root_key
  · intro r hr
    rcases Finset.mem_insert.mp hr with rfl | hr
    · exact h.created.trans_le hcounter
    · exact (ht.created r hr).trans_le hcounter
  · intro r hr
    rcases Finset.mem_insert.mp hr with rfl | hr
    · rw [hup_key, hup_value, List.length_take, List.length_take, hsized]
    · by_cases hrc : r = child
      · subst hrc
        rw [hlow_key, hlow_value, List.length_drop, List.length_drop, hsized]
      · obtain ⟨_, hkey, hvalue, _⟩ := hkept hr hrc
        rw [hkey, hvalue]
        exact ht.sized r hr
  · intro r hr hne
    rw [hroot] at hne
    rcases Finset.mem_insert.mp hr with rfl | hr
    · -- The new node stands below the parent of the child.
      obtain ⟨rest, hfront⟩ := h.front
      refine ⟨parent, Finset.mem_insert_of_mem h.parent_live,
        ⟨congrArg (fun x => x.2.1) hn.upper, first_key, rest, hup_key.trans hfront, ?_⟩, ?_⟩
      · exact (split_get_parent hn _ _).mpr (Or.inl ⟨rfl, rfl⟩)
      · rw [hold h.parent_live, split_line_new, hupper]
    · by_cases hrc : r = child
      · subst hrc
        obtain ⟨rest, hback⟩ := h.back
        refine ⟨new_node, Finset.mem_insert_self _ _,
          ⟨congrArg (fun x => x.2.1) hn.lower, child_key, rest, hlow_key.trans hback, ?_⟩, ?_⟩
        · exact (split_get_upper hn _ _).mpr ⟨rfl, rfl⟩
        · rw [hold hr, split_line_new, hlower, List.append_assoc,
            List.take_append_drop]
          exact hcline
      · obtain ⟨q, hq, hqr, hline⟩ := ht.up r hr hne
        obtain ⟨hparent, hkey, hvalue, _⟩ := hkept hr hrc
        obtain ⟨token, rest, hrkey, hget⟩ := hqr.first
        refine ⟨q, Finset.mem_insert_of_mem hq, ⟨hparent.trans hqr.parent, token, rest,
          hkey.trans hrkey, ?_⟩, ?_⟩
        · by_cases hqp : q = parent
          · subst hqp
            refine (split_get_parent hn _ _).mpr (Or.inr ⟨?_, hget⟩)
            rintro rfl
            rw [h.listed] at hget
            exact hrc (Option.some.inj hget).symm
          · rw [split_children h hn hq hqp]
            exact hget
        · rw [hold hr, hold hq, hline]
          unfold TreeNode.edge
          rw [hkey, hvalue]
  · intro p hp token r hget
    rw [hroot]
    have hother : p ∈ live → (c.node p).children.get? token = some r → r ≠ child →
        r ∈ Insert.insert new_node live ∧ r ≠ c.root_node ∧ (c'.node r).parent = some p ∧
          (c'.node r).key.head? = some token := by
      intro hp' hget' hrc
      obtain ⟨hr, hne, hparent, hkey⟩ := ht.down p hp' token r hget'
      obtain ⟨hparent', hkey', _, _⟩ := hkept hr hrc
      rw [hparent', hkey']
      exact ⟨Finset.mem_insert_of_mem hr, hne, hparent, hkey⟩
    rcases Finset.mem_insert.mp hp with rfl | hp
    · obtain ⟨rfl, rfl⟩ := (split_get_upper hn _ _).mp hget
      obtain ⟨rest, hback⟩ := h.back
      refine ⟨Finset.mem_insert_of_mem hchild, hcroot, congrArg (fun x => x.2.1) hn.lower, ?_⟩
      rw [hlow_key, hback, List.head?_cons]
    · by_cases hpp : p = parent
      · subst hpp
        rcases (split_get_parent hn _ _).mp hget with ⟨rfl, rfl⟩ | ⟨hne, hget'⟩
        · obtain ⟨rest, hfront⟩ := h.front
          refine ⟨Finset.mem_insert_self _ _, ?_, congrArg (fun x => x.2.1) hn.upper, ?_⟩
          · rintro rfl
            exact h.fresh ht.root_live
          · rw [hup_key, hfront, List.head?_cons]
        · apply hother hp hget'
          rintro rfl
          obtain ⟨_, _, _, _, _, rest, hkey⟩ := ht.child hp hget'
          obtain ⟨_, _, _, _, _, rest', hkey'⟩ := ht.child hp h.listed
          rw [hkey] at hkey'
          exact hne (List.cons.inj hkey').1
      · rw [split_children h hn hp hpp] at hget
        apply hother hp hget
        rintro rfl
        exact hpp (Option.some.inj ((ht.child hp hget).2.2.1.parent.symm.trans hcp.parent))

/-- The tokens of the child are shared out over the new node and the child. -/
theorem split_counted (ht : Tree c line live)
    (h : Splits c line live new_node child parent first_key child_key split_len)
    (hn : SplitNodes c c' new_node child parent first_key child_key split_len)
    (hcounted : Counted c live) (hev : c'.evictable_size_ = c.evictable_size_)
    (hpr : c'.protected_size_ = c.protected_size_) :
    Counted c' (Insert.insert new_node live) := by
  have hchild := (h.ne ht).1
  have hlen : ((c.node child).key.take split_len).length +
      ((c.node child).key.drop split_len).length = (c.node child).key.length := by
    rw [← List.length_append, List.take_append_drop]
  have hup : (c'.node new_node).key = (c.node child).key.take split_len ∧
      (c'.node new_node).lock_ref = (c.node child).lock_ref :=
    ⟨congrArg (fun x => x.2.2.1) hn.upper, congrArg (fun x => x.2.2.2.2) hn.upper⟩
  have hlow : (c'.node child).key = (c.node child).key.drop split_len ∧
      (c'.node child).lock_ref = (c.node child).lock_ref :=
    ⟨congrArg (fun x => x.2.2.1) hn.lower, congrArg (fun x => x.2.2.2.2) hn.lower⟩
  have hother : ∀ r ∈ live, r ≠ child → (c'.node r).key = (c.node r).key ∧
      (c'.node r).lock_ref = (c.node r).lock_ref := by
    intro r hr hne
    obtain ⟨_, hkey, _, hlock⟩ := split_kept h hn hr hne
    exact ⟨hkey, hlock⟩
  constructor
  · have hsum := sum_change (fun r => (c.node r).free_size) (fun r => (c'.node r).free_size) hchild (by
      intro r hr hne
      obtain ⟨hkey, hlock⟩ := hother r hr hne
      simp only [TreeNode.free_size, hkey, hlock])
    have hshare : (c'.node new_node).free_size + (c'.node child).free_size =
        (c.node child).free_size := by
      unfold TreeNode.free_size
      rw [hup.1, hup.2, hlow.1, hlow.2]
      split
      · exact hlen
      · rfl
    rw [hev, hcounted.evictable, Finset.sum_insert h.fresh]
    omega
  · have hsum := sum_change (fun r => (c.node r).bound_size) (fun r => (c'.node r).bound_size) hchild (by
      intro r hr hne
      obtain ⟨hkey, hlock⟩ := hother r hr hne
      simp only [TreeNode.bound_size, hkey, hlock])
    have hshare : (c'.node new_node).bound_size + (c'.node child).bound_size =
        (c.node child).bound_size := by
      unfold TreeNode.bound_size
      rw [hup.1, hup.2, hlow.1, hlow.2]
      split
      · rfl
      · exact hlen
    rw [hpr, hcounted.protected_size, Finset.sum_insert h.fresh]
    omega

/-- The new node has the lock of the child: what passes through one passes through the other. -/
theorem split_locked (ht : Tree c line live)
    (h : Splits c line live new_node child parent first_key child_key split_len)
    (hn : SplitNodes c c' new_node child parent first_key child_key split_len)
    (hroot : c'.root_node = c.root_node) (hlocked : Locked c line live held) :
    Locked c' (split_line c line new_node child parent split_len) (Insert.insert new_node live)
      held := by
  obtain ⟨hchild, _⟩ := h.ne ht
  obtain ⟨_, hcroot, _, hctokens, _⟩ := ht.child h.parent_live h.listed
  have hold : ∀ r ∈ live, tokens (split_line c line new_node child parent split_len) r =
      tokens line r := by
    intro r hr
    unfold tokens
    rw [split_line_old h hr]
  have hnew : tokens (split_line c line new_node child parent split_len) new_node =
      tokens line parent ++ (c.node child).key.take split_len := by
    unfold tokens
    rw [split_line_new, List.map_append, List.map_take, map_fst_edge (ht.sized child hchild)]
  refine ⟨?_, ?_, ?_⟩
  · rw [hroot, (split_kept h hn ht.root_live hcroot.symm).2.2.2]
    exact hlocked.root
  · intro r hr hne
    rw [hroot] at hne
    rcases Finset.mem_insert.mp hr with rfl | hr
    · have hlock : (c'.node r).lock_ref = (c.node child).lock_ref :=
        congrArg (fun x => x.2.2.2.2) hn.upper
      rw [hlock, hlocked.count child hchild hcroot, hnew]
      apply List.countP_congr
      intro q hq
      rw [decide_eq_true_eq, decide_eq_true_eq, hctokens]
      constructor
      · intro hcq
        refine List.IsPrefix.trans ?_ hcq
        rw [List.prefix_append_right_inj]
        exact List.take_prefix _ _
      · intro hrq
        rw [← hctokens]
        apply hlocked.through ht h.parent_live h.listed hq
        refine List.IsPrefix.trans ?_ hrq
        obtain ⟨rest, hfront⟩ := h.front
        rw [hfront, List.prefix_append_right_inj]
        simp
    · rw [hold r hr, ← hlocked.count r hr hne]
      by_cases hrc : r = child
      · subst hrc
        exact congrArg (fun x => x.2.2.2.2) hn.lower
      · exact (split_kept h hn hr hrc).2.2.2
  · intro q hq
    obtain ⟨r, hr, hrq⟩ := hlocked.held_live q hq
    exact ⟨r, Finset.mem_insert_of_mem hr, (hold r hr).trans hrq⟩

end after

end split

/-! ## A new leaf -/

section leaf

variable {c : RadixCache κ} {line : Ref → Line} {live : Finset Ref} {held : List (List Int)}
  {new_node node : Ref} {child_key : Int} {rest value : List Int}

/-- The lines with that of a new leaf. -/
def leaf_line (line : Ref → Line) (new_node node : Ref) (key value : List Int) : Ref → Line :=
  Function.update line new_node (line node ++ key.zip value)

/-- The nodes with a new leaf. -/
structure LeafNodes (c c' : RadixCache κ) (new_node node : Ref) (child_key : Int)
    (key value : List Int) : Prop where
  leaf : (c'.node new_node).links = (Dict.empty, some node, key, value, 0)
  above : (c'.node node).links = ((c.node node).children.insert child_key new_node,
    (c.node node).parent, (c.node node).key, (c.node node).value, (c.node node).lock_ref)
  other : ∀ r, r ≠ new_node → r ≠ node → (c'.node r).links = (c.node r).links

theorem link_leaf_nodes (host : Host κ) (h : c.counter ≠ node) (key : List Int) :
    LeafNodes c ((c.new_tree_node host).link_leaf c.counter node child_key key value) c.counter
      node child_key key value := by
  constructor
  · simp [RadixCache.link_leaf, RadixCache.new_tree_node, RadixCache.modify_node, TreeNode.links, h]
  · simp [RadixCache.link_leaf, RadixCache.new_tree_node, RadixCache.modify_node, TreeNode.links,
      h.symm]
  · intro r hn hr
    simp [RadixCache.link_leaf, RadixCache.new_tree_node, RadixCache.modify_node, hn, hr]

variable {c' : RadixCache κ}

theorem leaf_line_old (hfresh : new_node ∉ live) {key : List Int} {r : Ref} (hr : r ∈ live) :
    leaf_line line new_node node key value r = line r := by
  apply Function.update_of_ne
  rintro rfl
  exact hfresh hr

/-- What is known when a leaf is added: its place is free, and it has a value for each token. -/
structure Adds (c : RadixCache κ) (live : Finset Ref) (new_node node : Ref) (child_key : Int)
    (rest value : List Int) : Prop where
  node_live : node ∈ live
  fresh : new_node ∉ live
  free : (c.node node).children.get? child_key = none
  sized : value.length = (child_key :: rest).length

section

variable (h : Adds c live new_node node child_key rest value)
  (hn : LeafNodes c c' new_node node child_key (child_key :: rest) value)
include h hn

theorem leaf_kept {r : Ref} (hr : r ∈ live) : (c'.node r).parent = (c.node r).parent ∧
    (c'.node r).key = (c.node r).key ∧ (c'.node r).value = (c.node r).value ∧
      (c'.node r).lock_ref = (c.node r).lock_ref := by
  by_cases hrn : r = node
  · subst hrn
    exact ⟨congrArg (fun x => x.2.1) hn.above, congrArg (fun x => x.2.2.1) hn.above,
      congrArg (fun x => x.2.2.2.1) hn.above, congrArg (fun x => x.2.2.2.2) hn.above⟩
  · have hlinks := hn.other r (by rintro rfl; exact h.fresh hr) hrn
    exact ⟨TreeNode.parent_eq hlinks, TreeNode.key_eq hlinks, TreeNode.value_eq hlinks,
      TreeNode.lock_ref_eq hlinks⟩

theorem leaf_children {r : Ref} (hr : r ∈ live) (hrn : r ≠ node) :
    (c'.node r).children = (c.node r).children :=
  TreeNode.children_eq (hn.other r (by rintro rfl; exact h.fresh hr) hrn)

theorem leaf_tree (ht : Tree c line live) (hroot : c'.root_node = c.root_node)
    (hcounter : c.counter ≤ c'.counter) (hcreated : new_node < c'.counter) :
    Tree c' (leaf_line line new_node node (child_key :: rest) value)
      (Insert.insert new_node live) := by
  have hold : ∀ r ∈ live, leaf_line line new_node node (child_key :: rest) value r = line r :=
    fun r hr => leaf_line_old h.fresh hr
  have hnew : leaf_line line new_node node (child_key :: rest) value new_node =
      line node ++ (child_key :: rest).zip value := Function.update_self _ _ _
  have hkept := fun r (hr : r ∈ live) => leaf_kept h hn hr
  have hleaf_key : (c'.node new_node).key = child_key :: rest :=
    congrArg (fun x => x.2.2.1) hn.leaf
  have hleaf_value : (c'.node new_node).value = value := congrArg (fun x => x.2.2.2.1) hn.leaf
  have hleaf_none : ∀ token, (c'.node new_node).children.get? token = none := by
    intro token
    have hchildren : (c'.node new_node).children = Dict.empty := congrArg Prod.fst hn.leaf
    rw [hchildren, Dict.get?_empty]
  have hget : ∀ token, (c'.node node).children.get? token =
      if child_key = token then some new_node else (c.node node).children.get? token := by
    intro token
    have hchildren : (c'.node node).children = (c.node node).children.insert child_key new_node :=
      congrArg Prod.fst hn.above
    rw [hchildren, Dict.get?_insert]
  refine ⟨?_, ?_, ?_, ?_, ?_, ?_, ?_⟩
  · rw [hroot]
    exact Finset.mem_insert_of_mem ht.root_live
  · rw [hroot, hold _ ht.root_live]
    exact ht.root_line
  · rw [hroot, (hkept _ ht.root_live).2.1]
    exact ht.root_key
  · intro r hr
    rcases Finset.mem_insert.mp hr with rfl | hr
    · exact hcreated
    · exact (ht.created r hr).trans_le hcounter
  · intro r hr
    rcases Finset.mem_insert.mp hr with rfl | hr
    · rw [hleaf_key, hleaf_value, h.sized]
    · rw [(hkept r hr).2.1, (hkept r hr).2.2.1]
      exact ht.sized r hr
  · intro r hr hrne
    rw [hroot] at hrne
    rcases Finset.mem_insert.mp hr with rfl | hr
    · refine ⟨node, Finset.mem_insert_of_mem h.node_live,
        ⟨congrArg (fun x => x.2.1) hn.leaf, child_key, rest, hleaf_key, ?_⟩, ?_⟩
      · rw [hget, if_pos rfl]
      · rw [hold _ h.node_live, hnew]
        unfold TreeNode.edge
        rw [hleaf_key, hleaf_value]
    · obtain ⟨q, hq, hqr, hline⟩ := ht.up r hr hrne
      obtain ⟨hparent, hkey, hvalue, _⟩ := hkept r hr
      obtain ⟨token, rest', hrkey, hqget⟩ := hqr.first
      refine ⟨q, Finset.mem_insert_of_mem hq, ⟨hparent.trans hqr.parent, token, rest',
        hkey.trans hrkey, ?_⟩, ?_⟩
      · by_cases hqn : q = node
        · subst hqn
          rw [hget, if_neg]
          · exact hqget
          · rintro rfl
            rw [h.free] at hqget
            cases hqget
        · rw [leaf_children h hn hq hqn]
          exact hqget
      · rw [hold r hr, hold q hq, hline]
        unfold TreeNode.edge
        rw [hkey, hvalue]
  · intro p hp token r hpget
    rw [hroot]
    have hother : p ∈ live → (c.node p).children.get? token = some r →
        r ∈ Insert.insert new_node live ∧ r ≠ c.root_node ∧ (c'.node r).parent = some p ∧
          (c'.node r).key.head? = some token := by
      intro hp' hget'
      obtain ⟨hr, hrne, hparent, hkey⟩ := ht.down p hp' token r hget'
      rw [(hkept r hr).1, (hkept r hr).2.1]
      exact ⟨Finset.mem_insert_of_mem hr, hrne, hparent, hkey⟩
    rcases Finset.mem_insert.mp hp with rfl | hp
    · rw [hleaf_none] at hpget
      cases hpget
    · by_cases hpn : p = node
      · subst hpn
        rw [hget] at hpget
        split at hpget
        · rename_i heq
          obtain rfl := Option.some.inj hpget
          refine ⟨Finset.mem_insert_self _ _, ?_, congrArg (fun x => x.2.1) hn.leaf, ?_⟩
          · rintro rfl
            exact h.fresh ht.root_live
          · rw [hleaf_key, ← heq, List.head?_cons]
        · exact hother hp hpget
      · rw [leaf_children h hn hp hpn] at hpget
        exact hother hp hpget

theorem leaf_counted (hcounted : Counted c live)
    (hev : c'.evictable_size_ = c.evictable_size_ + value.length)
    (hpr : c'.protected_size_ = c.protected_size_) : Counted c' (Insert.insert new_node live) := by
  have hlock : (c'.node new_node).lock_ref = 0 := congrArg (fun x => x.2.2.2.2) hn.leaf
  have hkey : (c'.node new_node).key = child_key :: rest := congrArg (fun x => x.2.2.1) hn.leaf
  constructor
  · have hleaf : (c'.node new_node).free_size = value.length := by
      unfold TreeNode.free_size
      rw [hlock, hkey, if_pos rfl, h.sized]
    have hsame : ∑ r ∈ live, (c'.node r).free_size = ∑ r ∈ live, (c.node r).free_size := by
      apply Finset.sum_congr rfl
      intro r hr
      obtain ⟨_, hrkey, _, hrlock⟩ := leaf_kept h hn hr
      simp only [TreeNode.free_size, hrkey, hrlock]
    rw [hev, hcounted.evictable, Finset.sum_insert h.fresh, hleaf, hsame]
    push_cast
    omega
  · have hleaf : (c'.node new_node).bound_size = 0 := by
      unfold TreeNode.bound_size
      rw [hlock, if_pos rfl]
    have hsame : ∑ r ∈ live, (c'.node r).bound_size = ∑ r ∈ live, (c.node r).bound_size := by
      apply Finset.sum_congr rfl
      intro r hr
      obtain ⟨_, hrkey, _, hrlock⟩ := leaf_kept h hn hr
      simp only [TreeNode.bound_size, hrkey, hrlock]
    rw [hpr, hcounted.protected_size, Finset.sum_insert h.fresh, hleaf, hsame, zero_add]

/-- No locked sequence passes through a new leaf: it would have a child to go on to. -/
theorem leaf_locked (ht : Tree c line live) (hroot : c'.root_node = c.root_node)
    (hlocked : Locked c line live held) :
    Locked c' (leaf_line line new_node node (child_key :: rest) value)
      (Insert.insert new_node live) held := by
  have hold : ∀ r ∈ live, tokens (leaf_line line new_node node (child_key :: rest) value) r =
      tokens line r := by
    intro r hr
    unfold tokens
    rw [leaf_line_old h.fresh hr]
  have hnew : tokens (leaf_line line new_node node (child_key :: rest) value) new_node =
      tokens line node ++ child_key :: rest := by
    unfold tokens leaf_line
    rw [Function.update_self, List.map_append, List.map_fst_zip h.sized.ge]
  refine ⟨?_, ?_, ?_⟩
  · rw [hroot, (leaf_kept h hn ht.root_live).2.2.2]
    exact hlocked.root
  · intro r hr hrne
    rw [hroot] at hrne
    rcases Finset.mem_insert.mp hr with rfl | hr
    · have hlock : (c'.node r).lock_ref = 0 := congrArg (fun x => x.2.2.2.2) hn.leaf
      rw [hlock, hnew, eq_comm, List.countP_eq_zero]
      intro q hq
      rw [decide_eq_true_eq]
      intro hrq
      obtain ⟨x, hx, rfl⟩ := hlocked.held_live q hq
      have hfirst : tokens line node ++ [child_key] <+: tokens line node ++ child_key :: rest := by
        rw [List.prefix_append_right_inj]
        simp
      obtain ⟨y, hy, _⟩ := ht.descend h.node_live hx (hfirst.trans hrq)
      rw [h.free] at hy
      cases hy
    · rw [hold r hr, (leaf_kept h hn hr).2.2.2]
      exact hlocked.count r hr hrne
  · intro q hq
    obtain ⟨x, hx, hxq⟩ := hlocked.held_live q hq
    exact ⟨x, Finset.mem_insert_of_mem hx, (hold x hx).trans hxq⟩

end

end leaf

end parallax.server.radix_cache
