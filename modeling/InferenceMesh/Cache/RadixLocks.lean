-- Locks. A lock changes the nodes on the way from one node up to the root, and
-- with them the two counters. A locked sequence of tokens is held by all nodes
-- that it passes through.
import InferenceMesh.Cache.RadixGrowth

open ordered_dict python state_exn stack_walk prefix_store

namespace parallax.server.radix_cache

variable {κ : Type}

/-! ## One node -/

/-- A change of the lock of one node, with the counters. -/
structure Relocks (change : RadixCache κ → Ref → RadixCache κ) (lock : Nat → Nat) : Prop where
  root : ∀ c r, (change c r).root_node = c.root_node
  counter : ∀ c r, (change c r).counter = c.counter
  self : ∀ c r, (change c r).node r = { c.node r with lock_ref := lock (c.node r).lock_ref }
  other : ∀ c r x, x ≠ r → (change c r).node x = c.node x
  evictable : ∀ c r, (c.node r).value.length = (c.node r).key.length →
    (change c r).evictable_size_ + (c.node r).free_size =
      c.evictable_size_ + ((change c r).node r).free_size
  protected_size : ∀ c r, (c.node r).value.length = (c.node r).key.length →
    (change c r).protected_size_ + (c.node r).bound_size =
      c.protected_size_ + ((change c r).node r).bound_size

theorem free_size_add_bound_size (n : TreeNode κ) : n.free_size + n.bound_size = n.key.length := by
  unfold TreeNode.free_size TreeNode.bound_size
  split
  · exact Nat.add_zero _
  · exact Nat.zero_add _

/-- A change that takes from one counter what it gives to the other one. -/
theorem Relocks.of_eq {change : RadixCache κ → Ref → RadixCache κ} {lock : Nat → Nat}
    (size : RadixCache κ → Ref → Int)
    (h : ∀ c r, change c r =
      { c.modify_node r (fun n => { n with lock_ref := lock n.lock_ref }) with
        evictable_size_ := c.evictable_size_ + size c r
        protected_size_ := c.protected_size_ - size c r })
    (hsize : ∀ c r, (c.node r).value.length = (c.node r).key.length →
      size c r + (c.node r).free_size = ((change c r).node r).free_size) : Relocks change lock := by
  have hself : ∀ c r, (change c r).node r =
      { c.node r with lock_ref := lock (c.node r).lock_ref } := by
    intro c r
    rw [h]
    simp [RadixCache.modify_node]
  refine ⟨?_, ?_, hself, ?_, ?_, ?_⟩
  · intro c r
    rw [h]
    rfl
  · intro c r
    rw [h]
    rfl
  · intro c r x hx
    rw [h]
    simp [RadixCache.modify_node, hx]
  · intro c r hsized
    have hev : (change c r).evictable_size_ = c.evictable_size_ + size c r := by rw [h]
    have hshift := hsize c r hsized
    omega
  · intro c r hsized
    have hpr : (change c r).protected_size_ = c.protected_size_ - size c r := by rw [h]
    have hshift := hsize c r hsized
    have hkey : ((change c r).node r).key = (c.node r).key := by rw [hself]
    have hold := free_size_add_bound_size (c.node r)
    have hnew := free_size_add_bound_size ((change c r).node r)
    rw [hkey] at hnew
    omega

theorem lock_node_relocks : Relocks (κ := κ) RadixCache.lock_node (· + 1) := by
  apply Relocks.of_eq
    (fun c r => if (c.node r).lock_ref = 0 then -((c.node r).value.length : Int) else 0)
  · intro c r
    unfold RadixCache.lock_node
    split
    · simp [RadixCache.modify_node, sub_eq_add_neg]
    · simp [RadixCache.modify_node]
  · intro c r hsized
    unfold RadixCache.lock_node TreeNode.free_size
    split
    · simp [RadixCache.modify_node, hsized]
    · simp [RadixCache.modify_node]

theorem unlock_node_relocks : Relocks (κ := κ) RadixCache.unlock_node (· - 1) := by
  apply Relocks.of_eq
    (fun c r => if (c.node r).lock_ref = 1 then ((c.node r).value.length : Int) else 0)
  · intro c r
    unfold RadixCache.unlock_node
    split
    · simp [RadixCache.modify_node]
    · simp [RadixCache.modify_node]
  · intro c r hsized
    unfold RadixCache.unlock_node TreeNode.free_size
    split
    · rename_i hone
      simp [RadixCache.modify_node, hsized, hone]
    · rename_i hone
      have hiff : (c.node r).lock_ref - 1 = 0 ↔ (c.node r).lock_ref = 0 := by omega
      simp [RadixCache.modify_node, hiff]

/-! ## The way up -/

section

variable {c c' : RadixCache κ} {line : Ref → Line} {live : Finset Ref}
  {held held' : List (List Int)} {change : RadixCache κ → Ref → RadixCache κ}
  {lock : Nat → Nat} {node : Ref}

/-- A node on the way from another one up to the root, which is not counted. -/
structure OnWay (c : RadixCache κ) (line : Ref → Line) (live : Finset Ref) (node r : Ref) :
    Prop where
  live_node : r ∈ live
  below_root : r ≠ c.root_node
  beginning : tokens line r <+: tokens line node

/-- The nodes of a way have changed their locks, and the counters say so. -/
structure Relocked (lock : Nat → Nat) (c c' : RadixCache κ) (live : Finset Ref)
    (way : Ref → Prop) : Prop where
  root : c'.root_node = c.root_node
  counter : c'.counter = c.counter
  on_way : ∀ r, way r → c'.node r = { c.node r with lock_ref := lock (c.node r).lock_ref }
  off_way : ∀ r, ¬ way r → c'.node r = c.node r
  counted : Counted c live → Counted c' live

theorem no_way_to_root (ht : Tree c line live) (r : Ref) : ¬ OnWay c line live c.root_node r := by
  rintro ⟨hr, hne, hbegin⟩
  rw [ht.tokens_root, List.prefix_nil] at hbegin
  apply hne
  exact ht.tokens_injective hr ht.root_live (hbegin.trans ht.tokens_root.symm)

/-- The way from a node is the node and the way from its parent. -/
theorem way_from_child (ht : Tree c line live) (hnode : node ∈ live) (hne : node ≠ c.root_node)
    {p : Ref} (hp : p ∈ live) (hchild : IsChild c p node) (r : Ref) :
    OnWay c line live node r ↔ r = node ∨ OnWay c line live p r := by
  obtain ⟨token, _, _, hget⟩ := hchild.first
  have htokens := (ht.child hp hget).2.2.2.1
  constructor
  · rintro ⟨hr, hrne, hbegin⟩
    rcases Relation.ReflTransGen.cases_tail (ht.above_of_tokens hr hnode hbegin) with heq | ⟨q, hrq, hq⟩
    · exact Or.inl heq.symm
    · right
      obtain ⟨u, hu⟩ := Tree.mem_children.mp hq
      have hqp : q = p :=
        Option.some.inj ((ht.child (ht.above_live hr hrq) hu).2.2.1.parent.symm.trans hchild.parent)
      exact ⟨hr, hrne, ht.tokens_of_above hr (hqp ▸ hrq)⟩
  · rintro (rfl | ⟨hr, hrne, hbegin⟩)
    · exact ⟨hnode, hne, List.prefix_rfl⟩
    · refine ⟨hr, hrne, hbegin.trans ?_⟩
      rw [htokens]
      exact List.prefix_append _ _

theorem Relocks.same_shape (hc : Relocks change lock) (c : RadixCache κ) (r x : Ref) :
    SameShape (c.node x) ((change c r).node x) := by
  by_cases hx : x = r
  · subst hx
    rw [hc.self]
    exact ⟨rfl, rfl, rfl, rfl⟩
  · rw [hc.other c r x hx]
    exact ⟨rfl, rfl, rfl, rfl⟩

theorem Relocks.counted (hc : Relocks change lock) {r : Ref} (hr : r ∈ live)
    (hsized : (c.node r).value.length = (c.node r).key.length) (h : Counted c live) :
    Counted (change c r) live := by
  constructor
  · have hsum := sum_change (fun x => (c.node x).free_size)
      (fun x => ((change c r).node x).free_size) hr (by
        intro x _ hx
        rw [hc.other c r x hx])
    have hself := hc.evictable c r hsized
    rw [h.evictable] at hself
    omega
  · have hsum := sum_change (fun x => (c.node x).bound_size)
      (fun x => ((change c r).node x).bound_size) hr (by
        intro x _ hx
        rw [hc.other c r x hx])
    have hself := hc.protected_size c r hsized
    rw [h.protected_size] at hself
    omega

theorem up_to_root.spec (hc : Relocks change lock) (fuel : Nat) (ht : Tree c line live)
    (hnode : node ∈ live)
    (hfuel : (live.filter (fun x => tokens line x <+: tokens line node)).card ≤ fuel)
    (delta : Int) :
    Triple (fun s => s = c) (up_to_root change fuel node delta)
      (fun _ c' => Relocked lock c c' live (OnWay c line live node)) (fun _ _ => False) := by
  induction fuel generalizing c node delta with
  | zero =>
    have hempty := Finset.card_eq_zero.mp (Nat.le_zero.mp hfuel)
    have hself : node ∈ live.filter (fun x => tokens line x <+: tokens line node) :=
      Finset.mem_filter.mpr ⟨hnode, List.prefix_rfl⟩
    rw [hempty] at hself
    cases hself
  | succ fuel ih =>
    rintro s rfl
    unfold up_to_root
    rw [get_bind]
    by_cases hroot : node = s.root_node
    · rw [if_pos hroot, hroot]
      exact ⟨rfl, rfl, fun r hr => absurd hr (no_way_to_root ht r), fun _ _ => rfl, fun h => h⟩
    · obtain ⟨p, hp, hchild, htokens⟩ := ht.parent hnode hroot
      rw [if_neg hroot]
      dsimp only
      rw [set_bind, hchild.parent]
      have hlt : (tokens line p).length < (tokens line node).length := by
        obtain ⟨token, _, _, hget⟩ := hchild.first
        exact ht.length_lt_child hp hget
      have ht₁ : Tree (change s node) line live :=
        ht.congr (hc.root s node) (hc.counter s node).ge (fun r _ => hc.same_shape s node r)
      have hfewer : (live.filter (fun x => tokens line x <+: tokens line p)).card ≤ fuel := by
        have hsub : live.filter (fun x => tokens line x <+: tokens line p) ⊂
            live.filter (fun x => tokens line x <+: tokens line node) := by
          rw [Finset.ssubset_iff_of_subset]
          · refine ⟨node, Finset.mem_filter.mpr ⟨hnode, List.prefix_rfl⟩, ?_⟩
            intro hmem
            have hle := (Finset.mem_filter.mp hmem).2.length_le
            omega
          · intro x hx
            obtain ⟨hx, hxp⟩ := Finset.mem_filter.mp hx
            refine Finset.mem_filter.mpr ⟨hx, hxp.trans ?_⟩
            rw [htokens]
            exact List.prefix_append _ _
        have hcard := Finset.card_lt_card hsub
        omega
      refine Triple.mono (ih ht₁ hp hfewer _) (fun _ h => h) ?_ (fun _ _ h => h) _ rfl
      rintro _ c' ⟨hroot', hcounter', hon, hoff, hcounted⟩
      have hway : ∀ r, OnWay (change s node) line live p r ↔ OnWay s line live p r := by
        intro r
        constructor
        · rintro ⟨hr, hne, hbegin⟩
          exact ⟨hr, (hc.root s node) ▸ hne, hbegin⟩
        · rintro ⟨hr, hne, hbegin⟩
          exact ⟨hr, (hc.root s node).symm ▸ hne, hbegin⟩
      have hnot : ¬ OnWay s line live p node := fun h => by
        have hle := h.beginning.length_le
        omega
      refine ⟨hroot'.trans (hc.root s node), hcounter'.trans (hc.counter s node), ?_, ?_, ?_⟩
      · intro r hr
        rcases (way_from_child ht hnode hroot hp hchild r).mp hr with rfl | habove
        · rw [hoff r (fun h => hnot ((hway r).mp h)), hc.self]
        · have hrn : r ≠ node := by
            rintro rfl
            exact hnot habove
          rw [hon r ((hway r).mpr habove), hc.other s node r hrn]
      · intro r hr
        rw [way_from_child ht hnode hroot hp hchild, not_or] at hr
        rw [hoff r (fun h => hr.2 ((hway r).mp h)), hc.other s node r hr.1]
      · intro h
        exact hcounted (hc.counted hnode (ht.sized node hnode) h)

/-! ## Locked sequences -/

theorem Relocked.tree (hr : Relocked lock c c' live (OnWay c line live node))
    (ht : Tree c line live) : Tree c' line live := by
  refine ht.congr hr.root hr.counter.ge ?_
  intro r _
  by_cases hway : OnWay c line live node r
  · rw [hr.on_way r hway]
    exact ⟨rfl, rfl, rfl, rfl⟩
  · rw [hr.off_way r hway]
    exact ⟨rfl, rfl, rfl, rfl⟩

theorem Relocked.root_lock (hr : Relocked lock c c' live (OnWay c line live node))
    (hl : Locked c line live held) : (c'.node c'.root_node).lock_ref = 1 := by
  rw [hr.root, hr.off_way _ (fun h => h.below_root rfl)]
  exact hl.root

/-- After an increase the tokens of the node are held. -/
theorem Relocked.hold (hr : Relocked (· + 1) c c' live (OnWay c line live node))
    (h : Linked c line live held) (hnode : node ∈ live) :
    Linked c' line live (tokens line node :: held) := by
  refine ⟨hr.tree h.tree, hr.counted h.counted, hr.root_lock h.locked, ?_, ?_⟩
  · intro r hlive hne
    rw [hr.root] at hne
    rw [List.countP_cons, ← h.locked.count r hlive hne]
    by_cases hbegin : tokens line r <+: tokens line node
    · rw [hr.on_way r ⟨hlive, hne, hbegin⟩, decide_eq_true hbegin, if_pos rfl]
    · rw [hr.off_way r (fun hway => hbegin hway.beginning), decide_eq_false hbegin,
        if_neg Bool.false_ne_true, Nat.add_zero]
  · intro q hq
    rcases List.mem_cons.mp hq with rfl | hq
    · exact ⟨node, hnode, rfl⟩
    · exact h.locked.held_live q hq

/-- The other locked sequences pass through no node on the way behind the released one. -/
def OwnWay (line : Ref → Line) (live : Finset Ref) (held : List (List Int)) (p key : List Int) :
    Prop :=
  ∀ q ∈ held.erase p, ∀ r ∈ live, tokens line r <+: key → tokens line r <+: q → tokens line r <+: p

/-- After a decrease on a node behind it, a sequence is no longer held. -/
theorem Relocked.release (hr : Relocked (· - 1) c c' live (OnWay c line live node))
    (h : Linked c line live held) {p : List Int} (hp : p ∈ held) (hpn : p <+: tokens line node)
    (hown : OwnWay line live held p (tokens line node)) : Linked c' line live (held.erase p) := by
  refine ⟨hr.tree h.tree, hr.counted h.counted, hr.root_lock h.locked, ?_, ?_⟩
  · intro r hlive hne
    rw [hr.root] at hne
    have hcount := h.locked.count r hlive hne
    have herase := List.countP_erase (fun q => decide (tokens line r <+: q)) held p
    by_cases hrp : tokens line r <+: p
    · rw [hr.on_way r ⟨hlive, hne, hrp.trans hpn⟩, herase, if_pos ⟨hp, decide_eq_true hrp⟩]
      exact congrArg (· - 1) hcount
    · rw [if_neg (by simp [hrp]), Nat.sub_zero] at herase
      rw [herase]
      by_cases hbegin : tokens line r <+: tokens line node
      · -- A node behind the released sequence is held by nobody, and its lock stays at 0.
        have hnone : held.countP (fun q => decide (tokens line r <+: q)) = 0 := by
          rw [List.countP_eq_zero]
          intro q hq hrq
          rw [decide_eq_true_eq] at hrq
          have hqp : q ≠ p := by
            rintro rfl
            exact hrp hrq
          exact hrp (hown q ((List.mem_erase_of_ne hqp).mpr hq) r hlive hbegin hrq)
        rw [hr.on_way r ⟨hlive, hne, hbegin⟩, hnone]
        rw [hnone] at hcount
        exact congrArg (· - 1) hcount
      · rw [hr.off_way r (fun hway => hbegin hway.beginning)]
        exact hcount
  · intro q hq
    exact h.locked.held_live q (List.mem_of_mem_erase hq)

variable {host : Host κ} {S : PrefixStore Int Int}

theorem Sound.held_perm (h : Sound host c line live held S) (hperm : held'.Perm held) :
    Sound host c line live held' S := by
  refine ⟨⟨h.linked.tree, h.linked.counted, h.linked.locked.root, ?_, ?_⟩, h.spells, h.cached⟩
  · intro r hr hne
    rw [hperm.countP_eq]
    exact h.linked.locked.count r hr hne
  · intro p hp
    exact h.linked.locked.held_live p (hperm.mem_iff.mp hp)

/-- The images of what is left are what is left of the images. -/
theorem map_erase_perm {α β : Type} [BEq α] [LawfulBEq α] [BEq β] [LawfulBEq β] (f : α → β)
    {x : α} {l : List α} (hx : x ∈ l) : ((l.erase x).map f).Perm ((l.map f).erase (f x)) := by
  have hmap := (List.perm_cons_erase hx).map f
  rw [List.map_cons] at hmap
  exact ((hmap.erase (f x)).trans (by rw [List.erase_cons_head])).symm

theorem Relocked.cached (hr : Relocked lock c c' live (OnWay c line live node))
    (h : Cached c live) : Cached c' live := by
  intro r hlive hne
  rw [hr.root] at hne
  have hkept : (c'.node r).kv_cache = (c.node r).kv_cache := by
    by_cases hway : OnWay c line live node r
    · rw [hr.on_way r hway]
    · rw [hr.off_way r hway]
  rw [hkept]
  exact h r hlive hne

theorem few_above (ht : Tree c line live) (node : Ref) :
    (live.filter (fun x => tokens line x <+: tokens line node)).card ≤ c.counter + 1 :=
  (Finset.card_filter_le _ _).trans (ht.card_le.trans (Nat.le_succ _))

theorem increase_lock_ref.spec (h : Sound host c line live held S) (hnode : node ∈ live) :
    Triple (fun s => s = c) (increase_lock_ref node)
      (fun _ c' => Sound host c' line live (tokens line node :: held) S) (fun _ _ => False) := by
  have ht := h.linked.tree
  rintro s rfl
  unfold increase_lock_ref
  rw [get_bind]
  refine Triple.mono (up_to_root.spec lock_node_relocks _ ht hnode (few_above ht node) 0)
    (fun _ h => h) ?_ (fun _ _ h => h) _ rfl
  rintro _ c' hr
  exact ⟨hr.hold h.linked hnode, h.spells, fun hworks => hr.cached (h.cached hworks)⟩

theorem decrease_lock_ref.spec (h : Sound host c line live held S) (hnode : node ∈ live)
    {p : List Int} (hp : p ∈ held) (hpn : p <+: tokens line node)
    (hown : OwnWay line live held p (tokens line node)) :
    Triple (fun s => s = c) (decrease_lock_ref node)
      (fun _ c' => Sound host c' line live (held.erase p) S) (fun _ _ => False) := by
  have ht := h.linked.tree
  rintro s rfl
  unfold decrease_lock_ref
  rw [get_bind]
  refine Triple.mono (up_to_root.spec unlock_node_relocks _ ht hnode (few_above ht node) 0)
    (fun _ h => h) ?_ (fun _ _ h => h) _ rfl
  rintro _ c' hr
  exact ⟨hr.release h.linked hp hpn hown, h.spells, fun hworks => hr.cached (h.cached hworks)⟩

end

end parallax.server.radix_cache
