-- The two counters of the prefix cache: what can be evicted and what is locked.
-- They are exact in every run whose locks are taken on nodes of the tree, also
-- when the class of the KV caches raises.
import InferenceMesh.Cache.LongestPrefix

open ordered_dict python state_exn stack_walk prefix_store

namespace parallax.server.radix_cache

variable {κ : Type} {host : Host κ} {c c' : RadixCache κ}

/-! ## Runs -/

/-- A run of calls that raise or return, with the handles that are locked. A handle is released
as often as it was locked. -/
inductive LockRun (host : Host κ) : RadixCache κ → List Ref → Prop
  | start (max_num_tokens : Option Int) : LockRun host (.init host max_num_tokens) []
  | insert {c : RadixCache κ} {handles : List Ref} (h : LockRun host c handles) (key : List Int)
      (value : Option (List Int)) (kv : List κ) (hlen : (value.getD key).length = key.length) :
      LockRun host (stateOf (insert host key value kv c)) handles
  | match_prefix {c : RadixCache κ} {handles : List Ref} (h : LockRun host c handles)
      (key : List Int) : LockRun host (stateOf ( match_prefix host key c)) handles
  | evict {c : RadixCache κ} {handles : List Ref} (h : LockRun host c handles) (num_tokens : Int) :
      LockRun host (stateOf (evict num_tokens c)) handles
  | increase {c : RadixCache κ} {handles : List Ref} {node : Ref} (h : LockRun host c handles)
      (hnode : node ∈ c.tree_nodes) :
      LockRun host (stateOf (increase_lock_ref node c)) (node :: handles)
  | decrease {c : RadixCache κ} {handles : List Ref} {node : Ref} (h : LockRun host c handles)
      (hnode : node ∈ handles) :
      LockRun host (stateOf (decrease_lock_ref node c)) (handles.erase node)

section

variable {line line' : Ref → Line} {live live' : Finset Ref} {held held' : List (List Int)}
  {S : PrefixStore Int Int} {handles : List Ref}

/-- The tokens of the locked handles are held, and the handles are in the tree. -/
structure Handles (host : Host κ) (c : RadixCache κ) (line : Ref → Line) (live : Finset Ref)
    (handles : List Ref) (S : PrefixStore Int Int) : Prop where
  sound : Sound host c line live (handles.map (tokens line)) S
  handle_live : ∀ r ∈ handles, r ∈ live

theorem Handles.grown (h : Handles host c line live handles S) {S' : PrefixStore Int Int}
    (hg : Grown host line live (handles.map (tokens line)) S' c' line' live') :
    Handles host c' line' live' handles S' := by
  have hsame : handles.map (tokens line') = handles.map (tokens line) := by
    apply List.map_congr_left
    intro r hr
    rw [tokens, tokens, (hg.kept r (h.handle_live r hr)).2]
  refine ⟨?_, fun r hr => (hg.kept r (h.handle_live r hr)).1⟩
  rw [hsame]
  exact hg.sound

/-- A locked handle has a lock, so no eviction takes it. -/
theorem Handles.evicted (h : Handles host c line live handles S)
    {S' : PrefixStore Int Int} (hs : Sound host c' line live' (handles.map (tokens line)) S')
    (he : Evicted c c' live live') : Handles host c' line live' handles S' := by
  refine ⟨hs, fun r hr => ?_⟩
  by_contra hno
  have hlive := h.handle_live r hr
  have hfree := he.unlocked r hlive hno
  have hroot : r ≠ c.root_node := by
    rintro rfl
    rw [h.sound.linked.locked.root] at hfree
    cases hfree
  rw [h.sound.linked.locked.count r hlive hroot, List.countP_eq_zero] at hfree
  exact hfree _ (List.mem_map_of_mem hr) (decide_eq_true List.prefix_rfl)

theorem LockRun.sound (h : LockRun host c handles) :
    ∃ line live S, Handles host c line live handles S := by
  induction h with
  | start max_num_tokens =>
    exact ⟨_, _, _, init_sound host max_num_tokens, fun _ hr => (by cases hr)⟩
  | insert _ key value kv hlen ih =>
    obtain ⟨line, live, S, hh⟩ := ih
    obtain ⟨S', line', live', hgrown⟩ := insert_grown hh.sound value hlen kv
    exact ⟨line', live', S', hh.grown hgrown⟩
  | match_prefix _ key ih =>
    obtain ⟨line, live, S, hh⟩ := ih
    obtain ⟨line', live', hgrown⟩ := match_prefix_grown hh.sound key
    exact ⟨line', live', S, hh.grown hgrown⟩
  | evict _ num_tokens ih =>
    obtain ⟨line, live, S, hh⟩ := ih
    obtain ⟨_, c', hrun, live', hfreed⟩ := (evict.spec hh.sound num_tokens).returns
      (fun _ _ hno => hno) rfl
    rw [hrun]
    exact ⟨line, live', _, hh.evicted hfreed.sound hfreed.evicted⟩
  | increase _ hnode ih =>
    obtain ⟨line, live, S, hh⟩ := ih
    have hlive := (hh.sound.linked.tree.tree_nodes_spec.2 _).mp hnode
    obtain ⟨_, c', hrun, hsound⟩ := (increase_lock_ref.spec hh.sound hlive).returns
      (fun _ _ hno => hno) rfl
    rw [hrun]
    refine ⟨line, live, S, hsound, ?_⟩
    intro r hr
    rcases List.mem_cons.mp hr with rfl | hr
    · exact hlive
    · exact hh.handle_live r hr
  | decrease _ hnode ih =>
    rename_i c handles node _
    obtain ⟨line, live, S, hh⟩ := ih
    have hlive := hh.handle_live _ hnode
    have hmem := List.mem_map_of_mem (f := tokens line) hnode
    obtain ⟨_, c', hrun, hsound⟩ := (decrease_lock_ref.spec hh.sound hlive hmem List.prefix_rfl
      (fun _ _ _ _ hown _ => hown)).returns (fun _ _ hno => hno) rfl
    rw [hrun]
    refine ⟨line, live, S, hsound.held_perm ?_, fun r hr => hh.handle_live r (List.mem_of_mem_erase hr)⟩
    exact map_erase_perm (tokens line) hnode

/-! ## The counters -/

/-- The tokens of the nodes with a given lock. -/
def tokens_with (c : RadixCache κ) (lock : Nat → Bool) : Nat :=
  ((c.tree_nodes.filter (fun r => lock (c.node r).lock_ref)).map
    (fun r => (c.node r).key.length)).sum

theorem sum_filter (l : List Ref) (p : Ref → Bool) (f : Ref → Nat) :
    ((l.filter p).map f).sum = (l.map (fun r => if p r then f r else 0)).sum := by
  induction l with
  | nil => rfl
  | cons r l ih =>
    rw [List.filter_cons, List.map_cons, List.sum_cons, ← ih]
    split
    · rw [List.map_cons, List.sum_cons]
    · rw [zero_add]

theorem Sound.evictable (h : Sound host c line live held S) :
    c.evictable_size_ = tokens_with c (fun n => n = 0) := by
  rw [tokens_with, sum_filter, h.linked.tree.sum_tree_nodes, h.linked.counted.evictable]
  congr 1
  apply Finset.sum_congr rfl
  intro r _
  simp only [TreeNode.free_size, decide_eq_true_eq]

theorem Sound.protected_size (h : Sound host c line live held S) :
    c.protected_size_ = tokens_with c (fun n => 0 < n) := by
  rw [tokens_with, sum_filter, h.linked.tree.sum_tree_nodes, h.linked.counted.protected_size]
  congr 1
  apply Finset.sum_congr rfl
  intro r _
  simp only [TreeNode.bound_size, decide_eq_true_eq, Nat.pos_iff_ne_zero, ite_not]

theorem Sound.total (h : Sound host c line live held S) :
    c.evictable_size_ + c.protected_size_ = c.total_size := by
  rw [RadixCache.total_size, h.linked.tree.sum_tree_nodes, h.linked.counted.evictable,
    h.linked.counted.protected_size, ← Nat.cast_add, ← Finset.sum_add_distrib]
  congr 1
  apply Finset.sum_congr rfl
  intro r hr
  rw [free_size_add_bound_size, h.linked.tree.sized r hr]

/-- Who stands above a locked node is locked. -/
theorem Sound.locked_above (h : Sound host c line live held S) {a b : Ref} (ha : a ∈ live)
    (hab : Above (Tree.children c) a b) (hb : 0 < (c.node b).lock_ref) :
    0 < (c.node a).lock_ref := by
  by_cases hroot : a = c.root_node
  · rw [hroot, h.linked.locked.root]
    exact Nat.one_pos
  · have ht := h.linked.tree
    have hbegin := ht.tokens_of_above ha hab
    have hblive := ht.above_live ha hab
    have hbroot : b ≠ c.root_node := by
      rintro rfl
      rw [ht.tokens_root, List.prefix_nil] at hbegin
      exact hroot (ht.tokens_injective ha ht.root_live (hbegin.trans ht.tokens_root.symm))
    rw [h.linked.locked.count b hblive hbroot, List.countP_pos_iff] at hb
    obtain ⟨q, hq, hbq⟩ := hb
    rw [h.linked.locked.count a ha hroot, List.countP_pos_iff]
    exact ⟨q, hq, decide_eq_true (hbegin.trans (of_decide_eq_true hbq))⟩

/-- The counters agree with the tree, and an eviction takes as much as it can. -/
structure Accounted (c : RadixCache κ) : Prop where
  evictable : c.evictable_size_ = tokens_with c (fun n => n = 0)
  protected_size : c.protected_size_ = tokens_with c (fun n => 0 < n)
  total : c.evictable_size_ + c.protected_size_ = c.total_size
  above_locked : ∀ a ∈ c.tree_nodes, ∀ b, Above (Tree.children c) a b →
    0 < (c.node b).lock_ref → 0 < (c.node a).lock_ref
  evict : ∀ num_tokens, ∃ c', evict num_tokens c = .ok ⟨⟩ c' ∧
    min num_tokens c.evictable_size_ ≤ c.total_size - c'.total_size ∧
      ∀ r ∈ c.tree_nodes, 0 < (c.node r).lock_ref → r ∈ c'.tree_nodes

theorem Sound.accounted (h : Sound host c line live held S) : Accounted c := by
  have hnodes := h.linked.tree.tree_nodes_spec.2
  refine ⟨h.evictable, h.protected_size, h.total, ?_, ?_⟩
  · intro a ha b hab hb
    exact h.locked_above ((hnodes a).mp ha) hab hb
  · intro num_tokens
    obtain ⟨_, c', hrun, live', hfreed⟩ := (evict.spec h num_tokens).returns
      (fun _ _ hno => hno) rfl
    refine ⟨c', hrun, ?_, ?_⟩
    · have htotal := h.total
      have htotal' := hfreed.sound.total
      have hprotected := hfreed.evicted.protected_size
      rcases hfreed.enough with henough | hnone
      · exact (min_le_left _ _).trans (by omega)
      · exact (min_le_right _ _).trans (by omega)
    · intro r hr hlock
      rw [hfreed.sound.linked.tree.tree_nodes_spec.2]
      by_contra hno
      have hfree := hfreed.evicted.unlocked r ((hnodes r).mp hr) hno
      omega

end

/-- In every run whose locks are taken on nodes of the tree the counters say what can be evicted
and what is locked, and an eviction frees what it can and nothing that is locked. -/
theorem the_counters_agree_with_the_tree {handles : List Ref} (h : LockRun host c handles) :
    Accounted c := by
  obtain ⟨_, _, _, hh⟩ := h.sound
  exact hh.sound.accounted

/-- A locked node that a match splits. -/
theorem the_counters_agree_with_the_tree_after_a_split :
    Accounted (stateOf ( match_prefix keeping [1] (stateOf (increase_lock_ref 1
      (stateOf (insert keeping [1, 2, 3] none [1, 2, 3] (.init keeping none))))))) :=
  the_counters_agree_with_the_tree ( LockRun.match_prefix (.increase
    (.insert (.start none) [1, 2, 3] none [1, 2, 3] rfl) (by decide)) [1])

/-- A handle that is locked when an eviction has taken its node: until it is released, one token
less than there is can be evicted. And a node with more values than tokens, which is counted with
its values and uncounted with its tokens. -/
theorem a_stale_handle_unbalances_the_counters :
    (∃ c₁ c₂ c₃ c₄ up down,
      insert keeping [1] none [1] (.init keeping none) = .ok (some (0, 1)) c₁ ∧
        evict 1 c₁ = .ok ⟨⟩ c₂ ∧ increase_lock_ref 1 c₂ = .ok up c₃ ∧
          c₃.evictable_size_ = -1 ∧ tokens_with c₃ (fun n => n = 0) = 0 ∧
            c₃.protected_size_ = 1 ∧ tokens_with c₃ (fun n => 0 < n) = 0 ∧
              decrease_lock_ref 1 c₃ = .ok down c₄) ∧
    ∃ c₁ c₂, insert keeping [1] (some [5, 6]) [1] (.init keeping none) = .ok (some (0, 1)) c₁ ∧
      evict 1 c₁ = .ok ⟨⟩ c₂ ∧ c₂.evictable_size_ = 1 ∧ c₂.total_size = 0 :=
  ⟨⟨_, _, _, _, _, _, rfl, rfl, rfl, by decide, by decide, by decide, by decide, rfl⟩,
    ⟨_, _, rfl, rfl, by decide, by decide⟩⟩

end parallax.server.radix_cache
