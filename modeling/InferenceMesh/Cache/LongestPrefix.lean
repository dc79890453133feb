-- The prefix cache as a store of token sequences: after any insertions, matches
-- and evictions a match returns the values of the longest beginning of its key
-- that is stored, and the tree has the shape of a radix tree.
import InferenceMesh.Cache.RadixEviction

open ordered_dict python state_exn stack_walk prefix_store

namespace parallax.server.radix_cache

variable {κ : Type} {host : Host κ} {c : RadixCache κ} {S : PrefixStore Int Int}

/-! ## What is stored -/

/-- A run of calls, with what it has stored: an insertion stores its key with the values, a match
changes nothing, and an eviction takes the sequences that end in the nodes it removes. -/
inductive Stores (host : Host κ) : RadixCache κ → PrefixStore Int Int → Prop
  | start (max_num_tokens : Option Int) : Stores host (.init host max_num_tokens) .empty
  | insert {c c' : RadixCache κ} {S : PrefixStore Int Int} {key : List Int}
      {value : Option (List Int)} {kv : List κ} {out : Option (Nat × Ref)} (h : Stores host c S)
      (hkey : key ≠ []) (hlen : (value.getD key).length = key.length)
      (hrun : insert host key value kv c = .ok out c') :
      Stores host c' (S.insert key (value.getD key))
  | match_prefix {c c' : RadixCache κ} {S : PrefixStore Int Int} {key : List Int}
      {out : List Int × Ref} (h : Stores host c S)
      (hrun : match_prefix host key c = .ok out c') : Stores host c' S
  | evict {c c' : RadixCache κ} {S : PrefixStore Int Int} {num_tokens : Int} (h : Stores host c S)
      (hrun : evict num_tokens c = .ok ⟨⟩ c') : Stores host c' (S.without (Gone c c'))

theorem Stores.sound (h : Stores host c S) : ∃ line live, Sound host c line live [] S := by
  induction h with
  | start max_num_tokens => exact ⟨_, _, init_sound host max_num_tokens⟩
  | insert _ hkey hlen hrun ih =>
    obtain ⟨line, live, hsound⟩ := ih
    obtain ⟨line', live', _, _, _, hgrown, _⟩ := (insert.spec hsound hkey _ hlen _).ok rfl hrun
    exact ⟨line', live', hgrown.sound⟩
  | match_prefix _ hrun ih =>
    obtain ⟨line, live, hsound⟩ := ih
    obtain ⟨_, line', live', hgrown, _⟩ := ( match_prefix.spec hsound _).ok rfl hrun
    exact ⟨line', live', hgrown.sound⟩
  | evict _ hrun ih =>
    obtain ⟨line, live, hsound⟩ := ih
    obtain ⟨live', hfreed⟩ := (evict.spec hsound _).ok rfl hrun
    exact ⟨line, live', hfreed.sound⟩

/-- The tree has a value at the end of a sequence. -/
def Holds (c : RadixCache κ) (p : List Int) (v : Int) : Prop := ∃ r l, Path c r l ∧ Labels l p v

theorem Sound.holds_iff {line : Ref → Line} {live : Finset Ref} {held : List (List Int)}
    (h : Sound host c line live held S) (p : List Int) (v : Int) :
    Holds c p v ↔ S.label p = some v := by
  rw [h.spells p v]
  constructor
  · rintro ⟨r, l, hpath, hl⟩
    obtain ⟨hr, rfl⟩ := h.linked.tree.path_iff.mp hpath
    exact ⟨line r, ⟨r, hr, rfl⟩, hl⟩
  · rintro ⟨_, ⟨r, hr, rfl⟩, hl⟩
    exact ⟨r, line r, h.linked.tree.path_iff.mpr ⟨hr, rfl⟩, hl⟩

/-! ## The radix tree -/

/-- The calls do not raise. -/
structure Returns (host : Host κ) (c : RadixCache κ) : Prop where
  insert : ∀ key value kv, key ≠ [] → (value.getD key).length = key.length →
    ∃ out c', insert host key value kv c = .ok out c'
  evict : ∀ num_tokens, ∃ c', evict num_tokens c = .ok ⟨⟩ c'

/-- Children by the first token, and a value for each token. -/
structure RadixShape (c : RadixCache κ) : Prop where
  first_token : ∀ p l token r, Path c p l → (c.node p).children.get? token = some r →
    (c.node r).key.head? = some token
  siblings : ∀ p l t u r s, Path c p l → (c.node p).children.get? t = some r →
    (c.node p).children.get? u = some s → r ≠ s → (c.node r).key.head? ≠ (c.node s).key.head?
  sized : ∀ r l, Path c r l → (c.node r).value.length = (c.node r).key.length

theorem Tree.radix_shape {line : Ref → Line} {live : Finset Ref} (h : Tree c line live) :
    RadixShape c := by
  have hfirst : ∀ p l token r, Path c p l → (c.node p).children.get? token = some r →
      (c.node r).key.head? = some token := by
    intro p l token r hpath hget
    exact (h.down p (h.path_iff.mp hpath).1 token r hget).2.2.2
  refine ⟨hfirst, ?_, ?_⟩
  · intro p l t u r s hpath hr hs hne heq
    rw [hfirst p l t r hpath hr, hfirst p l u s hpath hs, Option.some.injEq] at heq
    rw [heq, hs] at hr
    exact hne (Option.some.inj hr).symm
  · intro r l hpath
    exact h.sized r (h.path_iff.mp hpath).1

/-- The cache is a store of sequences that a match looks up. -/
structure StoreOf (host : Host κ) (c : RadixCache κ) (S : PrefixStore Int Int) : Prop where
  holds : ∀ p v, Holds c p v ↔ S.label p = some v
  matched : ∀ key, ∃ values node c', match_prefix host key c = .ok (values, node) c' ∧
    S.Longest key values
  split : ∀ r l n, Path c r l → 0 < n → n < (c.node r).key.length → ∃ new_node c',
    split_node host (c.node r).key r n c = .ok new_node c' ∧ ∀ p v, Holds c' p v ↔ Holds c p v
  shape : RadixShape c
  returns : Returns host c

/-- After any sequence of insertions, matches and evictions a match returns the values of the
longest beginning of its key that is stored, and no split changes what is stored. -/
theorem a_match_returns_the_longest_stored_prefix (hworks : host.Works) (h : Stores host c S) :
    StoreOf host c S := by
  obtain ⟨line, live, hsound⟩ := h.sound
  have ht := hsound.linked.tree
  refine ⟨hsound.holds_iff, ?_, ?_, ht.radix_shape, ⟨?_, ?_⟩⟩
  · intro key
    obtain ⟨⟨values, node⟩, c', hrun, hvalues, _⟩ :=
      ( match_prefix.spec hsound key).returns (fun _ _ hraised => hraised.1 hworks) rfl
    refine ⟨values, node, c', hrun, ?_⟩
    dsimp only at hvalues
    rw [hvalues]
    exact S.lookup_longest key
  · intro r l n hpath hpos hlt
    obtain ⟨hr, rfl⟩ := ht.path_iff.mp hpath
    have hroot : r ≠ c.root_node := by
      rintro rfl
      rw [ht.root_key] at hlt
      exact absurd hlt (Nat.not_lt_zero _)
    obtain ⟨p, hp, hchild, _⟩ := ht.parent hr hroot
    obtain ⟨token, _, _, hget⟩ := hchild.first
    obtain ⟨new_node, c', hrun, line', live', hgrown, _⟩ :=
      (split_node.spec hsound hp hget hpos hlt).returns (fun _ _ hraised => hraised.1 hworks) rfl
    refine ⟨new_node, c', hrun, ?_⟩
    intro q v
    rw [hgrown.sound.holds_iff, hsound.holds_iff]
  · intro key value kv hkey hlen
    obtain ⟨out, c', hrun, _⟩ :=
      (insert.spec hsound hkey value hlen kv).returns (fun _ _ hraised => hraised.1 hworks) rfl
    exact ⟨out, c', hrun⟩
  · intro num_tokens
    obtain ⟨_, c', hrun, _⟩ := (evict.spec hsound num_tokens).returns (fun _ _ hno => hno) rfl
    exact ⟨c', hrun⟩

/-- KV caches that keep the tensors they are given, and a clock that counts its readings. -/
def keeping : Host Int where
  monotonic n := n
  KVCache kv := .ok kv

/-- Two keys with a common beginning, the second of which splits the first one. -/
theorem a_match_returns_the_longest_stored_prefix_after_a_split :
    StoreOf keeping
      (stateOf (insert keeping [1, 2, 4] none [1, 2, 4]
        (stateOf (insert keeping [1, 2, 3] none [1, 2, 3] (.init keeping none)))))
      ((PrefixStore.empty.insert [1, 2, 3] [1, 2, 3]).insert [1, 2, 4] [1, 2, 4]) := by
  have hfirst : insert keeping [1, 2, 3] none [1, 2, 3] (.init keeping none) = .ok (some (0, 1))
      (stateOf (insert keeping [1, 2, 3] none [1, 2, 3] (.init keeping none))) := rfl
  have hsecond : insert keeping [1, 2, 4] none [1, 2, 4]
      (stateOf (insert keeping [1, 2, 3] none [1, 2, 3] (.init keeping none))) = .ok (some (2, 3))
        (stateOf (insert keeping [1, 2, 4] none [1, 2, 4]
          (stateOf (insert keeping [1, 2, 3] none [1, 2, 3] (.init keeping none))))) := rfl
  exact a_match_returns_the_longest_stored_prefix (fun kv => ⟨kv, rfl⟩)
    (.insert (.insert (.start none) (by decide) rfl hfirst) (by decide) rfl hsecond)

end parallax.server.radix_cache
