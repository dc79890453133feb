-- Matching and insertion, as the store of token sequences sees them. A match
-- follows the key as far as the lines go, and changes nothing that is stored;
-- an insertion adds what is missing. All of it holds on either exit.
import InferenceMesh.Cache.RadixLinks

open ordered_dict python state_exn stack_walk prefix_store

namespace parallax.server.radix_cache

variable {κ : Type}

/-- The class of the KV caches never raises. -/
def Host.Works (host : Host κ) : Prop := ∀ kv, ∃ kv', host.KVCache kv = .ok kv'

/-- The nodes of the tree have KV caches. -/
def Cached (c : RadixCache κ) (live : Finset Ref) : Prop :=
  ∀ r ∈ live, r ≠ c.root_node → (c.node r).kv_cache ≠ none

/-- The lines of the tree. -/
def Lines (line : Ref → Line) (live : Finset Ref) : Line → Prop := fun l => ∃ r ∈ live, line r = l

structure Sound (host : Host κ) (c : RadixCache κ) (line : Ref → Line) (live : Finset Ref)
    (held : List (List Int)) (S : PrefixStore Int Int) : Prop where
  linked : Linked c line live held
  spells : Spells (Lines line live) S
  cached : host.Works → Cached c live

/-- A later state: the nodes of before are still there, with their lines. -/
structure Grown (host : Host κ) (line : Ref → Line) (live : Finset Ref) (held : List (List Int))
    (S : PrefixStore Int Int) (c' : RadixCache κ) (line' : Ref → Line) (live' : Finset Ref) :
    Prop where
  sound : Sound host c' line' live' held S
  kept : ∀ r ∈ live, r ∈ live' ∧ line' r = line r

section

variable {host : Host κ} {c : RadixCache κ} {line : Ref → Line} {live : Finset Ref}
  {held : List (List Int)} {S : PrefixStore Int Int}

theorem Sound.grown (h : Sound host c line live held S) : Grown host line live held S c line live :=
  ⟨h, fun _ hr => ⟨hr, rfl⟩⟩

theorem Grown.trans {c₁ c₂ : RadixCache κ} {line₁ line₂ : Ref → Line} {live₁ live₂ : Finset Ref}
    {S' : PrefixStore Int Int} (h : Grown host line live held S c₁ line₁ live₁)
    (h' : Grown host line₁ live₁ held S' c₂ line₂ live₂) :
    Grown host line live held S' c₂ line₂ live₂ := by
  refine ⟨h'.sound, fun r hr => ?_⟩
  obtain ⟨hr₁, hline₁⟩ := h.kept r hr
  obtain ⟨hr₂, hline₂⟩ := h'.kept r hr₁
  exact ⟨hr₂, hline₂.trans hline₁⟩

theorem Sound.touch (h : Sound host c line live held S) (r : Ref) :
    Sound host (c.touch host r) line live held S := by
  refine ⟨h.linked.congr (touch_same host r), h.spells, ?_⟩
  intro hworks x hx hne
  have hcached := h.cached hworks x hx hne
  by_cases hxr : x = r
  · subst hxr
    simpa [RadixCache.touch, RadixCache.modify_node] using hcached
  · simpa [RadixCache.touch, RadixCache.modify_node, hxr] using hcached

/-! ## KV caches -/

theorem fetch.spec (r : Ref) :
    Triple (fun s => s = c) (fetch r) (fun kv s => s = c ∧ (c.node r).kv_cache = some kv)
      (fun _ s => s = c ∧ (c.node r).kv_cache = none) := by
  rintro s rfl
  unfold fetch
  rw [get_bind]
  rcases hkv : (s.node r).kv_cache with _ | kv
  · exact ⟨rfl, rfl⟩
  · exact ⟨rfl, rfl⟩

theorem store_kv_cache.spec (r : Ref) (kv : List κ) :
    Triple (fun s => s = c) (store_kv_cache host r kv) (fun _ s => ∃ kv', s = c.set_kv_cache r kv')
      (fun _ s => s = c ∧ ¬ host.Works) := by
  rintro s rfl
  unfold store_kv_cache
  rcases hkv : host.KVCache kv with e | kv'
  · refine ⟨rfl, fun hworks => ?_⟩
    obtain ⟨kv', hok⟩ := hworks kv
    rw [hkv] at hok
    cases hok
  · exact ⟨kv', rfl⟩

/-- The KV caches of two nodes replaced, or the class raises. -/
theorem share_kv_cache.spec {child new_node : Ref} (hne : new_node ≠ child) (n : Nat) :
    Triple (fun s => s = c)
      (do
        let kv ← fetch child
        store_kv_cache host new_node (kv.take n)
        store_kv_cache host child (kv.drop n)
        return new_node : RadixM κ Ref)
      (fun r s => r = new_node ∧ (∀ live : Finset Ref, SameLinks c s live) ∧
        (s.node child).kv_cache ≠ none ∧ (s.node new_node).kv_cache ≠ none ∧
          ∀ x, x ≠ child → x ≠ new_node → (s.node x).kv_cache = (c.node x).kv_cache)
      (fun _ s => (∀ live : Finset Ref, SameLinks c s live) ∧
        ((c.node child).kv_cache ≠ none → ¬ host.Works)) := by
  have hrefl : ∀ live : Finset Ref, SameLinks c c live :=
    fun _ => ⟨rfl, le_rfl, rfl, rfl, fun _ _ => rfl⟩
  refine Triple.bind (Triple.mono (fetch.spec child) (fun _ h => h) (fun _ _ h => h) ?_) ?_
  · rintro _ s ⟨rfl, hnone⟩
    exact ⟨hrefl, fun hsome => absurd hnone hsome⟩
  · intro kv s
    rintro ⟨rfl, hkv⟩
    refine Triple.bind (Triple.mono (store_kv_cache.spec new_node (kv.take n)) (fun _ h => h)
      (fun _ _ h => h) ?_) ?_ s rfl
    · rintro _ _ ⟨rfl, hno⟩
      exact ⟨hrefl, fun _ => hno⟩
    · rintro _ s₁ ⟨kv₁, rfl⟩
      have hsame₁ : ∀ live : Finset Ref, SameLinks s (s.set_kv_cache new_node kv₁) live :=
        fun _ => set_kv_cache_same new_node kv₁
      refine Triple.bind (Triple.mono (store_kv_cache.spec child (kv.drop n)) (fun _ h => h)
        (fun _ _ h => h) ?_) ?_ _ rfl
      · rintro _ _ ⟨rfl, hno⟩
        exact ⟨hsame₁, fun _ => hno⟩
      · rintro _ s₂ ⟨kv₂, rfl⟩
        refine ⟨rfl, ?_, ?_, ?_, ?_⟩
        · intro live
          obtain ⟨h1, h2, h3, h4, h5⟩ := hsame₁ live
          have hsame₂ : SameLinks (s.set_kv_cache new_node kv₁)
              ((s.set_kv_cache new_node kv₁).set_kv_cache child kv₂) live :=
            set_kv_cache_same child kv₂
          obtain ⟨g1, g2, g3, g4, g5⟩ := hsame₂
          exact ⟨g1.trans h1, h2.trans g2, g3.trans h3, g4.trans h4,
            fun r hr => (g5 r hr).trans (h5 r hr)⟩
        · simp [RadixCache.set_kv_cache, RadixCache.modify_node]
        · simp [RadixCache.set_kv_cache, RadixCache.modify_node, hne]
        · intro x hx hx'
          simp [RadixCache.set_kv_cache, RadixCache.modify_node, hx, hx']

/-! ## Splits -/

theorem split_node_eq {key : List Int} {child parent : Ref} {split_len : Nat}
    {first_key child_key : Int} {front back : List Int}
    (hparent : (c.node child).parent = some parent) (hfront : key = first_key :: front)
    (hback : key.drop split_len = child_key :: back) :
    split_node host key child split_len c =
      (do
        let kv ← fetch child
        store_kv_cache host c.counter (kv.take split_len)
        store_kv_cache host child (kv.drop split_len)
        return c.counter : RadixM κ Ref)
      ((c.new_tree_node host).link_split c.counter child parent first_key child_key split_len) := by
  unfold split_node
  rw [get_bind, set_bind, hback, hparent, hfront]
  rfl

/-- The new line of a split is a part of one that is there. -/
theorem Spells.split {new_node child parent : Ref} {n : Nat} (hfresh : new_node ∉ live)
    (hchild : child ∈ live) (hline : line child = line parent ++ (c.node child).edge)
    (h : Spells (Lines line live) S) :
    Spells (Lines (split_line c line new_node child parent n) (Insert.insert new_node live)) S := by
  have hold : ∀ r ∈ live, split_line c line new_node child parent n r = line r := by
    intro r hr
    apply Function.update_of_ne
    rintro rfl
    exact hfresh hr
  apply h.congr
  · rintro _ ⟨r, hr, rfl⟩
    exact ⟨r, Finset.mem_insert_of_mem hr, hold r hr⟩
  · rintro _ ⟨r, hr, rfl⟩
    rcases Finset.mem_insert.mp hr with rfl | hr
    · refine ⟨_, ⟨child, hchild, rfl⟩, ?_⟩
      rw [split_line_new, hline, List.prefix_append_right_inj]
      exact List.take_prefix _ _
    · exact ⟨_, ⟨r, hr, rfl⟩, by rw [hold r hr]⟩

/-- A split keeps all that is known, and returns the upper part of the child. -/
theorem split_node.spec (h : Sound host c line live held S) {parent child : Ref}
    (hparent : parent ∈ live) {token : Int} (hget : (c.node parent).children.get? token = some child)
    {n : Nat} (hpos : 0 < n) (hlt : n < (c.node child).key.length) :
    Triple (fun s => s = c) (split_node host (c.node child).key child n)
      (fun new_node c' => ∃ line' live', Grown host line live held S c' line' live' ∧
        new_node ∈ live' ∧ line' new_node = line parent ++ (c.node child).edge.take n ∧
          (c'.node new_node).value = (c.node child).value.take n)
      (fun _ c' => ¬ host.Works ∧ ∃ line' live', Grown host line live held S c' line' live') := by
  have ht := h.linked.tree
  obtain ⟨hchild, hcroot, hisc, _, hline, rest, hkey⟩ := ht.child hparent hget
  have hfresh : c.counter ∉ live := fun hmem => absurd (ht.created _ hmem) (lt_irrefl _)
  -- The place of the new node is taken first, and nothing in the tree changes with that.
  have hsame₁ : SameLinks c (c.new_tree_node host) live := new_tree_node_same host ht.created
  have h₁ := h.linked.congr hsame₁
  have hnode : ∀ r ∈ live, (c.new_tree_node host).node r = c.node r := by
    intro r hr
    exact Function.update_of_ne (ht.created r hr).ne _ _
  have hback : ∃ child_key back, (c.node child).key.drop n = child_key :: back :=
    List.exists_cons_of_length_pos (by rw [List.length_drop]; omega)
  obtain ⟨child_key, back, hback⟩ := hback
  have hfront : ∃ front, (c.node child).key.take n = token :: front := by
    obtain ⟨m, rfl⟩ : ∃ m, n = m + 1 := ⟨n - 1, by omega⟩
    exact ⟨rest.take m, by rw [hkey, List.take_succ_cons]⟩
  have hsplits : Splits (c.new_tree_node host) line live c.counter child parent token child_key n := by
    refine ⟨hparent, ?_, hfresh, Nat.lt_succ_self _, ?_, ⟨back, ?_⟩⟩
    · rw [hnode parent hparent]
      exact hget
    · rw [hnode child hchild]
      exact hfront
    · rw [hnode child hchild]
      exact hback
  obtain ⟨_, hpc, hnc, hnp⟩ := hsplits.ne h₁.tree
  have hnodes : SplitNodes (c.new_tree_node host)
      ((c.new_tree_node host).link_split c.counter child parent token child_key n) c.counter child
        parent token child_key n := link_split_nodes hpc hnc hnp
  set c₂ := (c.new_tree_node host).link_split c.counter child parent token child_key n with hc₂
  have hlinked₂ : Linked c₂ (split_line (c.new_tree_node host) line c.counter child parent n)
      (Insert.insert c.counter live) held :=
    ⟨split_tree h₁.tree hsplits hnodes rfl le_rfl,
      split_counted h₁.tree hsplits hnodes h₁.counted rfl rfl,
      split_locked h₁.tree hsplits hnodes rfl h₁.locked⟩
  have hspells₂ : Spells (Lines (split_line (c.new_tree_node host) line c.counter child parent n)
      (Insert.insert c.counter live)) S := by
    apply Spells.split hfresh hchild _ h.spells
    rw [hnode child hchild]
    exact hline
  have hkept₂ : ∀ r ∈ live, r ∈ Insert.insert c.counter live ∧
      split_line (c.new_tree_node host) line c.counter child parent n r = line r :=
    fun r hr => ⟨Finset.mem_insert_of_mem hr, split_line_old hsplits hr⟩
  have hkv₂ : ∀ r ∈ live, (c₂.node r).kv_cache = (c.node r).kv_cache := by
    intro r hr
    have hrn : r ≠ c.counter := (ht.created r hr).ne
    by_cases hrp : r = parent
    · subst hrp
      simp [hc₂, RadixCache.link_split, RadixCache.modify_node, RadixCache.new_tree_node, hrn, hpc]
    · by_cases hrc : r = child
      · subst hrc
        simp [hc₂, RadixCache.link_split, RadixCache.modify_node, RadixCache.new_tree_node, hrn,
          hrp]
      · simp [hc₂, RadixCache.link_split, RadixCache.modify_node, RadixCache.new_tree_node, hrn,
          hrp, hrc]
  rintro s rfl
  rw [split_node_eq hisc.parent hkey hback]
  refine Triple.mono (share_kv_cache.spec hnc n) (fun _ h => h) ?_ ?_ c₂ rfl
  · rintro _ c' ⟨rfl, hsame, hkvc, hkvn, hkvo⟩
    refine ⟨_, _, ⟨⟨hlinked₂.congr (hsame _), hspells₂, ?_⟩, hkept₂⟩, Finset.mem_insert_self _ _,
      ?_, ?_⟩
    · intro hworks r hr hne
      rcases Finset.mem_insert.mp hr with rfl | hr
      · exact hkvn
      · by_cases hrc : r = child
        · subst hrc
          exact hkvc
        · rw [hkvo r hrc (ht.created r hr).ne, hkv₂ r hr]
          apply h.cached hworks r hr
          rw [(hsame live).root] at hne
          exact hne
    · rw [split_line_new, hnode child hchild]
    · have hvalue := TreeNode.value_eq ((hsame {s.counter}).links _ (Finset.mem_singleton_self _))
      have hupper : (c₂.node s.counter).value =
          ((s.new_tree_node host).node child).value.take n :=
        congrArg (fun x => x.2.2.2.1) hnodes.upper
      rw [hvalue, hupper, hnode child hchild]
  · rintro _ c' ⟨hsame, hno⟩
    have hworks : ¬ host.Works := by
      intro hworks
      refine hno ?_ hworks
      rw [hkv₂ child hchild]
      exact h.cached hworks child hchild hcroot
    exact ⟨hworks, _, _, ⟨⟨hlinked₂.congr (hsame _), hspells₂, fun hw => absurd hw hworks⟩, hkept₂⟩⟩

/-! ## Common beginnings -/

theorem key_match_page_size1.spec (key0 key1 : List Int) :
    key_match_page_size1 key0 key1 ≤ key0.length ∧ key_match_page_size1 key0 key1 ≤ key1.length ∧
      key0.take (key_match_page_size1 key0 key1) = key1.take (key_match_page_size1 key0 key1) ∧
      ∀ token, key0[key_match_page_size1 key0 key1]? = some token →
        key1[key_match_page_size1 key0 key1]? ≠ some token := by
  induction key0 generalizing key1 with
  | nil => simp [key_match_page_size1]
  | cons k0 key0 ih =>
    rcases key1 with _ | ⟨k1, key1⟩
    · simp [key_match_page_size1]
    · unfold key_match_page_size1
      split
      · rename_i hne
        refine ⟨Nat.zero_le _, Nat.zero_le _, rfl, ?_⟩
        intro token h0 h1
        rw [List.getElem?_cons_zero] at h0 h1
        exact hne ((Option.some.inj h0).trans (Option.some.inj h1).symm)
      · rename_i heq
        obtain ⟨h1, h2, h3, h4⟩ := ih key1
        refine ⟨Nat.succ_le_succ h1, Nat.succ_le_succ h2, ?_, h4⟩
        rw [List.take_succ_cons, List.take_succ_cons, h3, not_not.mp heq]

theorem key_match_pos (token : Int) (key0 key1 : List Int) :
    0 < key_match_page_size1 (token :: key0) (token :: key1) := by
  unfold key_match_page_size1
  rw [if_neg (not_not.mpr rfl)]
  exact Nat.succ_pos _

theorem le_key_match {t key0 key1 : List Int} (h0 : t <+: key0) (h1 : t <+: key1) :
    t.length ≤ key_match_page_size1 key0 key1 := by
  induction t generalizing key0 key1 with
  | nil => exact Nat.zero_le _
  | cons token t ih =>
    obtain ⟨rest0, rfl⟩ := h0
    obtain ⟨rest1, rfl⟩ := h1
    simp only [List.cons_append, key_match_page_size1, ne_eq, not_true_eq_false, if_false]
    exact Nat.succ_le_succ (ih ( List.prefix_append _ _) ( List.prefix_append _ _))

/-- What comes behind the first items of a list. -/
theorem next_of_prefix {l : List Int} {n : Nat} {token : Int} (hn : n ≤ l.length)
    (h : l.take n ++ [token] <+: l) : l[n]? = some token := by
  obtain ⟨more, hmore⟩ := h
  have hlen : (l.take n).length = n := List.length_take_of_le hn
  rw [← hmore, List.append_assoc, List.getElem?_append_right hlen.le, hlen, Nat.sub_self]
  rfl

/-- A sequence that goes on behind a node where no child leads on is not stored. -/
theorem not_stored_of_free (h : Sound host c line live held S) {node : Ref} (hnode : node ∈ live)
    {token : Int} (hnone : (c.node node).children.get? token = none) {p : List Int}
    (hp : tokens line node ++ [token] <+: p) : ¬ S.Stored p := by
  intro hstored
  obtain ⟨_, ⟨r, hr, rfl⟩, hpr⟩ := h.spells.exists_line hstored (by
    rintro rfl
    simpa using List.prefix_nil.mp hp)
  obtain ⟨x, hx, _⟩ := h.linked.tree.descend hnode hr (hp.trans hpr)
  rw [hnone] at hx
  cases hx

/-- A sequence that leaves the tokens of a child is not stored. -/
theorem not_stored_of_mismatch (h : Sound host c line live held S) {node child : Ref}
    (hnode : node ∈ live) {token : Int} (hget : (c.node node).children.get? token = some child)
    {n : Nat} (hpos : 0 < n) (hlt : n < (c.node child).key.length) {next : Int}
    (hnext : (c.node child).key[n]? ≠ some next) :
    ¬ S.Stored (tokens line node ++ (c.node child).key.take n ++ [next]) := by
  intro hstored
  have ht := h.linked.tree
  obtain ⟨_, _, _, htokens, _, rest, hkey⟩ := ht.child hnode hget
  obtain ⟨_, ⟨r, hr, rfl⟩, hpr⟩ := h.spells.exists_line hstored (by simp)
  change _ <+: tokens line r at hpr
  have hfirst : tokens line node ++ [token] <+:
      tokens line node ++ (c.node child).key.take n ++ [next] := by
    obtain ⟨m, rfl⟩ : ∃ m, n = m + 1 := ⟨n - 1, by omega⟩
    rw [List.append_assoc, List.prefix_append_right_inj, hkey, List.take_succ_cons]
    simp
  obtain ⟨x, hx, hxr⟩ := ht.descend hnode hr (hfirst.trans hpr)
  rw [hget] at hx
  obtain rfl := Option.some.inj hx
  apply hnext
  apply next_of_prefix hlt.le
  have hshort := List.prefix_of_prefix_length_le hpr hxr (by
    simp only [htokens, List.length_append, List.length_take, List.length_singleton]
    omega)
  rw [htokens, List.append_assoc, List.prefix_append_right_inj] at hshort
  exact hshort

/-! ## Matching -/

/-- What a match has found: the values of its last node, whose tokens begin the key, and nothing
that is stored goes on from there along the key. -/
structure Followed (S : PrefixStore Int Int) (line : Ref → Line) (live : Finset Ref)
    (key : List Int) (value : List Int) (node : Ref) : Prop where
  node_live : node ∈ live
  value_eq : value = (line node).map Prod.snd
  beginning : tokens line node <+: key
  longest : ∀ token, tokens line node ++ [token] <+: key →
    ¬ S.Stored (tokens line node ++ [token])

/-- The values that a match returns are those of the longest beginning that is stored. -/
theorem Followed.lookup {c' : RadixCache κ} {key value : List Int} {node : Ref}
    (h : Followed S line live key value node) (hs : Sound host c' line live held S) :
    value = S.lookup key := by
  obtain ⟨rest, rfl⟩ := h.beginning
  rw [h.value_eq]
  refine (hs.spells.lookup_eq ⟨node, h.node_live, rfl⟩ ?_).symm
  intro token htoken
  apply h.longest
  rw [List.prefix_append_right_inj]
  exact htoken

theorem match_loop_child {fuel : Nat} {node child : Ref} {child_key : Int} {rest value : List Int}
    (hget : (c.node node).children.get? child_key = some child) {n : Nat}
    (hn : key_match_page_size1 (c.node child).key (child_key :: rest) = n) :
    match_loop host (fuel + 1) node (child_key :: rest) value c =
      (if n ≥ (c.node child).key.length then
        match_loop host fuel child ((child_key :: rest).drop n) (value ++ (c.node child).value)
      else do
        let new_node ← split_node host (c.node child).key child n
        let c ← get
        return (value ++ (c.node new_node).value, new_node)) (c.touch host child) := by
  rw [match_loop, get_bind, hget, ← hn]
  rfl

/-- Where the tokens of a child agree with the key to their end, the key goes on below it. -/
theorem key_below_child (h : Sound host c line live held S) {node child : Ref} (hnode : node ∈ live)
    {token : Int} (hget : (c.node node).children.get? token = some child) {key : List Int} {n : Nat}
    (hn : n = (c.node child).key.length) (htake : (c.node child).key.take n = key.take n) :
    tokens line node ++ key = tokens line child ++ key.drop n := by
  obtain ⟨_, _, _, htokens, _⟩ := h.linked.tree.child hnode hget
  have hbegin : (c.node child).key = key.take n := by
    rw [← htake, hn, List.take_length]
  rw [htokens, hbegin, List.append_assoc, List.take_append_drop]

theorem touch_node (r x : Ref) : ((c.touch host r).node x).links = (c.node x).links := by
  have hsame : SameLinks c (c.touch host r) {x} := touch_same host r
  exact hsame.links x (Finset.mem_singleton_self x)

theorem match_loop.spec (fuel : Nat) (h : Sound host c line live held S) {node : Ref}
    (hnode : node ∈ live) {key value : List Int} (hvalue : value = (line node).map Prod.snd)
    (hfuel : key.length ≤ fuel) :
    Triple (fun s => s = c) (match_loop host fuel node key value)
      (fun out c' => ∃ line' live', Grown host line live held S c' line' live' ∧
        Followed S line' live' (tokens line node ++ key) out.1 out.2)
      (fun _ c' => ¬ host.Works ∧ ∃ line' live', Grown host line live held S c' line' live') := by
  have hdone : ∀ {key value : List Int} {node : Ref} {c : RadixCache κ} {line live},
      Sound host c line live held S → node ∈ live → value = (line node).map Prod.snd → key = [] →
        Followed S line live (tokens line node ++ key) value node := by
    rintro key value node c line live _ hnode hvalue rfl
    refine ⟨hnode, hvalue, by simp, ?_⟩
    intro token htoken
    have hlen := htoken.length_le
    simp at hlen
  induction fuel generalizing c line live node key value with
  | zero =>
    rintro s rfl
    have hnil := List.length_eq_zero_iff.mp (Nat.le_zero.mp hfuel)
    exact ⟨line, live, h.grown, hdone h hnode hvalue hnil⟩
  | succ fuel ih =>
    rintro s rfl
    rcases key with _ | ⟨child_key, rest⟩
    · exact ⟨line, live, h.grown, hdone h hnode hvalue rfl⟩
    · rcases hget : (s.node node).children.get? child_key with _ | child
      · unfold match_loop
        rw [get_bind, hget]
        refine ⟨line, live, h.grown, hnode, hvalue, List.prefix_append _ _, ?_⟩
        intro token htoken
        rw [List.prefix_append_right_inj, List.singleton_prefix_cons_iff] at htoken
        rw [htoken]
        exact not_stored_of_free h hnode hget List.prefix_rfl
      · obtain ⟨hchild, _, _, htokens, hline, more, hkey⟩ := h.linked.tree.child hnode hget
        obtain ⟨n, hn⟩ : ∃ n, key_match_page_size1 (s.node child).key (child_key :: rest) = n :=
          ⟨_, rfl⟩
        have hmatch := key_match_page_size1.spec (s.node child).key (child_key :: rest)
        rw [hn] at hmatch
        obtain ⟨hle, hle', htake, hdiffers⟩ := hmatch
        have hpos : 0 < n := by
          rw [← hn, hkey]
          exact key_match_pos _ _ _
        have hgrown : Grown host line live held S (s.touch host child) line live :=
          (h.touch child).grown
        rw [match_loop_child hget hn]
        by_cases hge : n ≥ (s.node child).key.length
        · -- The whole child is matched, and the way goes on below it.
          rw [if_pos hge, key_below_child h hnode hget (le_antisymm hle hge) htake]
          refine ih (h.touch child) hchild ?_ ?_ _ rfl
          · rw [hline, List.map_append, ← hvalue, TreeNode.edge,
              List.map_snd_zip (h.linked.tree.sized child hchild).le]
          · rw [List.length_drop]
            rw [List.length_cons] at hfuel ⊢
            omega
        · -- The child is matched in part, and its upper part ends the way.
          rw [if_neg hge]
          have hlt : n < (s.node child).key.length := Nat.lt_of_not_ge hge
          have hsame : SameShape (s.node child) ((s.touch host child).node child) :=
            SameShape.of_links (touch_node child child)
          have hget' : ((s.touch host child).node node).children.get? child_key = some child := by
            rw [TreeNode.children_eq (touch_node child node)]
            exact hget
          have hsplit := split_node.spec (h.touch child) hnode hget' hpos (hsame.key ▸ hlt)
          rw [hsame.key] at hsplit
          refine (Triple.bind hsplit ?_) _ rfl
          rintro new_node s' ⟨line', live', hgrown', hnew, hupper, hvalue'⟩
          have hsized := h.linked.tree.sized child hchild
          rw [hsame.edge] at hupper
          have hupper_tokens : tokens line' new_node =
              tokens line node ++ (child_key :: rest).take n := by
            rw [tokens, hupper, List.map_append, List.map_take, map_fst_edge hsized, htake]
            rfl
          refine ⟨line', live', hgrown', hnew, ?_, ?_, ?_⟩
          · dsimp only
            rw [hupper, List.map_append, ← hvalue, hvalue', hsame.value, List.map_take, TreeNode.edge,
              List.map_snd_zip hsized.le]
          · rw [hupper_tokens, List.prefix_append_right_inj]
            exact List.take_prefix _ _
          · intro token htoken
            rw [hupper_tokens, List.append_assoc, List.prefix_append_right_inj] at htoken
            have hnext := next_of_prefix hle' htoken
            rw [hupper_tokens, ← htake]
            apply not_stored_of_mismatch h hnode hget hpos hlt
            intro hsame
            exact hdiffers token hsame hnext

/-- A match returns the values of the longest beginning of the key that is stored. -/
theorem match_prefix.spec (h : Sound host c line live held S) (key : List Int) :
    Triple (fun s => s = c) ( match_prefix host key)
      (fun out c' => out.1 = S.lookup key ∧ ∃ line' live', Grown host line live held S c' line' live' ∧
        Followed S line' live' key out.1 out.2)
      (fun _ c' => ¬ host.Works ∧ ∃ line' live', Grown host line live held S c' line' live') := by
  have hroot := h.linked.tree.tokens_root
  have hroot_line := h.linked.tree.root_line
  rintro s rfl
  unfold match_prefix
  rw [get_bind]
  rcases key with _ | ⟨token, rest⟩
  · refine ⟨rfl, line, live, h.grown, h.linked.tree.root_live, ?_, ?_, ?_⟩
    · rw [hroot_line]
      rfl
    · rw [hroot]
    · intro token htoken
      rw [hroot] at htoken
      simpa using List.prefix_nil.mp htoken
  · have hne : (token :: rest).length ≠ 0 := Nat.succ_ne_zero _
    rw [if_neg hne, set_bind]
    have hnil : [] = (line s.root_node).map Prod.snd := by
      rw [hroot_line]
      rfl
    refine Triple.mono (match_loop.spec _ (h.touch s.root_node) h.linked.tree.root_live hnil
      le_rfl) (fun _ h => h) ?_ (fun _ _ h => h) _ rfl
    rintro out c' ⟨line', live', hgrown, hfollowed⟩
    rw [hroot, List.nil_append] at hfollowed
    exact ⟨hfollowed.lookup hgrown.sound, line', live', hgrown, hfollowed⟩

/-! ## Insertion -/

theorem insert_loop_child {fuel : Nat} {node child : Ref} {child_key : Int}
    {rest value : List Int} {total : Nat}
    (hget : (c.node node).children.get? child_key = some child) {n : Nat}
    (hn : key_match_page_size1 (c.node child).key (child_key :: rest) = n) :
    insert_loop host (fuel + 1) node (child_key :: rest) value total c =
      ((if n < (c.node child).key.length then split_node host (c.node child).key child n
        else pure child) >>= fun last =>
          insert_loop host fuel last ((child_key :: rest).drop n) (value.drop n) (total + n))
        (c.touch host child) := by
  rw [insert_loop, get_bind, hget, ← hn]
  dsimp only
  rw [set_bind]
  split
  · rfl
  · rfl

/-- What an insertion has found when it stops: the last node, and what is left of the key and of
the values. No child leads on along the key. -/
structure Reached (c : RadixCache κ) (line : Ref → Line) (live : Finset Ref)
    (key values : List Int) (out : Ref × List Int × List Int × Nat) : Prop where
  node_live : out.1 ∈ live
  tokens_eq : tokens line out.1 ++ out.2.1 = key
  values_eq : out.2.2.1 = values.drop (line out.1).length
  total_eq : out.2.2.2 = (line out.1).length
  free : ∀ token rest, out.2.1 = token :: rest → (c.node out.1).children.get? token = none

/-- A node that shares its first tokens with a key ends there after a split. -/
theorem split_at.spec (h : Sound host c line live held S) {parent child : Ref}
    (hparent : parent ∈ live) {token : Int} (hget : (c.node parent).children.get? token = some child)
    {n : Nat} (hpos : 0 < n) (hle : n ≤ (c.node child).key.length) :
    Triple (fun s => s = c)
      (if n < (c.node child).key.length then split_node host (c.node child).key child n
        else pure child)
      (fun last c' => ∃ line' live', Grown host line live held S c' line' live' ∧ last ∈ live' ∧
        line' last = line parent ++ (c.node child).edge.take n)
      (fun _ c' => ¬ host.Works ∧ ∃ line' live', Grown host line live held S c' line' live') := by
  split
  · rename_i hlt
    refine Triple.mono (split_node.spec h hparent hget hpos hlt) (fun _ h => h) ?_ (fun _ _ h => h)
    rintro last c' ⟨line', live', hgrown, hlast, hline, _⟩
    exact ⟨line', live', hgrown, hlast, hline⟩
  · rename_i hge
    rintro s rfl
    obtain ⟨hchild, _, _, _, hline, _⟩ := h.linked.tree.child hparent hget
    refine ⟨line, live, h.grown, hchild, ?_⟩
    rw [hline, List.take_of_length_le]
    rw [TreeNode.edge, List.length_zip]
    omega

theorem insert_loop.spec (fuel : Nat) (h : Sound host c line live held S) {node : Ref}
    (hnode : node ∈ live) {key value values : List Int} {total : Nat}
    (hvalue : value = values.drop (line node).length) (htotal : total = (line node).length)
    (hfuel : key.length ≤ fuel) :
    Triple (fun s => s = c) (insert_loop host fuel node key value total)
      (fun out c' => ∃ line' live', Grown host line live held S c' line' live' ∧
        Reached c' line' live' (tokens line node ++ key) values out)
      (fun _ c' => ¬ host.Works ∧ ∃ line' live', Grown host line live held S c' line' live') := by
  induction fuel generalizing c line live node key value total with
  | zero =>
    rintro s rfl
    have hnil := List.length_eq_zero_iff.mp (Nat.le_zero.mp hfuel)
    subst hnil
    exact ⟨line, live, h.grown, hnode, rfl, hvalue, htotal, fun _ _ hcons => by cases hcons⟩
  | succ fuel ih =>
    rintro s rfl
    rcases key with _ | ⟨child_key, rest⟩
    · exact ⟨line, live, h.grown, hnode, rfl, hvalue, htotal, fun _ _ hcons => by cases hcons⟩
    · rcases hget : (s.node node).children.get? child_key with _ | child
      · rw [insert_loop, get_bind, hget]
        refine ⟨line, live, h.grown, hnode, rfl, hvalue, htotal, ?_⟩
        intro token rest' hcons
        rw [← (List.cons.inj hcons).1]
        exact hget
      · obtain ⟨hchild, _, _, _, _, more, hkey⟩ := h.linked.tree.child hnode hget
        obtain ⟨n, hn⟩ : ∃ n, key_match_page_size1 (s.node child).key (child_key :: rest) = n :=
          ⟨_, rfl⟩
        have hmatch := key_match_page_size1.spec (s.node child).key (child_key :: rest)
        rw [hn] at hmatch
        obtain ⟨hle, hle', htake, _⟩ := hmatch
        have hpos : 0 < n := by
          rw [← hn, hkey]
          exact key_match_pos _ _ _
        have hsame : SameShape (s.node child) ((s.touch host child).node child) :=
          SameShape.of_links (touch_node child child)
        have hget' : ((s.touch host child).node node).children.get? child_key = some child := by
          rw [TreeNode.children_eq (touch_node child node)]
          exact hget
        rw [← hsame.key] at hle
        have hstep := split_at.spec (h.touch child) hnode hget' hpos hle
        rw [hsame.key] at hle
        rw [hsame.key, hsame.edge] at hstep
        rw [insert_loop_child hget hn]
        refine Triple.bind hstep ?_ _ rfl
        rintro last s' ⟨line', live', hgrown, hlast, hline⟩
        have hsized := h.linked.tree.sized child hchild
        have hlength : (line' last).length = (line node).length + n := by
          rw [hline, List.length_append, List.length_take, TreeNode.edge, List.length_zip]
          omega
        have hall : tokens line node ++ child_key :: rest =
            tokens line' last ++ (child_key :: rest).drop n := by
          rw [tokens, tokens, hline, List.map_append, List.map_take, map_fst_edge hsized, htake,
            List.append_assoc, List.take_append_drop]
        rw [hall]
        have hvalue' : value.drop n = values.drop (line' last).length := by
          rw [hvalue, List.drop_drop, hlength]
        have htotal' : total + n = (line' last).length := by
          rw [htotal, hlength]
        have hfuel' : ((child_key :: rest).drop n).length ≤ fuel := by
          rw [List.length_drop]
          omega
        refine Triple.mono (ih hgrown.sound hlast hvalue' htotal' hfuel') (fun _ h => h) ?_ ?_ s' rfl
        · rintro out c' ⟨line'', live'', hgrown', hreached⟩
          exact ⟨line'', live'', hgrown.trans hgrown', hreached⟩
        · rintro _ c' ⟨hworks, line'', live'', hgrown'⟩
          exact ⟨hworks, line'', live'', hgrown.trans hgrown'⟩

/-- A new leaf for what is left of the key. It is in the tree when its KV cache is made. -/
theorem add_leaf.spec (h : Sound host c line live held S) {node : Ref} {token : Int}
    {rest value values key : List Int} {total : Nat}
    (hr : Reached c line live key values (node, token :: rest, value, total))
    (hlen : values.length = key.length) (kv : List κ) :
    Triple (fun s => s = c) (add_leaf host node (token :: rest) value total kv)
      (fun new_node c' => ∃ line' live', Grown host line live held (S.insert key values) c' line' live' ∧
        new_node ∈ live' ∧ tokens line' new_node = key)
      (fun _ c' => ¬ host.Works ∧
        ∃ line' live', Grown host line live held (S.insert key values) c' line' live') := by
  have ht := h.linked.tree
  obtain ⟨hnode, hkey, hvalue, _, hfree⟩ := hr
  dsimp only at hnode hkey hvalue hfree
  have hfree' := hfree token rest rfl
  have hfresh : c.counter ∉ live := fun hmem => absurd (ht.created _ hmem) (lt_irrefl _)
  have hlines : values.length = (line node).length + (token :: rest).length := by
    rw [hlen, ← hkey, List.length_append, tokens, List.length_map]
  have hsized : value.length = (token :: rest).length := by
    rw [hvalue, List.length_drop]
    omega
  have hadds : Adds c live c.counter node token rest value := ⟨hnode, hfresh, hfree', hsized⟩
  set c₂ := (c.new_tree_node host).link_leaf c.counter node token (token :: rest) value with hc₂
  have hnodes : LeafNodes c c₂ c.counter node token (token :: rest) value :=
    link_leaf_nodes host (ht.created node hnode).ne' (token :: rest)
  have hlinked : Linked c₂ (leaf_line line c.counter node (token :: rest) value)
      (Insert.insert c.counter live) held :=
    ⟨leaf_tree hadds hnodes ht rfl (Nat.le_succ _) (Nat.lt_succ_self _),
      leaf_counted hadds hnodes h.linked.counted rfl rfl,
      leaf_locked hadds hnodes ht rfl h.linked.locked⟩
  have hnew_line : leaf_line line c.counter node (token :: rest) value c.counter =
      line node ++ (token :: rest).zip value := Function.update_self _ _ _
  have hspells : Spells (Lines (leaf_line line c.counter node (token :: rest) value)
      (Insert.insert c.counter live)) (S.insert key values) := by
    rw [← hkey]
    have hnew : ¬ S.Stored (tokens line node ++ [token]) :=
      not_stored_of_free h hnode hfree' List.prefix_rfl
    have hmore := h.spells.insert ⟨node, hnode, rfl⟩ hlines hnew
    rw [← hvalue] at hmore
    apply hmore.congr
    · rintro _ (⟨r, hr, rfl⟩ | rfl)
      · exact ⟨r, Finset.mem_insert_of_mem hr, leaf_line_old hfresh hr⟩
      · exact ⟨c.counter, Finset.mem_insert_self _ _, hnew_line⟩
    · rintro _ ⟨r, hr, rfl⟩
      rcases Finset.mem_insert.mp hr with rfl | hr
      · exact ⟨_, Or.inr rfl, by rw [hnew_line]⟩
      · exact ⟨_, Or.inl ⟨r, hr, rfl⟩, by rw [leaf_line_old hfresh hr]⟩
  have hkept : ∀ r ∈ live, r ∈ Insert.insert c.counter live ∧
      leaf_line line c.counter node (token :: rest) value r = line r :=
    fun r hr => ⟨Finset.mem_insert_of_mem hr, leaf_line_old hfresh hr⟩
  have hkv : ∀ r ∈ live, (c₂.node r).kv_cache = (c.node r).kv_cache := by
    intro r hr
    have hrn : r ≠ c.counter := (ht.created r hr).ne
    by_cases hrp : r = node
    · subst hrp
      simp [hc₂, RadixCache.link_leaf, RadixCache.modify_node, RadixCache.new_tree_node, hrn]
    · simp [hc₂, RadixCache.link_leaf, RadixCache.modify_node, RadixCache.new_tree_node, hrn, hrp]
  rintro s rfl
  unfold add_leaf get_child_key_fn
  dsimp only
  refine Triple.bind (Triple.mono (store_kv_cache.spec s.counter (kv.drop total)) (fun _ h => h)
    (fun _ _ h => h) ?_) ?_ c₂ rfl
  · rintro _ _ ⟨rfl, hno⟩
    exact ⟨hno, _, _, ⟨hlinked, hspells, fun hworks => absurd hworks hno⟩, hkept⟩
  · rintro _ _ ⟨kv', rfl⟩
    refine ⟨_, _, ⟨⟨hlinked.congr (set_kv_cache_same _ _), hspells, ?_⟩, hkept⟩,
      Finset.mem_insert_self _ _, ?_⟩
    · intro hworks r hr hne
      rcases Finset.mem_insert.mp hr with rfl | hr
      · simp [RadixCache.set_kv_cache, RadixCache.modify_node]
      · have hrn : r ≠ s.counter := (ht.created r hr).ne
        have hcached := h.cached hworks r hr hne
        rw [← hkv r hr] at hcached
        simpa [RadixCache.set_kv_cache, RadixCache.modify_node, hrn] using hcached
    · rw [tokens, hnew_line, List.map_append, List.map_fst_zip hsized.ge]
      exact hkey

/-- An insertion stores the key, with its values where nothing was stored before. -/
theorem insert.spec (h : Sound host c line live held S) {key : List Int} (hkey : key ≠ [])
    (value : Option (List Int)) (hlen : (value.getD key).length = key.length) (kv : List κ) :
    Triple (fun s => s = c) (insert host key value kv)
      (fun out c' => ∃ line' live' total node, out = some (total, node) ∧
        Grown host line live held (S.insert key (value.getD key)) c' line' live' ∧
          node ∈ live' ∧ tokens line' node = key)
      (fun _ c' => ¬ host.Works ∧ ∃ S' line' live', Grown host line live held S' c' line' live') := by
  have hroot := h.linked.tree.tokens_root
  have hroot_line := h.linked.tree.root_line
  rintro s rfl
  unfold insert
  dsimp only
  have hne : key.length ≠ 0 := fun hzero => hkey (List.length_eq_zero_iff.mp hzero)
  rw [get_bind, set_bind, if_neg hne]
  have hvalue : value.getD key = (value.getD key).drop (line s.root_node).length := by
    rw [hroot_line]
    rfl
  refine Triple.bind (Triple.mono (insert_loop.spec _ (h.touch s.root_node)
    h.linked.tree.root_live hvalue (by rw [hroot_line]; rfl) le_rfl) (fun _ h => h)
    (fun _ _ h => h) ?_) ?_ _ rfl
  · rintro _ c' ⟨hworks, hgrown⟩
    exact ⟨hworks, S, hgrown⟩
  · rintro ⟨node, key', value', total⟩ c' ⟨line', live', hgrown, hreached⟩
    rw [hroot, List.nil_append] at hreached
    rcases key' with _ | ⟨token, rest⟩
    · have hstored : tokens line' node = key := by simpa using hreached.tokens_eq
      have hsame : S.insert key (value.getD key) = S :=
        PrefixStore.insert_of_stored (hgrown.sound.spells.stored ⟨node, hreached.node_live, rfl⟩
          (by rw [← hstored]; exact List.prefix_rfl))
      refine ⟨line', live', total, node, rfl, ?_, hreached.node_live, hstored⟩
      rw [hsame]
      exact hgrown
    · have hcons : (token :: rest).length ≠ 0 := Nat.succ_ne_zero _
      dsimp only
      rw [if_neg hcons]
      refine Triple.bind (Triple.mono (add_leaf.spec hgrown.sound hreached hlen kv)
        (fun _ h => h) (fun _ _ h => h) ?_) ?_ c' rfl
      · rintro _ c'' ⟨hworks, line'', live'', hgrown'⟩
        exact ⟨hworks, _, line'', live'', hgrown.trans hgrown'⟩
      · rintro new_node c'' ⟨line'', live'', hgrown', hnew, htokens⟩
        exact ⟨line'', live'', total, new_node, rfl, hgrown.trans hgrown', hnew, htokens⟩

end

end parallax.server.radix_cache
