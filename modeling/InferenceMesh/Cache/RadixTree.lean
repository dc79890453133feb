-- The shape of the prefix cache. Each node of the tree has a line: the tokens
-- and the values from the root down to its end. Lines never change while a
-- node is in the tree, so they say what is stored, and who is locked.
import InferenceMesh.Cache.RadixCache
import InferenceMesh.Lib.PrefixStore

open ordered_dict python state_exn stack_walk prefix_store

namespace parallax.server.radix_cache

variable {κ : Type}

/-! ## The invariant of the shape -/

/-- Tokens with their values. -/
abbrev Line : Type := List (Int × Int)

/-- The tokens of a node with their values. -/
def TreeNode.edge (n : TreeNode κ) : Line := n.key.zip n.value

/-- All of a node but its KV cache and its time. -/
def TreeNode.links (n : TreeNode κ) : Dict Int Ref × Option Ref × List Int × List Int × Nat :=
  (n.children, n.parent, n.key, n.value, n.lock_ref)

/-- The tokens from the root down to the end of a node. -/
def tokens (line : Ref → Line) (r : Ref) : List Int := (line r).map Prod.fst

/-- The first node is the parent of the second one, and has it under its first token. -/
structure IsChild (c : RadixCache κ) (p r : Ref) : Prop where
  parent : (c.node r).parent = some p
  first : ∃ token rest, (c.node r).key = token :: rest ∧
    (c.node p).children.get? token = some r

/-- The nodes `live` are a tree under the root, and `line` gives their lines. -/
structure Tree (c : RadixCache κ) (line : Ref → Line) (live : Finset Ref) : Prop where
  root_live : c.root_node ∈ live
  root_line : line c.root_node = []
  root_key : (c.node c.root_node).key = []
  created : ∀ r ∈ live, r < c.counter
  sized : ∀ r ∈ live, (c.node r).value.length = (c.node r).key.length
  up : ∀ r ∈ live, r ≠ c.root_node →
    ∃ p ∈ live, IsChild c p r ∧ line r = line p ++ (c.node r).edge
  down : ∀ p ∈ live, ∀ token r, (c.node p).children.get? token = some r →
    r ∈ live ∧ r ≠ c.root_node ∧ (c.node r).parent = some p ∧ (c.node r).key.head? = some token

theorem map_fst_edge {n : TreeNode κ} (h : n.value.length = n.key.length) :
    n.edge.map Prod.fst = n.key := List.map_fst_zip h.ge

namespace TreeNode

variable {n n' : TreeNode κ}

theorem children_eq (h : n'.links = n.links) : n'.children = n.children := congrArg Prod.fst h

theorem parent_eq (h : n'.links = n.links) : n'.parent = n.parent :=
  congrArg (fun x => x.2.1) h

theorem key_eq (h : n'.links = n.links) : n'.key = n.key := congrArg (fun x => x.2.2.1) h

theorem value_eq (h : n'.links = n.links) : n'.value = n.value := congrArg (fun x => x.2.2.2.1) h

theorem lock_ref_eq (h : n'.links = n.links) : n'.lock_ref = n.lock_ref :=
  congrArg (fun x => x.2.2.2.2) h

end TreeNode

/-- The tree does not look at locks. -/
structure SameShape (n n' : TreeNode κ) : Prop where
  children : n'.children = n.children
  parent : n'.parent = n.parent
  key : n'.key = n.key
  value : n'.value = n.value

theorem SameShape.of_links {n n' : TreeNode κ} (h : n'.links = n.links) : SameShape n n' :=
  ⟨TreeNode.children_eq h, TreeNode.parent_eq h, TreeNode.key_eq h, TreeNode.value_eq h⟩

theorem SameShape.edge {n n' : TreeNode κ} (h : SameShape n n') : n'.edge = n.edge := by
  unfold TreeNode.edge
  rw [h.key, h.value]

namespace Tree

variable {c c' : RadixCache κ} {line : Ref → Line} {live : Finset Ref}

theorem congr (h : Tree c line live) (hroot : c'.root_node = c.root_node)
    (hcounter : c.counter ≤ c'.counter) (hsame : ∀ r ∈ live, SameShape (c.node r) (c'.node r)) :
    Tree c' line live := by
  refine ⟨hroot ▸ h.root_live, hroot ▸ h.root_line, ?_, ?_, ?_, ?_, ?_⟩
  · rw [hroot, (hsame _ h.root_live).key]
    exact h.root_key
  · intro r hr
    exact (h.created r hr).trans_le hcounter
  · intro r hr
    rw [(hsame r hr).value, (hsame r hr).key]
    exact h.sized r hr
  · intro r hr hne
    rw [hroot] at hne
    obtain ⟨p, hp, hchild, hline⟩ := h.up r hr hne
    refine ⟨p, hp, ⟨?_, ?_⟩, ?_⟩
    · rw [(hsame r hr).parent]
      exact hchild.parent
    · rw [(hsame r hr).key, (hsame p hp).children]
      exact hchild.first
    · rw [(hsame r hr).edge]
      exact hline
  · intro p hp token r hget
    rw [(hsame p hp).children] at hget
    obtain ⟨hr, hne, hparent, hkey⟩ := h.down p hp token r hget
    rw [hroot, (hsame r hr).parent, (hsame r hr).key]
    exact ⟨hr, hne, hparent, hkey⟩

theorem tokens_root (h : Tree c line live) : tokens line c.root_node = [] := by
  unfold tokens
  rw [h.root_line]
  rfl

/-- The parent of a node, and its tokens behind those of the parent. -/
theorem parent (h : Tree c line live) {r : Ref} (hr : r ∈ live) (hne : r ≠ c.root_node) :
    ∃ p ∈ live, IsChild c p r ∧ tokens line r = tokens line p ++ (c.node r).key := by
  obtain ⟨p, hp, hchild, hline⟩ := h.up r hr hne
  refine ⟨p, hp, hchild, ?_⟩
  unfold tokens
  rw [hline, List.map_append, map_fst_edge (h.sized r hr)]

theorem child (h : Tree c line live) {p r : Ref} (hp : p ∈ live) {token : Int}
    (hget : (c.node p).children.get? token = some r) :
    r ∈ live ∧ r ≠ c.root_node ∧ IsChild c p r ∧
      tokens line r = tokens line p ++ (c.node r).key ∧ line r = line p ++ (c.node r).edge ∧
      ∃ rest, (c.node r).key = token :: rest := by
  obtain ⟨hr, hne, hparent, hkey⟩ := h.down p hp token r hget
  obtain ⟨q, _, hchild, hline⟩ := h.up r hr hne
  obtain ⟨rest, hrest⟩ := List.head?_eq_some_iff.mp hkey
  have hq : q = p := Option.some.inj (hchild.parent.symm.trans hparent)
  subst hq
  refine ⟨hr, hne, hchild, ?_, hline, rest, hrest⟩
  unfold tokens
  rw [hline, List.map_append, map_fst_edge (h.sized r hr)]

/-- The children of a node. -/
def children (c : RadixCache κ) (r : Ref) : List Ref := (c.node r).children.values

theorem mem_children {p r : Ref} :
    r ∈ children c p ↔ ∃ token, (c.node p).children.get? token = some r := Dict.mem_values

theorem above_live (h : Tree c line live) {a b : Ref} (ha : a ∈ live)
    (hab : Above (children c) a b) : b ∈ live := by
  induction hab with
  | refl => exact ha
  | tail _ hstep ih =>
    obtain ⟨token, hget⟩ := mem_children.mp hstep
    exact (h.child ih hget).1

/-- Who stands above a node has a beginning of its tokens. -/
theorem tokens_of_above (h : Tree c line live) {a b : Ref} (ha : a ∈ live)
    (hab : Above (children c) a b) : tokens line a <+: tokens line b := by
  induction hab with
  | refl => exact List.prefix_rfl
  | tail hab hstep ih =>
    obtain ⟨token, hget⟩ := mem_children.mp hstep
    obtain ⟨_, _, _, htokens, _⟩ := h.child (h.above_live ha hab) hget
    rw [htokens]
    exact ih.trans ( List.prefix_append _ _)

theorem length_lt_child (h : Tree c line live) {p r : Ref} (hp : p ∈ live) {token : Int}
    (hget : (c.node p).children.get? token = some r) :
    (tokens line p).length < (tokens line r).length := by
  obtain ⟨_, _, _, htokens, _, rest, hkey⟩ := h.child hp hget
  rw [htokens, hkey, List.length_append, List.length_cons]
  omega

theorem eq_of_above (h : Tree c line live) {a b : Ref} (ha : a ∈ live)
    (hab : Above (children c) a b) (hlen : (tokens line b).length ≤ (tokens line a).length) :
    a = b := by
  rcases Relation.ReflTransGen.cases_head hab with heq | ⟨x, hx, hxb⟩
  · exact heq
  · obtain ⟨token, hget⟩ := mem_children.mp hx
    have hlt := h.length_lt_child ha hget
    have hle := (h.tokens_of_above (h.child ha hget).1 hxb).length_le
    omega

/-- Two children of a node whose tokens begin one key are the same. -/
theorem child_unique (h : Tree c line live) {p x y : Ref} (hp : p ∈ live) {t u : Int}
    (hx : (c.node p).children.get? t = some x) (hy : (c.node p).children.get? u = some y)
    {key : List Int} (hxkey : tokens line x <+: key) (hykey : tokens line y <+: key) : x = y := by
  obtain ⟨_, _, _, hxt, _, xs, hxk⟩ := h.child hp hx
  obtain ⟨_, _, _, hyt, _, ys, hyk⟩ := h.child hp hy
  obtain ⟨more, hmore⟩ := hxkey
  obtain ⟨more', hmore'⟩ := hykey
  rw [hxt, hxk] at hmore
  rw [hyt, hyk] at hmore'
  have htu : t = u := by
    have heq := hmore.trans hmore'.symm
    simp only [List.append_assoc, List.cons_append, List.append_cancel_left_eq, List.cons.injEq]
      at heq
    exact heq.1
  rw [htu, hy] at hx
  exact (Option.some.inj hx).symm

/-- A node whose tokens begin those of another one stands above it. The induction is on both
lengths, as the two change places when the first one ends inside the second one. -/
theorem above_of_tokens (h : Tree c line live) {a b : Ref} (ha : a ∈ live) (hb : b ∈ live)
    (hab : tokens line a <+: tokens line b) : Above (children c) a b := by
  generalize hn : (tokens line a).length + (tokens line b).length = n
  induction n using Nat.strong_induction_on generalizing a b with
  | _ n ih =>
    by_cases hroot : b = c.root_node
    · rw [hroot, h.tokens_root, List.prefix_nil] at hab
      by_cases ha' : a = c.root_node
      · rw [ha', hroot]
        exact Relation.ReflTransGen.refl
      · obtain ⟨p, _, hchild, htokens⟩ := h.parent ha ha'
        obtain ⟨token, rest, hkey, _⟩ := hchild.first
        rw [htokens, hkey] at hab
        simp at hab
    · obtain ⟨p, hp, hchild, htokens⟩ := h.parent hb hroot
      obtain ⟨token, rest, hkey, hget⟩ := hchild.first
      have hlt := h.length_lt_child hp hget
      have hpb : tokens line p <+: tokens line b := by
        rw [htokens]
        exact List.prefix_append _ _
      have hstep : Above (children c) p b :=
        Relation.ReflTransGen.single (mem_children.mpr ⟨token, hget⟩)
      rcases List.prefix_or_prefix_of_prefix hab hpb with hap | hpa
      · exact (ih _ (by omega) ha hp hap rfl).trans hstep
      · have hpa' := ih _ (by omega) hp ha hpa rfl
        rcases Relation.ReflTransGen.cases_head hpa' with heq | ⟨x, hx, hxa⟩
        · rw [← heq]
          exact hstep
        · -- The child of `p` towards `a` begins the tokens of `b` as well, so it is `b`.
          obtain ⟨u, hu⟩ := mem_children.mp hx
          have hx' := (h.child hp hu).1
          have hxa' := h.tokens_of_above hx' hxa
          have hxb : x = b := h.child_unique hp hu hget (hxa'.trans hab) List.prefix_rfl
          subst hxb
          rw [h.eq_of_above hx' hxa hab.length_le]
          exact Relation.ReflTransGen.refl

theorem tokens_injective (h : Tree c line live) {a b : Ref} (ha : a ∈ live) (hb : b ∈ live)
    (hab : tokens line a = tokens line b) : a = b :=
  h.eq_of_above ha (h.above_of_tokens ha hb (by rw [hab])) (by rw [hab])

/-- Where the tokens of a node go on behind another one, a child leads there. -/
theorem descend (h : Tree c line live) {a b : Ref} (ha : a ∈ live) (hb : b ∈ live) {token : Int}
    (hab : tokens line a ++ [token] <+: tokens line b) :
    ∃ x, (c.node a).children.get? token = some x ∧ tokens line x <+: tokens line b := by
  have habove := h.above_of_tokens ha hb (( List.prefix_append _ _).trans hab)
  rcases Relation.ReflTransGen.cases_head habove with heq | ⟨x, hx, hxb⟩
  · have hlen := hab.length_le
    rw [heq, List.length_append, List.length_singleton] at hlen
    omega
  · obtain ⟨u, hu⟩ := mem_children.mp hx
    obtain ⟨hx', _, _, htokens, _, rest, hkey⟩ := h.child ha hu
    have hxb' := h.tokens_of_above hx' hxb
    obtain ⟨more, hmore⟩ := hab
    obtain ⟨more', hmore'⟩ := hxb'
    have htu : token = u := by
      have heq := hmore.trans hmore'.symm
      rw [htokens, hkey] at heq
      simp only [List.append_assoc, List.cons_append, List.append_cancel_left_eq,
        List.cons.injEq] at heq
      exact heq.1
    exact ⟨x, htu ▸ hu, h.tokens_of_above hx' hxb⟩

/-- Below each node there is a leaf. -/
theorem leaf_below (h : Tree c line live) {r : Ref} (hr : r ∈ live) :
    ∃ x ∈ live, tokens line r <+: tokens line x ∧
      ∀ token, (c.node x).children.get? token = none := by
  classical
  obtain ⟨x, hx, hmax⟩ := Finset.exists_max_image
    (live.filter (fun x => tokens line r <+: tokens line x)) (fun x => (tokens line x).length)
    ⟨r, Finset.mem_filter.mpr ⟨hr, List.prefix_rfl⟩⟩
  obtain ⟨hx, hrx⟩ := Finset.mem_filter.mp hx
  refine ⟨x, hx, hrx, ?_⟩
  intro token
  rw [Option.eq_none_iff_forall_ne_some]
  intro y hy
  have hlt := h.length_lt_child hx hy
  obtain ⟨hy', _, _, htokens, _⟩ := h.child hx hy
  have hle := hmax y (Finset.mem_filter.mpr ⟨hy', hrx.trans (by
    rw [htokens]
    exact List.prefix_append _ _)⟩)
  omega

/-! ## The nodes of the tree -/

theorem forest (h : Tree c line live) : Forest (children c) live where
  closed := by
    intro a ha b hb
    obtain ⟨token, hget⟩ := mem_children.mp hb
    exact (h.child ha hget).1
  nodup := by
    intro a ha
    apply Dict.nodup_values
    intro k k' r hk hk'
    obtain ⟨_, _, _, _, _, rest, hkey⟩ := h.child ha hk
    obtain ⟨_, _, _, _, _, rest', hkey'⟩ := h.child ha hk'
    rw [hkey] at hkey'
    exact (List.cons.inj hkey').1
  parent := by
    intro a ha b hb x hxa hxb
    obtain ⟨t, ht⟩ := mem_children.mp hxa
    obtain ⟨u, hu⟩ := mem_children.mp hxb
    exact Option.some.inj ((h.child ha ht).2.2.1.parent.symm.trans (h.child hb hu).2.2.1.parent)
  acyclic := by
    intro a ha b hb hba
    obtain ⟨token, hget⟩ := mem_children.mp hb
    have hlt := h.length_lt_child ha hget
    have hle := (h.tokens_of_above (h.child ha hget).1 hba).length_le
    omega

theorem card_le (h : Tree c line live) : live.card ≤ c.counter := by
  have hsub : live ⊆ Finset.range c.counter := fun r hr => Finset.mem_range.mpr (h.created r hr)
  simpa using Finset.card_le_card hsub

/-- The nodes that the cache reaches with its stack are those of the tree. -/
theorem tree_nodes_spec (h : Tree c line live) :
    c.tree_nodes.Nodup ∧ ∀ r, r ∈ c.tree_nodes ↔ r ∈ live := by
  obtain ⟨hnodup, hmem⟩ := h.forest.walk_from h.root_live h.card_le
  refine ⟨hnodup, fun r => (hmem r).trans ⟨h.above_live h.root_live, ?_⟩⟩
  intro hr
  apply h.above_of_tokens h.root_live hr
  rw [h.tokens_root]
  exact List.nil_prefix

theorem sum_tree_nodes (h : Tree c line live) (f : Ref → Nat) :
    (c.tree_nodes.map f).sum = ∑ r ∈ live, f r := by
  obtain ⟨hnodup, hmem⟩ := h.tree_nodes_spec
  have hfinset : c.tree_nodes.toFinset = live := by
    ext r
    rw [List.mem_toFinset, hmem]
  rw [← hfinset, List.sum_toFinset f hnodup]

end Tree

/-! ## Paths -/

/-- A way down from the root to a node, with the tokens and the values on it. -/
inductive Path (c : RadixCache κ) : Ref → Line → Prop
  | root : Path c c.root_node []
  | child {p r : Ref} {l : Line} {token : Int} (hp : Path c p l)
      (hget : (c.node p).children.get? token = some r) : Path c r (l ++ (c.node r).edge)

/-- A sequence ends in a node when it has some of its tokens behind those above it. -/
def EndsIn (c : RadixCache κ) (x : Ref) (q : List Int) : Prop :=
  ∃ p l token front, Path c p l ∧ (c.node p).children.get? token = some x ∧
    front ≠ [] ∧ front <+: (c.node x).key ∧ q = l.map Prod.fst ++ front

namespace Tree

variable {c : RadixCache κ} {line : Ref → Line} {live : Finset Ref}

theorem path_iff (h : Tree c line live) {r : Ref} {l : Line} :
    Path c r l ↔ r ∈ live ∧ l = line r := by
  constructor
  · intro hpath
    induction hpath with
    | root => exact ⟨h.root_live, h.root_line.symm⟩
    | child _ hget ih =>
      obtain ⟨hp, rfl⟩ := ih
      obtain ⟨hr, _, _, _, hline, _⟩ := h.child hp hget
      exact ⟨hr, hline.symm⟩
  · rintro ⟨hr, rfl⟩
    have habove : Above (children c) c.root_node r := by
      apply h.above_of_tokens h.root_live hr
      rw [h.tokens_root]
      exact List.nil_prefix
    clear hr
    induction habove with
    | refl =>
      rw [h.root_line]
      exact Path.root
    | tail hab hstep ih =>
      obtain ⟨token, hget⟩ := mem_children.mp hstep
      rw [(h.child (h.above_live h.root_live hab) hget).2.2.2.2.1]
      exact Path.child ih hget

theorem endsIn_iff (h : Tree c line live) {x : Ref} {q : List Int} :
    EndsIn c x q ↔ ∃ p ∈ live, ∃ token rest more, (c.node p).children.get? token = some x ∧
      (c.node x).key = token :: rest ∧ more <+: rest ∧ q = tokens line p ++ token :: more := by
  constructor
  · rintro ⟨p, l, token, front, hpath, hget, hne, hfront, rfl⟩
    obtain ⟨hp, rfl⟩ := h.path_iff.mp hpath
    obtain ⟨_, _, _, _, _, rest, hkey⟩ := h.child hp hget
    obtain ⟨token', more, rfl⟩ := List.exists_cons_of_ne_nil hne
    rw [hkey, List.cons_prefix_cons] at hfront
    obtain ⟨rfl, hmore⟩ := hfront
    exact ⟨p, hp, token', rest, more, hget, hkey, hmore, rfl⟩
  · rintro ⟨p, hp, token, rest, more, hget, hkey, hmore, rfl⟩
    refine ⟨p, line p, token, token :: more, h.path_iff.mpr ⟨hp, rfl⟩, hget,
      List.cons_ne_nil _ _, ?_, rfl⟩
    rw [hkey, List.cons_prefix_cons]
    exact ⟨rfl, hmore⟩

/-- A sequence that begins the tokens of a node ends in a node above it. -/
theorem exists_endsIn (h : Tree c line live) {r : Ref} (hr : r ∈ live) {q : List Int}
    (hne : q ≠ []) (hq : q <+: tokens line r) :
    ∃ x ∈ live, EndsIn c x q ∧ q <+: tokens line x ∧ line x <+: line r := by
  generalize hn : (tokens line r).length = n
  induction n using Nat.strong_induction_on generalizing r with
  | _ n ih =>
    by_cases hroot : r = c.root_node
    · rw [hroot, h.tokens_root, List.prefix_nil] at hq
      exact absurd hq hne
    · obtain ⟨p, hp, hchild, hline⟩ := h.up r hr hroot
      obtain ⟨token, rest, hkey, hget⟩ := hchild.first
      obtain ⟨_, _, _, htokens, _⟩ := h.child hp hget
      by_cases hqp : q <+: tokens line p
      · have hlt := h.length_lt_child hp hget
        obtain ⟨x, hx, hends, hqx, hxp⟩ := ih _ (by omega) hp hqp rfl
        refine ⟨x, hx, hends, hqx, hxp.trans ?_⟩
        rw [hline]
        exact List.prefix_append _ _
      · refine ⟨r, hr, h.endsIn_iff.mpr ?_, hq, List.prefix_rfl⟩
        -- The sequence goes on behind the parent, so it has the first token of the node.
        have hpq : tokens line p <+: q := by
          have hpr : tokens line p <+: tokens line r := by
            rw [htokens]
            exact List.prefix_append _ _
          exact (List.prefix_or_prefix_of_prefix hpr hq).resolve_right hqp
        obtain ⟨front, rfl⟩ := hpq
        rw [htokens, hkey, List.prefix_append_right_inj] at hq
        rcases front with _ | ⟨token', more⟩
        · rw [List.append_nil] at hqp
          exact absurd List.prefix_rfl hqp
        · obtain ⟨rfl, hmore⟩ := List.cons_prefix_cons.mp hq
          exact ⟨p, hp, token', rest, more, hget, hkey, hmore, rfl⟩

/-- A node in which a beginning of the tokens of another one ends stands above that. -/
theorem above_of_endsIn (h : Tree c line live) {x r : Ref} (hr : r ∈ live) {q : List Int}
    (hends : EndsIn c x q) (hq : q <+: tokens line r) : x ∈ live ∧ Above (children c) x r := by
  obtain ⟨p, hp, token, rest, more, hget, _, _, rfl⟩ := h.endsIn_iff.mp hends
  have hfirst : tokens line p ++ [token] <+: tokens line p ++ token :: more := by
    rw [List.prefix_append_right_inj]
    simp
  obtain ⟨y, hy, hyr⟩ := h.descend hp hr (hfirst.trans hq)
  rw [hget] at hy
  obtain rfl := Option.some.inj hy
  have hx := (h.child hp hget).1
  exact ⟨hx, h.above_of_tokens hx hr hyr⟩

end Tree

end parallax.server.radix_cache
