-- The prefixes of live requests. A request locks the tokens that it has cached
-- and releases them on the way from a longer sequence. As long as no other live
-- request shares more of that sequence, the locks count the live prefixes.
import InferenceMesh.Cache.LongestPrefix

open ordered_dict python state_exn stack_walk prefix_store

namespace parallax.server.radix_cache

variable {κ : Type} {host : Host κ} {c c' : RadixCache κ}

/-! ## Runs -/

/-- Live requests with the prefixes that they have locked. -/
abbrev Live : Type := List (String × List Int)

/-- A run of requests: each caches its tokens while it is unfinished, and later an extension of
them when it finishes, if it may finish beside the other live requests. -/
inductive RequestRun (host : Host κ) (may_finish : Live → List Int → List Int → Prop) :
    RadixCache κ → Live → Prop
  | start (max_num_tokens : Option Int) : RequestRun host may_finish (.init host max_num_tokens) []
  | update_req_to_token {c : RadixCache κ} {live : Live} (h : RequestRun host may_finish c live)
      (req_id : String) (token_ids : List Int) :
      RequestRun host may_finish (stateOf (update_req_to_token req_id token_ids c)) live
  | evict_request {c : RadixCache κ} {live : Live} (h : RequestRun host may_finish c live)
      (req_id : String) : RequestRun host may_finish (stateOf (evict_request req_id c)) live
  | insert {c : RadixCache κ} {live : Live} (h : RequestRun host may_finish c live)
      (key : List Int) (value : Option (List Int)) (kv : List κ)
      (hlen : (value.getD key).length = key.length) :
      RequestRun host may_finish (stateOf (insert host key value kv c)) live
  | match_prefix {c : RadixCache κ} {live : Live} (h : RequestRun host may_finish c live)
      (key : List Int) : RequestRun host may_finish (stateOf ( match_prefix host key c)) live
  | evict {c : RadixCache κ} {live : Live} (h : RequestRun host may_finish c live)
      (num_tokens : Int) : RequestRun host may_finish (stateOf (evict num_tokens c)) live
  | unfinished {c c' : RadixCache κ} {live : Live} (req_id : String) {token_ids : List Int}
      (kv : List κ) (h : RequestRun host may_finish c live) (hnew : ∀ p, (req_id, p) ∉ live)
      (htokens : c.req_to_token.get? req_id = some token_ids)
      (hrun : cache_unfinished_request host req_id kv c = .ok ⟨⟩ c') :
      RequestRun host may_finish c' ((req_id, token_ids) :: live)
  | unfinished_raised {c c' : RadixCache κ} {live : Live} {req_id : String} {kv : List κ} {e : Exn}
      (h : RequestRun host may_finish c live)
      (hrun : cache_unfinished_request host req_id kv c = .error e c') :
      RequestRun host may_finish c' live
  | finished {c c' : RadixCache κ} {live : Live} (req_id : String) (p : List Int)
      {token_ids : List Int} (kv : List κ) (h : RequestRun host may_finish c live)
      (hlive : (req_id, p) ∈ live)
      (htokens : c.req_to_token.get? req_id = some token_ids) (hextends : p <+: token_ids)
      (hmay : may_finish (live.erase (req_id, p)) p token_ids)
      (hrun : cache_finished_request host req_id kv c = .ok ⟨⟩ c') :
      RequestRun host may_finish c' (live.erase (req_id, p))
  | finished_raised {c c' : RadixCache κ} {live : Live} {req_id : String} {p token_ids : List Int}
      {kv : List κ} {e : Exn} (h : RequestRun host may_finish c live) (hlive : (req_id, p) ∈ live)
      (htokens : c.req_to_token.get? req_id = some token_ids) (hextends : p <+: token_ids)
      (hmay : may_finish (live.erase (req_id, p)) p token_ids)
      (hrun : cache_finished_request host req_id kv c = .error e c') :
      RequestRun host may_finish c' live

/-- No other live request shares more of the tokens than the own prefix has. -/
def Apart (others : Live) (p token_ids : List Int) : Prop :=
  ∀ q ∈ others, key_match_page_size1 q.2 token_ids ≤ p.length

/-- The locks count the live prefixes that pass through a node, all of these are in the tree, and
no eviction takes a node of them. -/
structure PrefixesKept (c : RadixCache κ) (live : Live) : Prop where
  counted : ∀ r l, Path c r l → r ≠ c.root_node →
    (c.node r).lock_ref = live.countP (fun q => l.map Prod.fst <+: q.2)
  stored : ∀ q ∈ live, ∃ r l, Path c r l ∧ l.map Prod.fst = q.2
  evict : ∀ num_tokens, ∃ c', evict num_tokens c = .ok ⟨⟩ c' ∧
    ∀ q ∈ live, ∀ r l, Path c r l → l.map Prod.fst <+: q.2 → Path c' r l

/-! ## One request -/

section

variable {line : Ref → Line} {tree : Finset Ref} {held held' : List (List Int)}
  {S : PrefixStore Int Int}

/-- The cache is sound with the locks of some sequences. -/
def HeldBy (host : Host κ) (held : List (List Int)) (c : RadixCache κ) : Prop :=
  ∃ line tree S, Sound host c line tree held S

/-- A request caches its tokens, and the change of the locks finds them at a node of the tree. An
exception comes before any lock is changed. -/
theorem cache_request.spec (h : Sound host c line tree held S) {req_id : String}
    {token_ids : List Int} (htokens : c.req_to_token.get? req_id = some token_ids) (kv : List κ)
    {change_lock_ref : Ref → RadixM κ Int}
    (hchange : ∀ c line tree S node, Sound host c line tree held S → node ∈ tree →
      tokens line node = token_ids → Triple (fun s => s = c) (change_lock_ref node)
        (fun _ c' => Sound host c' line tree held' S) (fun _ _ => False)) :
    Triple (fun s => s = c) (cache_request host change_lock_ref req_id kv)
      (fun _ c' => HeldBy host held' c') (fun _ c' => HeldBy host held c') := by
  rintro s rfl
  unfold cache_request
  rw [get_bind, htokens]
  dsimp only
  by_cases hempty : token_ids = []
  · subst hempty
    exact ⟨line, tree, S, h.touch s.root_node⟩
  · refine Triple.bind (Triple.mono (insert.spec h hempty none rfl kv) (fun _ h => h)
      (fun _ _ h => h) ?_) ?_ s rfl
    · rintro _ c' ⟨_, S', line', live', hgrown⟩
      exact ⟨line', live', S', hgrown.sound⟩
    · rintro out c₁ ⟨line₁, tree₁, total, node, rfl, hgrown, hnode, hends⟩
      refine Triple.bind (Triple.mono (hchange c₁ line₁ tree₁ _ node hgrown.sound hnode hends)
        (fun _ h => h) (fun _ _ h => h) (fun _ _ hno => absurd hno not_false)) ?_ c₁ rfl
      rintro _ c₂ hsound
      refine Triple.mono (evict_over_limit.spec hsound) (fun _ h => h) ?_
        (fun _ _ hno => absurd hno not_false) c₂ rfl
      rintro _ c₃ ⟨tree', S', hsound', _⟩
      exact ⟨line₁, tree', S', hsound'⟩

/-- Beside requests that share no more of the tokens, the way behind the own prefix is free. -/
theorem Apart.own_way {live : Live} {req_id : String} {p token_ids : List Int}
    (hlive : (req_id, p) ∈ live) (hextends : p <+: token_ids)
    (h : Apart (live.erase (req_id, p)) p token_ids) (line : Ref → Line) (tree : Finset Ref) :
    OwnWay line tree (live.map Prod.snd) p token_ids := by
  intro q hq r _ hrt hrq
  obtain ⟨other, hother, rfl⟩ := List.mem_map.mp ((map_erase_perm Prod.snd hlive).mem_iff.mpr hq)
  exact List.prefix_of_prefix_length_le hrt hextends
    ((le_key_match hrq hrt).trans (h other hother))

theorem HeldBy.perm (h : HeldBy host held c) (hperm : held'.Perm held) : HeldBy host held' c := by
  obtain ⟨line, tree, S, hsound⟩ := h
  exact ⟨line, tree, S, hsound.held_perm hperm⟩

theorem cache_unfinished_request.spec (h : HeldBy host held c) {req_id : String}
    {token_ids : List Int} (htokens : c.req_to_token.get? req_id = some token_ids) (kv : List κ) :
    Triple (fun s => s = c) (cache_unfinished_request host req_id kv)
      (fun _ c' => HeldBy host (token_ids :: held) c') (fun _ c' => HeldBy host held c') := by
  obtain ⟨line, tree, S, hsound⟩ := h
  apply cache_request.spec hsound htokens kv
  rintro c₁ line₁ tree₁ S₁ node hsound₁ hnode rfl
  exact increase_lock_ref.spec hsound₁ hnode

theorem cache_finished_request.spec {live : Live} (h : HeldBy host (live.map Prod.snd) c)
    {req_id : String} {p token_ids : List Int} (hlive : (req_id, p) ∈ live)
    (htokens : c.req_to_token.get? req_id = some token_ids) (hextends : p <+: token_ids)
    (hapart : Apart (live.erase (req_id, p)) p token_ids) (kv : List κ) :
    Triple (fun s => s = c) (cache_finished_request host req_id kv)
      (fun _ c' => HeldBy host ((live.map Prod.snd).erase p) c')
      (fun _ c' => HeldBy host (live.map Prod.snd) c') := by
  obtain ⟨line, tree, S, hsound⟩ := h
  apply cache_request.spec hsound htokens kv
  rintro c₁ line₁ tree₁ S₁ node hsound₁ hnode rfl
  exact decrease_lock_ref.spec hsound₁ hnode (List.mem_map_of_mem (f := Prod.snd) hlive) hextends
    (hapart.own_way hlive hextends line₁ tree₁)

end

/-! ## All requests -/

variable {live : Live}

theorem RequestRun.held (h : RequestRun host Apart c live) :
    HeldBy host (live.map Prod.snd) c := by
  induction h with
  | start max_num_tokens => exact ⟨_, _, _, init_sound host max_num_tokens⟩
  | update_req_to_token _ req_id token_ids ih =>
    obtain ⟨line, tree, S, hsound⟩ := ih
    exact ⟨line, tree, S, hsound.linked.congr ⟨rfl, le_rfl, rfl, rfl, fun _ _ => rfl⟩,
      hsound.spells, hsound.cached⟩
  | evict_request _ req_id ih =>
    obtain ⟨line, tree, S, hsound⟩ := ih
    rename_i c _ _
    unfold radix_cache.evict_request
    rw [get_bind]
    rcases c.req_to_token.get? req_id with _ | tokens
    · exact ⟨line, tree, S, hsound⟩
    · exact ⟨line, tree, S, hsound.linked.congr ⟨rfl, le_rfl, rfl, rfl, fun _ _ => rfl⟩,
        hsound.spells, hsound.cached⟩
  | insert _ key value kv hlen ih =>
    obtain ⟨line, tree, S, hsound⟩ := ih
    obtain ⟨S', line', tree', hgrown⟩ := insert_grown hsound value hlen kv
    exact ⟨line', tree', S', hgrown.sound⟩
  | match_prefix _ key ih =>
    obtain ⟨line, tree, S, hsound⟩ := ih
    obtain ⟨line', tree', hgrown⟩ := match_prefix_grown hsound key
    exact ⟨line', tree', S, hgrown.sound⟩
  | evict _ num_tokens ih =>
    obtain ⟨line, tree, S, hsound⟩ := ih
    obtain ⟨_, c', hrun, tree', hfreed⟩ := (evict.spec hsound num_tokens).returns
      (fun _ _ hno => hno) rfl
    rw [hrun]
    exact ⟨line, tree', _, hfreed.sound⟩
  | unfinished _ _ _ _ htokens hrun ih =>
    exact (cache_unfinished_request.spec ih htokens _).ok rfl hrun
  | unfinished_raised _ hrun ih =>
    rename_i c c' live req_id kv e _
    rcases htokens : c.req_to_token.get? req_id with _ | token_ids
    · have hkey : cache_unfinished_request host req_id kv c = .error (.KeyError req_id) c := by
        unfold cache_unfinished_request cache_request
        rw [get_bind, htokens]
        rfl
      rw [hkey] at hrun
      cases hrun
      exact ih
    · exact (cache_unfinished_request.spec ih htokens kv).error rfl hrun
  | finished _ _ _ _ hlive htokens hextends hmay hrun ih =>
    have hheld := (cache_finished_request.spec ih hlive htokens hextends hmay _).ok rfl hrun
    exact hheld.perm (map_erase_perm Prod.snd hlive)
  | finished_raised _ hlive htokens hextends hmay hrun ih =>
    exact (cache_finished_request.spec ih hlive htokens hextends hmay _).error rfl hrun

/-- In every run whose requests finish beside live requests that share no more of their tokens
than their own prefixes have, the locks count the live prefixes, and none of these is evicted. -/
theorem locks_protect_live_prefixes (h : RequestRun host Apart c live) : PrefixesKept c live := by
  obtain ⟨line, tree, S, hsound⟩ := h.held
  have ht := hsound.linked.tree
  refine ⟨?_, ?_, ?_⟩
  · intro r l hpath hroot
    obtain ⟨hr, rfl⟩ := ht.path_iff.mp hpath
    rw [hsound.linked.locked.count r hr hroot, List.countP_map]
    rfl
  · intro q hq
    obtain ⟨r, hr, hends⟩ := hsound.linked.locked.held_live _ (List.mem_map_of_mem (f := Prod.snd) hq)
    exact ⟨r, line r, ht.path_iff.mpr ⟨hr, rfl⟩, hends⟩
  · intro num_tokens
    obtain ⟨_, c', hrun, tree', hfreed⟩ := (evict.spec hsound num_tokens).returns
      (fun _ _ hno => hno) rfl
    refine ⟨c', hrun, ?_⟩
    intro q hq r l hpath hbegin
    obtain ⟨hr, rfl⟩ := ht.path_iff.mp hpath
    rw [hfreed.sound.linked.tree.path_iff]
    refine ⟨?_, rfl⟩
    by_contra hno
    have hfree := hfreed.evicted.unlocked r hr hno
    have hroot : r ≠ c.root_node := by
      rintro rfl
      rw [hsound.linked.locked.root] at hfree
      cases hfree
    rw [hsound.linked.locked.count r hr hroot, List.countP_eq_zero] at hfree
    exact hfree q.2 (List.mem_map_of_mem (f := Prod.snd) hq) (decide_eq_true hbegin)

/-- Two requests that share their first token, one of which finishes. -/
theorem locks_protect_live_prefixes_beside_a_finished_request :
    ∃ c, RequestRun keeping Apart c [("B", [1, 3])] ∧ PrefixesKept c [("B", [1, 3])] := by
  have hrun : ∃ c, RequestRun keeping Apart c [("B", [1, 3])] :=
    ⟨_, .finished "A" [1, 2] [1, 2, 5] (.update_req_to_token
      (.unfinished "B" [1, 3] (.update_req_to_token
        (.unfinished "A" [1, 2] (.update_req_to_token (.start none) "A" [1, 2])
          (fun _ => List.not_mem_nil) rfl rfl) "B" [1, 3])
        (fun p hp => by simp at hp) rfl rfl) "A" [5]) (by decide) rfl (by decide)
      (fun q (hq : q ∈ [("B", [1, 3])]) => by
        rw [List.mem_singleton.mp hq]
        decide) rfl⟩
  obtain ⟨c, hrun⟩ := hrun
  exact ⟨c, hrun, locks_protect_live_prefixes hrun⟩

/-- The first request finishes with the tokens of the second one, whose lock it takes. -/
theorem a_finished_request_takes_the_lock_of_a_live_one :
    ∃ c, RequestRun keeping (fun _ _ _ => True) c [("B", [1, 2, 3, 4])] ∧
      ¬ PrefixesKept c [("B", [1, 2, 3, 4])] ∧
        ∃ c', evict 2 c = .ok ⟨⟩ c' ∧ c.tree_nodes = [0, 1, 2] ∧ c'.tree_nodes = [0, 1] := by
  refine ⟨_, .finished "A" [1, 2] [1, 2, 3, 4] (.update_req_to_token
    (.unfinished "B" [1, 2, 3, 4] (.update_req_to_token
      (.unfinished "A" [1, 2] (.update_req_to_token (.start none) "A" [1, 2])
        (fun _ => List.not_mem_nil) rfl rfl) "B" [1, 2, 3, 4])
      (fun p hp => by simp at hp) rfl rfl) "A" [3, 4]) (by decide) rfl (by decide) trivial rfl,
    ?_, _, rfl, by decide, by decide⟩
  intro hkept
  have hcount := hkept.counted 2 _ (@Path.child _ _ 1 2 _ 3 (@Path.child _ _ 0 1 _ 1 .root rfl) rfl) (by decide)
  exact absurd hcount (by decide)

end parallax.server.radix_cache
