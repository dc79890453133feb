-- Which request each entry of the SGLang running batch belongs to. A list of
-- entries is kept beside the batch, with one entry for each request, and the
-- arrays are asked to be its columns after every call.
import InferenceMesh.Sglang.BatchInfo

open python state_exn
open parallax.server.request

namespace parallax.sglang.batch_info

/-! ## The batch as a list of entries -/

/-- One more token of the request. -/
def Entry.grow (e : Entry) : Entry :=
  { e with seq_len := e.seq_len + 1, orig_seq_len := e.orig_seq_len + 1 }

/-- The arrays are the columns of the entries. -/
structure Aligned (b : ScheduleBatch) (entries : List Entry) : Prop where
  reqs : b.reqs = entries.map (·.req)
  seq_lens : b.seq_lens = entries.map (·.seq_len)
  seq_lens_cpu : b.seq_lens_cpu = entries.map (·.seq_len)
  orig_seq_lens : b.orig_seq_lens = entries.map (·.orig_seq_len)
  req_pool_indices : b.req_pool_indices = entries.map (·.req.req_pool_idx)

/-- The first entry of each listed request grows. -/
def grow_listed : List String → List Entry → List Entry
  | _, [] => []
  | ids, e :: entries =>
    if e.req.rid ∈ ids then e.grow :: grow_listed (ids.filter (· ≠ e.req.rid)) entries
    else e :: grow_listed ids entries

/-! ## Runs -/

inductive Call where
  /-- `process_batch` after a prefill, which has written rows of the request pool. -/
  | merge (entries : List Entry) (req_to_token : Nat → List Nat)
  | decode (requests : List Request) (is_first_rank : Bool)
  | release (request_id : String)

/-- The backend, and the entries that its running batch should have. -/
structure Tracked where
  backend : Backend
  entries : List Entry

variable (sgl : Library)

/-- What the call does to the backend. -/
def Backend.step (s : Backend) : Call → Backend
  | .merge entries req_to_token =>
    merge_cur_batch sgl (.of_entries entries) { s with pools := { s.pools with req_to_token } }
  | .decode requests is_first_rank =>
    stateOf (form_sgl_batch_decode sgl requests is_first_rank s)
  | .release request_id => stateOf (release_sglang_request request_id s)

/-- What the call means for the requests. A decode counts once its tokens have slots. -/
def Tracked.step (t : Tracked) (call : Call) : Tracked where
  backend := t.backend.step sgl call
  entries := match call with
    | .merge entries _ => t.entries ++ entries
    | .decode requests is_first_rank =>
      match prepare_selected sgl requests is_first_rank t.backend with
      | .ok _ => grow_listed (requests.map (·.request_id)) t.entries
      | .error _ => t.entries
    | .release request_id => t.entries.eraseP (fun e => e.req.rid = request_id)

/-- A run from the empty batch of the executor. -/
def run (pools : MemoryPools) (calls : List Call) : Tracked :=
  calls.foldl (Tracked.step sgl) ⟨⟨{}, pools⟩, []⟩

theorem run_append (pools : MemoryPools) (calls : List Call) (call : Call) :
    run sgl pools (calls ++ [call]) = (run sgl pools calls).step sgl call := by
  simp [run]

/-- A release removes the request with the id and frees slots of its row only, and it changes
nothing when no request has the id. -/
structure ReleasesOnly (request_id : String) (s s' : Backend) : Prop where
  absent : (∀ req ∈ s.running_batch.reqs, req.rid ≠ request_id) → s' = s
  reqs : s'.running_batch.reqs =
    s.running_batch.reqs.eraseP (fun req => req.rid = request_id)
  freed : ∀ req, s.running_batch.reqs.find? (fun req => req.rid = request_id) = some req →
    s'.pools.freed_rows = s.pools.freed_rows ++ [req.req_pool_idx] ∧
    ∃ tokens, s'.pools.freed_tokens = s.pools.freed_tokens ++ tokens ∧
      tokens ⊆ s.pools.req_to_token req.req_pool_idx

/-- The call leaves the batch aligned, and a release releases its request only. -/
def Meets (t : Tracked) (call : Call) : Prop :=
  Aligned (t.step sgl call).backend.running_batch (t.step sgl call).entries ∧
  ∀ request_id, call = .release request_id →
    ReleasesOnly request_id t.backend (t.step sgl call).backend

/-! ## Merge -/

variable {sgl}
variable {b : ScheduleBatch} {entries : List Entry}

theorem Aligned.is_empty (h : Aligned b entries) : b.is_empty = entries.isEmpty := by
  unfold ScheduleBatch.is_empty
  rw [h.reqs]
  cases entries <;> rfl

theorem of_entries_aligned (entries : List Entry) :
    Aligned (ScheduleBatch.of_entries entries) entries := ⟨rfl, rfl, rfl, rfl, rfl⟩

theorem merge_batch_aligned (hsgl : sgl.Lawful) {b' : ScheduleBatch} {entries' : List Entry}
    (h : Aligned b entries) (h' : Aligned b' entries') :
    Aligned (sgl.merge_batch b b') (entries ++ entries') := by
  constructor
  · rw [hsgl.reqs, h.reqs, h'.reqs, List.map_append]
  · rw [hsgl.seq_lens, h.seq_lens, h'.seq_lens, List.map_append]
  · rw [hsgl.seq_lens_cpu, h.seq_lens_cpu, h'.seq_lens_cpu, List.map_append]
  · rw [hsgl.orig_seq_lens, h.orig_seq_lens, h'.orig_seq_lens, List.map_append]
  · rw [hsgl.req_pool_indices, h.req_pool_indices, h'.req_pool_indices, List.map_append]

theorem merge_cur_batch.spec (hsgl : sgl.Lawful) {s : Backend}
    (h : Aligned s.running_batch entries) (new : List Entry) :
    Aligned (merge_cur_batch sgl (.of_entries new) s).running_batch (entries ++ new) := by
  have hnew := of_entries_aligned new
  unfold merge_cur_batch
  rw [hnew.is_empty, h.is_empty]
  split
  · rename_i hempty
    rw [List.isEmpty_iff.mp hempty, List.append_nil]
    exact h
  · split
    · rename_i hempty
      rw [List.isEmpty_iff.mp hempty, List.nil_append]
      exact hnew
    · exact merge_batch_aligned hsgl h hnew

/-! ## Decode -/

theorem find_index_eq (h : Aligned b entries) (request_id : String) :
    find_index b request_id =
      match entries.findIdx? (fun e => e.req.rid = request_id) with
      | some i => (i : Int)
      | none => -1 := by
  unfold find_index
  rw [h.reqs, List.findIdx?_map]
  rfl

/-- The places that a decode counts up. -/
def places (ids : List String) (entries : List Entry) : List Nat :=
  ids.filterMap (fun id => entries.findIdx? (fun e => e.req.rid = id))

theorem ready_indices_eq (h : Aligned b entries) (requests : List Request) :
    ready_indices b requests =
      (places (requests.map (·.request_id)) entries).map (fun i : Nat => (i : Int)) := by
  unfold ready_indices places
  induction requests with
  | nil => rfl
  | cons req requests ih =>
    rw [List.map_cons, List.map_cons, List.filter_cons, ih, find_index_eq h, List.filterMap_cons]
    cases entries.findIdx? (fun e => e.req.rid = req.request_id) <;> simp

theorem places_lt {ids : List String} {i : Nat} (hi : i ∈ places ids entries) :
    i < entries.length := by
  obtain ⟨id, _, hid⟩ := List.mem_filterMap.mp hi
  exact (List.findIdx?_eq_some_iff_getElem.mp hid).1

theorem mem_places_cons_zero {ids : List String} {e : Entry} :
    0 ∈ places ids (e :: entries) ↔ e.req.rid ∈ ids := by
  unfold places
  rw [List.mem_filterMap]
  constructor
  · rintro ⟨id, hid, hfind⟩
    rw [List.findIdx?_cons] at hfind
    split at hfind
    · rename_i heq
      rw [decide_eq_true_eq.mp heq]
      exact hid
    · simp at hfind
  · intro hmem
    exact ⟨_, hmem, by simp [List.findIdx?_cons]⟩

theorem mem_places_cons_succ {ids : List String} {e : Entry} {i : Nat} :
    i + 1 ∈ places ids (e :: entries) ↔ i ∈ places (ids.filter (· ≠ e.req.rid)) entries := by
  unfold places
  rw [List.mem_filterMap, List.mem_filterMap]
  constructor
  · rintro ⟨id, hid, hfind⟩
    rw [List.findIdx?_cons] at hfind
    split at hfind
    · simp at hfind
    · rename_i hne
      refine ⟨id, List.mem_filter.mpr ⟨hid, ?_⟩, by simpa using hfind⟩
      simp only [ne_eq, decide_not, Bool.not_eq_true', decide_eq_false_iff_not]
      intro heq
      exact hne (decide_eq_true heq.symm)
  · rintro ⟨id, hid, hfind⟩
    obtain ⟨hid, hne⟩ := List.mem_filter.mp hid
    refine ⟨id, hid, ?_⟩
    have hne : ¬ e.req.rid = id := fun h => (of_decide_eq_true hne) h.symm
    simp [List.findIdx?_cons, hne, hfind]

/-- Growing the entries at the places is growing the first entry of each listed request. -/
theorem grow_listed_eq (ids : List String) (entries : List Entry) :
    entries.mapIdx (fun i e => if i ∈ places ids entries then e.grow else e) =
      grow_listed ids entries := by
  induction entries generalizing ids with
  | nil => rfl
  | cons e entries ih =>
    rw [List.mapIdx_cons]
    simp only [mem_places_cons_zero, mem_places_cons_succ]
    rw [ih]
    conv_rhs => unfold grow_listed
    split
    · rfl
    · rename_i hnot
      have hsame : ids.filter (· ≠ e.req.rid) = ids := by
        rw [List.filter_eq_self]
        intro id hid
        exact decide_eq_true (fun heq => hnot (heq ▸ hid))
      rw [hsame]

theorem position_of_lt {length i : Nat} (hi : i < length) : position length i = some i := by
  simp [position, hi]

theorem increment_ok {xs : List Nat} {indices : List Nat} (h : ∀ i ∈ indices, i < xs.length) :
    increment xs (indices.map (fun i : Nat => (i : Int))) =
      .ok (xs.mapIdx (fun i x => if i ∈ indices then x + 1 else x)) := by
  have hpositions : (indices.map (fun i : Nat => (i : Int))).mapM (position xs.length) =
      some indices := by
    rw [List.mapM_map]
    induction indices with
    | nil => rfl
    | cons i indices ih =>
      rw [List.mapM_cons, ih (fun j hj => h j (List.mem_cons_of_mem _ hj))]
      simp [position_of_lt (h i List.mem_cons_self)]
  unfold increment
  rw [hpositions]

theorem increment_column {column : Entry → Nat} (hgrow : ∀ e, column e.grow = column e + 1)
    (ids : List String) (entries : List Entry) :
    increment (entries.map column) ((places ids entries).map (fun i : Nat => (i : Int))) =
      .ok ((grow_listed ids entries).map column) := by
  rw [increment_ok (by simpa using fun i => places_lt), ← grow_listed_eq]
  congr 1
  apply List.ext_getElem (by simp)
  intro i hi hi'
  simp only [List.getElem_mapIdx, List.getElem_map]
  split
  · rw [hgrow]
  · rfl

theorem grow_listed_kept {α : Type} (column : Entry → α) (hgrow : ∀ e, column e.grow = column e)
    (ids : List String) (entries : List Entry) :
    (grow_listed ids entries).map column = entries.map column := by
  induction entries generalizing ids with
  | nil => rfl
  | cons e entries ih =>
    unfold grow_listed
    split
    · rw [List.map_cons, List.map_cons, hgrow, ih]
    · rw [List.map_cons, List.map_cons, ih]

/-- The arrays grow at the same places. -/
theorem grow_running.spec (h : Aligned b entries) (requests : List Request) :
    ∃ b', grow_running b (ready_indices b requests) = .ok b' ∧
      Aligned b' (grow_listed (requests.map (·.request_id)) entries) := by
  unfold grow_running
  rw [ready_indices_eq h, h.seq_lens, h.seq_lens_cpu, h.orig_seq_lens,
    increment_column (fun _ => rfl), increment_column (fun _ => rfl)]
  refine ⟨_, rfl, ?_, rfl, rfl, rfl, ?_⟩
  · rw [grow_listed_kept (·.req) (fun _ => rfl), ← h.reqs]
  · rw [grow_listed_kept (·.req.req_pool_idx) (fun _ => rfl), ← h.req_pool_indices]

/-- A decode counts up the requests it has made slots for, and no others. -/
theorem form_sgl_batch_decode.spec {s : Backend} (h : Aligned s.running_batch entries)
    (requests : List Request) (is_first_rank : Bool) :
    Aligned (stateOf (form_sgl_batch_decode sgl requests is_first_rank s)).running_batch
      (match prepare_selected sgl requests is_first_rank s with
        | .ok _ => grow_listed (requests.map (·.request_id)) entries
        | .error _ => entries) := by
  obtain ⟨b', hb', haligned⟩ := grow_running.spec h requests
  unfold form_sgl_batch_decode
  rw [bind_of_ok (rfl : (get : EStateM Exn Backend Backend) s = .ok s s)]
  rcases prepare_selected sgl requests is_first_rank s with e | ⟨ret, pools⟩
  · exact h
  · rw [bind_of_ok (rfl : raising (.ok (ret, pools)) s = .ok (ret, pools) s), hb',
      bind_of_ok (rfl : raising (.ok b') s = .ok b' s)]
    rw [bind_of_ok (rfl : (set (⟨b', pools⟩ : Backend) : EStateM Exn Backend PUnit) s =
      .ok ⟨⟩ ⟨b', pools⟩)]
    rcases sgl.init_forward_batch ret with e | u
    · exact haligned
    · exact haligned

/-! ## Release -/

/-- Nothing happens to an empty batch. -/
theorem release_empty {s : Backend} (hempty : s.running_batch.reqs = []) (request_id : String) :
    stateOf (release_sglang_request request_id s) = s := by
  unfold release_sglang_request
  rw [bind_of_ok (rfl : (get : EStateM Exn Backend Backend) s = .ok s s)]
  rw [if_pos (by simp [ScheduleBatch.is_empty, hempty])]
  rfl

theorem position_lt {length i : Nat} {index : Int} (h : position length index = some i) :
    i < length := by
  unfold position at h
  split at h
  · split at h
    · cases h
      assumption
    · cases h
  · split at h
    · cases h
      omega
    · cases h

/-- The sentinel points at the last entry. -/
theorem position_minus_one {length : Nat} (h : 0 < length) :
    position length (-1) = some (length - 1) := by
  unfold position
  rw [if_neg (by decide), if_pos (by omega)]
  rfl

/-- In a batch with requests every id has a place to pop, its own or the last. -/
theorem find_index_position (hne : b.reqs ≠ []) (request_id : String) :
    position b.reqs.length (find_index b request_id) =
      some ((b.reqs.findIdx? (fun req => req.rid = request_id)).getD (b.reqs.length - 1)) := by
  unfold find_index
  rcases hfind : b.reqs.findIdx? (fun req => req.rid = request_id) with _ | i
  · rw [hfind]
    exact position_minus_one (List.length_pos_iff.mpr hne)
  · rw [hfind]
    exact position_of_lt (List.findIdx?_eq_some_iff_getElem.mp hfind).1

/-- A release pops a request of a batch that is not empty, and then asks for its length. -/
theorem release_nonempty {s : Backend} {request_id : String} {i : Nat} {req : Req}
    (hpos : position s.running_batch.reqs.length (find_index s.running_batch request_id) = some i)
    (hreq : s.running_batch.reqs[i]? = some req) :
    release_sglang_request request_id s =
      (raising (item s.running_batch.seq_lens (find_index s.running_batch request_id)) >>=
        free_kv_cache req) (s.without (some i)) := by
  have hne : s.running_batch.is_empty = false := by
    unfold ScheduleBatch.is_empty
    rcases hreqs : s.running_batch.reqs with _ | ⟨r, reqs⟩
    · rw [hreqs] at hreq
      cases hreq
    · rfl
  have hpop : pop_req (find_index s.running_batch request_id) s =
      .ok req (s.without (some i)) := by
    unfold pop_req
    rw [bind_of_ok (rfl : (get : EStateM Exn Backend Backend) s = .ok s s)]
    unfold item
    rw [hpos, Option.bind_some, hreq]
    rfl
  unfold release_sglang_request
  rw [bind_of_ok (rfl : (get : EStateM Exn Backend Backend) s = .ok s s)]
  rw [if_neg (by simp [hne])]
  rw [bind_of_ok hpop]

/-- A release of a batch that is not empty takes one request out and leaves the arrays. -/
theorem release_pops {s : Backend} (hne : s.running_batch.reqs ≠ []) (request_id : String) :
    ∃ i < s.running_batch.reqs.length,
      (stateOf (release_sglang_request request_id s)).running_batch =
        { s.running_batch with reqs := s.running_batch.reqs.eraseIdx i } := by
  have hpos := find_index_position hne request_id
  have hlt := position_lt hpos
  refine ⟨_, hlt, ?_⟩
  rw [release_nonempty hpos (List.getElem?_eq_getElem hlt)]
  rcases item s.running_batch.seq_lens (find_index s.running_batch request_id) with e | n
  · rfl
  · rfl

/-- So it breaks the alignment. -/
theorem release_misaligns {s : Backend} (h : Aligned s.running_batch entries)
    (hne : s.running_batch.reqs ≠ []) (request_id : String) (entries' : List Entry) :
    ¬ Aligned (stateOf (release_sglang_request request_id s)).running_batch entries' := by
  obtain ⟨i, hi, hstate⟩ := release_pops hne request_id
  rw [hstate]
  intro haligned
  have hreqs := congrArg List.length haligned.reqs
  have hlens := congrArg List.length haligned.seq_lens
  have hreqs₀ := congrArg List.length h.reqs
  have hlens₀ := congrArg List.length h.seq_lens
  simp only [List.length_map, List.length_eraseIdx_of_lt hi] at hreqs hlens hreqs₀ hlens₀
  omega

/-- A request that is in an aligned batch is the one released. -/
theorem release_present {s : Backend} (h : Aligned s.running_batch entries) {request_id : String}
    (hmem : ∃ req ∈ s.running_batch.reqs, req.rid = request_id) :
    ReleasesOnly request_id s (stateOf (release_sglang_request request_id s)) := by
  obtain ⟨r, hr, hrid⟩ := hmem
  rcases hfind : s.running_batch.reqs.findIdx? (fun req => req.rid = request_id) with _ | i
  · rw [List.findIdx?_eq_none_iff] at hfind
    simpa [hrid] using hfind r hr
  have hlt := (List.findIdx?_eq_some_iff_getElem.mp hfind).1
  have hindex : find_index s.running_batch request_id = i := by
    unfold find_index
    rw [hfind]
  have hlens : i < s.running_batch.seq_lens.length := by
    have hreqs := congrArg List.length h.reqs
    have hseq := congrArg List.length h.seq_lens
    simp only [List.length_map] at hreqs hseq
    omega
  have hitem : item s.running_batch.seq_lens i = .ok s.running_batch.seq_lens[i] := by
    unfold item
    rw [position_of_lt hlens, Option.bind_some, List.getElem?_eq_getElem hlens]
  rw [release_nonempty (by rw [hindex]; exact position_of_lt hlt) (List.getElem?_eq_getElem hlt),
    hindex, hitem]
  refine ⟨fun hnone => absurd hrid (hnone r hr), ?_, ?_⟩
  · show s.running_batch.reqs.eraseIdx i = _
    rw [List.eraseP_eq_eraseIdx, hfind]
  · intro req hreq
    rw [List.find?_eq_bind_findIdx?_getElem?, hfind, Option.bind_some,
      List.getElem?_eq_getElem hlt] at hreq
    cases hreq
    exact ⟨rfl, _, rfl, fun token htoken => List.mem_of_mem_take (List.mem_of_mem_drop htoken)⟩

/-- A request that is not in the batch costs the last request its place. -/
theorem release_absent {s : Backend} (hne : s.running_batch.reqs ≠ []) {request_id : String}
    (habsent : ∀ req ∈ s.running_batch.reqs, req.rid ≠ request_id) :
    (stateOf (release_sglang_request request_id s)).running_batch.reqs =
      s.running_batch.reqs.dropLast := by
  have hfind : s.running_batch.reqs.findIdx? (fun req => req.rid = request_id) = none := by
    rw [List.findIdx?_eq_none_iff]
    intro req hreq
    exact decide_eq_false (habsent req hreq)
  have hpos := find_index_position hne request_id
  rw [hfind, Option.getD_none] at hpos
  rw [release_nonempty hpos (List.getElem?_eq_getElem (position_lt hpos))]
  rcases item s.running_batch.seq_lens (find_index s.running_batch request_id) with e | n
  · exact List.eraseIdx_length_sub_one
  · exact List.eraseIdx_length_sub_one

/-! ## All calls -/

/-- Merges and decodes keep the alignment, and so does a release of an empty batch. -/
theorem Tracked.step_meets (hsgl : sgl.Lawful) {t : Tracked}
    (h : Aligned t.backend.running_batch t.entries) {call : Call}
    (hempty : ∀ request_id, call = .release request_id → t.backend.running_batch.reqs = []) :
    Meets sgl t call := by
  cases call with
  | merge new req_to_token =>
    refine ⟨?_, fun _ h => by cases h⟩
    exact merge_cur_batch.spec hsgl
      (s := { t.backend with pools := { t.backend.pools with req_to_token } }) h new
  | decode requests is_first_rank =>
    refine ⟨?_, fun _ h => by cases h⟩
    exact form_sgl_batch_decode.spec h requests is_first_rank
  | release request_id =>
    have hreqs := hempty request_id rfl
    have hstep : t.backend.step sgl (.release request_id) = t.backend :=
      release_empty hreqs request_id
    have hentries : t.entries = [] := by
      have hmap := h.reqs
      rw [hreqs] at hmap
      exact List.map_eq_nil_iff.mp hmap.symm
    constructor
    · show Aligned (t.backend.step sgl (.release request_id)).running_batch _
      rw [hstep]
      show Aligned t.backend.running_batch (t.entries.eraseP _)
      rw [hentries] at h ⊢
      exact h
    · intro id hid
      cases hid
      show ReleasesOnly request_id t.backend (t.backend.step sgl (.release request_id))
      rw [hstep]
      refine ⟨fun _ => rfl, by rw [hreqs]; rfl, ?_⟩
      intro req hreq
      rw [hreqs] at hreq
      cases hreq

/-- Every release of the run finds the batch empty. -/
def ReleasesFindNothing (sgl : Library) (pools : MemoryPools) (calls : List Call) : Prop :=
  ∀ before request_id after, calls = before ++ .release request_id :: after →
    (run sgl pools before).backend.running_batch.reqs = []

/-- Every call of the run leaves the batch aligned and releases only what it was asked to. -/
def StaysAligned (sgl : Library) (pools : MemoryPools) (calls : List Call) : Prop :=
  ∀ before call after, calls = before ++ call :: after → Meets sgl (run sgl pools before) call

theorem run_aligned (hsgl : sgl.Lawful) {pools : MemoryPools} {calls before after : List Call}
    (hcalls : calls = before ++ after) (h : ReleasesFindNothing sgl pools calls) :
    Aligned (run sgl pools before).backend.running_batch (run sgl pools before).entries := by
  induction before using List.reverseRecOn generalizing after with
  | nil => exact ⟨rfl, rfl, rfl, rfl, rfl⟩
  | append_singleton before call ih =>
    rw [List.append_assoc] at hcalls
    rw [run_append]
    refine (Tracked.step_meets hsgl (ih hcalls) ?_).1
    rintro request_id rfl
    exact h before request_id after hcalls

/-- The running batch stays aligned just as long as no release meets a batch with requests. -/
theorem stays_aligned_iff (hsgl : sgl.Lawful) (pools : MemoryPools) (calls : List Call) :
    StaysAligned sgl pools calls ↔ ReleasesFindNothing sgl pools calls := by
  constructor
  · intro h before request_id after hcalls
    by_contra hne
    have haligned : Aligned (run sgl pools before).backend.running_batch
        (run sgl pools before).entries := by
      rcases List.eq_nil_or_concat' before with rfl | ⟨before', call, rfl⟩
      · exact ⟨rfl, rfl, rfl, rfl, rfl⟩
      · rw [run_append]
        exact (h before' call _ (by rw [hcalls, List.append_assoc]; rfl)).1
    exact release_misaligns haligned hne request_id _ (h before _ after hcalls).1
  · intro h before call after hcalls
    apply Tracked.step_meets hsgl (run_aligned hsgl hcalls h)
    rintro request_id rfl
    exact h before request_id after hcalls

/-! ## Two requests -/

/-- A library that joins the arrays and gives every decode its slots. -/
def joining : Library where
  merge_batch b b' :=
    { reqs := b.reqs ++ b'.reqs
      seq_lens := b.seq_lens ++ b'.seq_lens
      seq_lens_cpu := b.seq_lens_cpu ++ b'.seq_lens_cpu
      orig_seq_lens := b.orig_seq_lens ++ b'.orig_seq_lens
      req_pool_indices := b.req_pool_indices ++ b'.req_pool_indices }
  prepare_for_decode b pools := .ok (b, pools)
  init_forward_batch _ := .ok ()

theorem joining_lawful : joining.Lawful :=
  ⟨fun _ _ => rfl, fun _ _ => rfl, fun _ _ => rfl, fun _ _ => rfl, fun _ _ => rfl⟩

/-- A pool of pages of one token, where row i holds the tokens from 10 i on. -/
def pool_rows : MemoryPools where
  page_size := 1
  req_to_token row := List.range' (10 * row) 10

/-- A prefill of a request of 3 tokens and one of 5. -/
def two_requests : Call :=
  .merge [⟨{ rid := "a", req_pool_idx := 0 }, 3, 3⟩, ⟨{ rid := "b", req_pool_idx := 1 }, 5, 5⟩]
    pool_rows.req_to_token

/-- A release before the first prefill is harmless. -/
theorem early_release_stays_aligned :
    StaysAligned joining pool_rows [.release "a", two_requests] :=
  (stays_aligned_iff joining_lawful pool_rows _).mpr
    (by
      intro before request_id after hcalls
      rcases before with _ | ⟨call, before⟩
      · rfl
      · have htail := List.cons_eq_cons.mp hcalls
        rcases before with _ | ⟨call', before⟩
        · cases (List.cons_eq_cons.mp htail.2).1
        · simpa using congrArg List.length htail.2)

/-- Releasing the first request leaves its length at the place of the second. -/
theorem release_shifts_the_requests :
    ¬ ∀ (sgl : Library) (pools : MemoryPools) (calls : List Call), sgl.Lawful →
      StaysAligned sgl pools calls := by
  intro hall
  have hmeets := hall joining pool_rows [two_requests, .release "a"] joining_lawful [two_requests]
    (.release "a") [] rfl
  have hreqs := congrArg List.length hmeets.1.reqs
  have hlens := congrArg List.length hmeets.1.seq_lens
  rw [List.length_map] at hreqs hlens
  have hlength : (1 : Nat) = 2 := hreqs.trans hlens.symm
  cases hlength

end parallax.sglang.batch_info
