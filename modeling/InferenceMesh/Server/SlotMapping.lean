-- The slots of whole batches. Each token of a prefill batch and each row of a
-- decode batch goes to the slot of its position, whatever the batch is padded
-- to, and padding goes nowhere.
import InferenceMesh.Lib.ExceptList
import InferenceMesh.Server.Addressing

open ordered_dict python state_exn
open parallax.server.cache_manager parallax.server.request
open parallax.metal.paged_attention

namespace parallax.server.mlx_executor

open CacheManager

/-! ## Lists of results -/

theorem forall₂_getElem? {α β : Type} {R : α → β → Prop} {l : List α} {l' : List β}
    (h : List.Forall₂ R l l') {i : Nat} {a : α} (ha : l[i]? = some a) :
    ∃ b, l'[i]? = some b ∧ R a b := by
  induction h generalizing i with
  | nil => simp at ha
  | cons hr _ ih =>
    cases i with
    | zero => cases ha; exact ⟨_, rfl, hr⟩
    | succ i => exact ih ha

/-! ## Padding -/

theorem le_maxLen {l : List Nat} {n : Nat} (h : n ∈ l) : n ≤ maxLen l := by
  have hacc : ∀ (l : List Nat) (a : Nat), a ≤ l.foldl max a ∧ ∀ n ∈ l, n ≤ l.foldl max a := by
    intro l
    induction l with
    | nil => intro a; exact ⟨le_refl a, by simp⟩
    | cons x rest ih =>
      intro a
      obtain ⟨hle, hmem⟩ := ih (max a x)
      refine ⟨le_trans (le_max_left a x) hle, ?_⟩
      intro n hn
      rcases List.mem_cons.mp hn with rfl | hn
      · exact le_trans (le_max_right a n) hle
      · exact hmem n hn
  exact (hacc l 0).2 n h

theorem Rows.len_pad (v : Int) (n : Nat) (r : Rows) (h : r.len ≤ n) : (r.pad v n).len = n := by
  cases r with
  | tokens ids => simp only [Rows.pad, Rows.len, List.length_append, List.length_replicate] at *; omega
  | hidden rows => simp only [Rows.pad, Rows.len, List.length_append, List.length_replicate] at *; omega

theorem pad_inputs_len {v : Int} {hs : List Rows} {r : Rows} (h : r ∈ pad_inputs v hs) :
    r.len = maxLen (hs.map Rows.len) := by
  obtain ⟨r', hr', rfl⟩ := List.mem_map.mp h
  exact Rows.len_pad v _ r' (le_maxLen (List.mem_map_of_mem hr'))

/-- A batch that is padded again keeps its length. -/
theorem maxLen_pad_inputs (v : Int) (hs : List Rows) (h : hs ≠ []) :
    maxLen ((pad_inputs v hs).map Rows.len) = maxLen (hs.map Rows.len) := by
  have hconst : ∀ (l : List Nat) (n : Nat), l ≠ [] → (∀ x ∈ l, x = n) → maxLen l = n := by
    intro l n hl hall
    have hrep : ∀ (l : List Nat) (a : Nat), (∀ x ∈ l, x = n) → a ≤ n → l ≠ [] →
        l.foldl max a = n := by
      intro l
      induction l with
      | nil => intro a _ _ hne; exact absurd rfl hne
      | cons x rest ih =>
        intro a hx ha _
        obtain rfl := hx x List.mem_cons_self
        rw [List.foldl_cons, max_eq_right ha]
        rcases rest with _ | ⟨y, rest⟩
        · rfl
        · exact ih x (fun z hz => hx z (List.mem_cons_of_mem _ hz)) (le_refl x) (by simp)
    exact hrep l 0 hall (Nat.zero_le n) hl
  apply hconst
  · simpa [pad_inputs] using h
  · intro x hx
    obtain ⟨r, hr, rfl⟩ := List.mem_map.mp hx
    exact pad_inputs_len hr

theorem pad_block_tables_map (rows : List Row) : ∃ n, pad_block_tables (rows.map Row.block_table) =
    rows.map (fun r => r.block_table ++ List.replicate (n - r.block_table.length) 0) ∧
      ∀ r ∈ rows, r.block_table.length ≤ n := by
  refine ⟨maxLen ((rows.map Row.block_table).map List.length), ?_, ?_⟩
  · simp only [pad_block_tables, List.map_map]
    rfl
  · intro r hr
    exact le_maxLen (List.mem_map_of_mem (List.mem_map_of_mem hr))

/-! ## The mapping of a prefill batch -/

theorem slot_mapping_flat.spec {bs n : Nat} {rows : List Row} {slots : List Int}
    (h : slot_mapping_flat bs n rows = .ok slots) :
    slots.length = rows.length * n ∧
      ∀ i row, rows[i]? = some row → ∀ p, p < n →
        ∃ e, token_slot bs row.block_table row.context_length p = .ok e ∧
          slots[i * n + p]? = some e := by
  induction rows generalizing slots with
  | nil => cases h; exact ⟨by simp, by simp⟩
  | cons row rest ih =>
    simp only [slot_mapping_flat] at h
    rcases hr : (List.range n).mapM' (token_slot bs row.block_table row.context_length) with e | own
    · rw [hr] at h; cases h
    · rcases ho : slot_mapping_flat bs n rest with e | others
      · rw [hr, ho] at h; cases h
      · rw [hr, ho] at h
        cases h
        obtain ⟨hlen, hothers⟩ := ih ho
        rw [List.mapM'_eq_mapM] at hr
        have hown := except_list.mapM_eq_ok.mp hr
        have hown_len : own.length = n := by rw [← hown.length_eq, List.length_range]
        refine ⟨by rw [List.length_append, hlen, hown_len, List.length_cons, Nat.succ_mul]; omega, ?_⟩
        intro i r hi p hp
        cases i with
        | zero =>
          cases hi
          obtain ⟨e, he, hslot⟩ := forall₂_getElem? hown (i := p) (a := p) (by simp [hp])
          refine ⟨e, hslot, ?_⟩
          rw [Nat.zero_mul, Nat.zero_add, List.getElem?_append_left (by omega), he]
        | succ i =>
          obtain ⟨e, hslot, he⟩ := hothers i r hi p hp
          refine ⟨e, hslot, ?_⟩
          rw [Nat.succ_mul, List.getElem?_append_right (by omega), hown_len, ← he]
          congr 1
          omega

theorem batch_rows_state {rows : List Row} {m m' : CacheManager} {hs : List Rows}
    (h : batch_rows rows m = .ok hs m') : m' = m ∧ hs.length = rows.length := by
  induction rows generalizing m hs with
  | nil => cases h; exact ⟨rfl, rfl⟩
  | cons row rest ih =>
    simp only [batch_rows] at h
    rcases hr : row.rows with _ | r
    · rw [hr] at h; cases h
    · rw [hr] at h
      obtain ⟨rs, m₁, hrest, h⟩ := bind_ok h
      cases h
      obtain ⟨rfl, hlen⟩ := ih hrest
      exact ⟨rfl, by rw [List.length_cons, List.length_cons, hlen]⟩

/-- What a prefill batch is made of, when it comes about. -/
theorem prepare_prefill_batch.spec {peer : Peer} {reqs : List Request} {m m' : CacheManager}
    {inputs : BatchInputs} (h : prepare_prefill_batch peer reqs m = .ok (some inputs) m') :
    ∃ rows slots, gather (prefill_row peer) reqs m = .ok rows m' ∧
      (∀ r ∈ inputs.h_or_tokens, r.len = padded_len inputs.h_or_tokens) ∧
      inputs.slot_mapping = some slots ∧
      slot_mapping_flat m'.block_size (padded_len inputs.h_or_tokens) rows = .ok slots ∧
      inputs.block_tables = pad_block_tables (rows.map Row.block_table) ∧
      inputs.context_lengths = rows.map Row.context_length := by
  unfold prepare_prefill_batch at h
  simp only at h
  split at h
  · cases h
  · rename_i hne
    obtain ⟨rows, m₁, hrows, h₁⟩ := bind_ok h
    obtain ⟨hs, m₂, hhs, h₂⟩ := bind_ok h₁
    obtain ⟨rfl, hlen⟩ := batch_rows_state hhs
    obtain ⟨m₃, m₄, hget, h₃⟩ := bind_ok h₂
    cases hget
    rcases hslots : slot_mapping_flat m₂.block_size (padded_len (pad_inputs
      (if peer.is_first_peer then peer.pad_token_id else 0) hs)) rows with e | slots
    · simp only [hslots] at h₃
      cases h₃
    · simp only [hslots] at h₃
      cases h₃
      refine ⟨rows, slots, hrows, ?_, rfl, hslots, rfl, rfl⟩
      intro r hr
      have hhs_ne : hs ≠ [] := by
        rintro rfl
        simp [pad_inputs] at hr
      rw [padded_len, maxLen_pad_inputs _ _ hhs_ne]
      exact pad_inputs_len hr

/-! ## The slots of a decode batch -/

theorem prepare_decode_batch.spec {peer : Peer} {reqs : List Request} {m m' : CacheManager}
    {inputs : BatchInputs} (h : prepare_decode_batch peer reqs m = .ok (some inputs) m') :
    ∃ rows, gather (decode_row peer) reqs m = .ok rows m' ∧ inputs.slot_mapping = none ∧
      inputs.block_tables = pad_block_tables (rows.map Row.block_table) ∧
      inputs.context_lengths = rows.map Row.context_length := by
  unfold prepare_decode_batch at h
  split at h
  · cases h
  · obtain ⟨rows, m₁, hrows, h₁⟩ := bind_ok h
    obtain ⟨hs, m₂, hhs, h₂⟩ := bind_ok h₁
    obtain ⟨rfl, -⟩ := batch_rows_state hhs
    obtain ⟨m₃, m₄, hget, h₃⟩ := bind_ok h₂
    cases hget
    cases h₃
    exact ⟨rows, hrows, rfl, rfl, rfl⟩

/-- The slots of a batch whose rows hold their requests' tables, whatever each row is padded
with. -/
theorem decode_slots.spec {m : CacheManager} {reqs : List Request} {rows : List Row}
    (pad : Row → List Nat)
    (h : List.Forall₂ (fun req row => Holds m req.request_id row.block_table ∧
      ∃ c, row.context_length = c + 1 ∧ c / m.block_size < row.block_table.length) reqs rows) :
    ∃ slots, decode_slots m.block_size (rows.map (fun r => r.block_table ++ pad r))
        (rows.map Row.context_length) = .ok slots ∧
      List.Forall₂ (fun (rr : Request × Row) (e : Int) => ∃ c s, rr.2.context_length = c + 1 ∧
        slot_of m rr.1.request_id c = some s ∧ e = (s : Nat)) (reqs.zip rows) slots := by
  induction h with
  | nil => exact ⟨[], rfl, .nil⟩
  | @cons req row reqs rows hrow _ ih =>
    obtain ⟨hholds, c, hc, hlt⟩ := hrow
    obtain ⟨slots, hslots, hall⟩ := ih
    obtain ⟨s, hs, hd⟩ := decode_slot.spec hholds hlt (pad row)
    refine ⟨(s : Nat) :: slots, ?_, .cons ⟨c, s, hc, hs, rfl⟩ hall⟩
    simp only [List.map_cons, decode_slots, hc, hd, hslots]
    rfl

/-! ## The contexts of a decode batch -/

theorem append_other {m m' : CacheManager} {id id' : String} {b : Bool} (hne : id' ≠ id)
    (h : m.append_slot id' = .ok (b, m')) :
    m'.context_lengths.get? id = m.context_lengths.get? id ∧
      m'.block_tables.get? id = m.block_tables.get? id := by
  cases b with
  | false => rw [append_slot_false h]; exact ⟨rfl, rfl⟩
  | true =>
    by_cases hb : m.needs_blocks = true
    · obtain ⟨t, c, _, _, ⟨_, _, rfl⟩ | ⟨_, rfl⟩⟩ := append_slot_cases hb h
      · exact ⟨Dict.get?_insert_ne _ _ hne, Dict.get?_insert_ne _ _ hne⟩
      · exact ⟨Dict.get?_insert_ne _ _ hne, rfl⟩
    · simp only [append_slot, hb, Bool.not_false, if_true] at h
      cases h
      exact ⟨rfl, rfl⟩

theorem append_run_other (m : CacheManager) (reqs : List Request) (id : String)
    (h : id ∉ reqs.map Request.request_id) :
    (m.run (reqs.map decode_call)).context_lengths.get? id = m.context_lengths.get? id ∧
      (m.run (reqs.map decode_call)).block_tables.get? id = m.block_tables.get? id := by
  induction reqs generalizing m with
  | nil => exact ⟨rfl, rfl⟩
  | cons req rest ih =>
    rw [List.map_cons, List.mem_cons, not_or] at h
    obtain ⟨hctx, htable⟩ := ih (m.after (decode_call req)) h.2
    have hfirst : (m.after (decode_call req)).context_lengths.get? id = m.context_lengths.get? id ∧
        (m.after (decode_call req)).block_tables.get? id = m.block_tables.get? id := by
      simp only [decode_call, after]
      rcases ha : m.append_slot req.request_id with e | ⟨b, m'⟩
      · exact ⟨rfl, rfl⟩
      · exact append_other (Ne.symm h.1) ha
    exact ⟨hctx.trans hfirst.1, htable.trans hfirst.2⟩

/-- In a batch of distinct requests each row has the context length and the block table that its
request ends the batch with. -/
theorem gather_decode_final {peer : Peer} {reqs : List Request} {m m' : CacheManager}
    {rows : List Row} (hb : m.needs_blocks = true) (hm : BlocksOwned m) (hs : SlotsOwned m)
    (hids : (reqs.map Request.request_id).Nodup)
    (h : gather (decode_row peer) reqs m = .ok rows m') :
    List.Forall₂ (fun req row =>
      m'.context_lengths.get? req.request_id = some row.context_length ∧
        row.block_table = m'.get_block_table req.request_id) reqs rows := by
  induction reqs generalizing m rows with
  | nil => cases h; exact .nil
  | cons req rest ih =>
    obtain ⟨hnot, hrest_ids⟩ := List.nodup_cons.mp hids
    obtain ⟨row, m₁, hrow, h₁⟩ := bind_ok h
    obtain ⟨rows', m₂, hrest, h₂⟩ := bind_ok h₁
    cases h₂
    obtain ⟨happ, htable, hctx, -⟩ := decode_row.spec hrow
    have hafter : m.after (decode_call req) = m₁ := by simp only [decode_call, after, happ]
    obtain ⟨hm₁, hs₁⟩ := owned_after m (decode_call req) hb hm hs
    have hb₁ := (after_needs_blocks m (decode_call req)).trans hb
    rw [hafter] at hm₁ hs₁ hb₁
    obtain ⟨hctx', htable'⟩ := append_run_other m₁ rest req.request_id hnot
    refine .cons ⟨?_, ?_⟩ (ih hb₁ hm₁ hs₁ hrest_ids hrest)
    · rw [(gather_decode hb₁ hm₁ hs₁ hrest).1, hctx', hctx]
      obtain ⟨t, c, _, _, ⟨_, _, rfl⟩ | ⟨_, rfl⟩⟩ := append_slot_cases hb happ <;>
        simp [get_context_length]
    · rw [(gather_decode hb₁ hm₁ hs₁ hrest).1, htable, get_block_table, get_block_table, htable']

/-- The block tables of a decode batch of distinct requests are those of the manager, padded to
one length. -/
theorem decode_batch_tables {peer : Peer} {reqs : List Request} {m m' : CacheManager}
    {inputs : BatchInputs} (hb : m.needs_blocks = true) (hm : BlocksOwned m) (hs : SlotsOwned m)
    (hids : (reqs.map Request.request_id).Nodup)
    (h : prepare_decode_batch peer reqs m = .ok (some inputs) m') :
    (∀ row ∈ inputs.block_tables, row.length = (inputs.block_tables.headD []).length) ∧
      ∀ (i : Nat) (req : Request), reqs[i]? = some req →
        (∃ pad, inputs.block_tables[i]? = some (m'.get_block_table req.request_id ++ pad)) ∧
          inputs.context_lengths[i]? = m'.context_lengths.get? req.request_id := by
  obtain ⟨rows, hrows, -, htables, hctxs⟩ := prepare_decode_batch.spec h
  obtain ⟨n, hpad, hle⟩ := pad_block_tables_map rows
  have hfinal := gather_decode_final hb hm hs hids hrows
  rw [hpad] at htables
  rw [htables, hctxs]
  have hlen : ∀ row ∈ rows.map (fun r => r.block_table ++ List.replicate
      (n - r.block_table.length) 0), row.length = n := by
    intro row hrow
    obtain ⟨r, hr, rfl⟩ := List.mem_map.mp hrow
    have := hle r hr
    rw [List.length_append, List.length_replicate]
    omega
  refine ⟨?_, ?_⟩
  · intro row hrow
    rw [hlen row hrow]
    rcases hrs : rows with _ | ⟨r, rest⟩
    · rw [hrs] at hrow; cases hrow
    · rw [hrs] at hlen
      exact (hlen _ List.mem_cons_self).symm
  · intro i req hi
    obtain ⟨row, hrow, hctx, htable⟩ := forall₂_getElem? hfinal hi
    rw [List.getElem?_map, List.getElem?_map, hrow, hctx, ← htable]
    exact ⟨⟨_, rfl⟩, rfl⟩

/-! ## Batches that stop half way -/

/-- The state is reached by calls that free nothing. -/
def Clean (m m' : CacheManager) : Prop :=
  ∃ calls, (∀ id, Call.free_request id ∉ calls) ∧ m' = m.run calls

theorem Clean.refl (m : CacheManager) : Clean m m := ⟨[], by simp, rfl⟩

theorem Clean.after {m m' : CacheManager} (h : Clean m m') (call : Call)
    (hcall : ∀ id, call ≠ .free_request id) : Clean m (m'.after call) := by
  obtain ⟨calls, hfree, rfl⟩ := h
  refine ⟨calls ++ [call], ?_, ?_⟩
  · intro id hmem
    rcases List.mem_append.mp hmem with hmem | hmem
    · exact hfree id hmem
    · exact hcall id (List.mem_singleton.mp hmem).symm
  · rw [CacheManager.run, CacheManager.run, List.foldl_append]
    rfl

theorem Clean.grows {m m' : CacheManager} (h : Clean m m') (id : String) : Grows id m m' := by
  obtain ⟨calls, hfree, rfl⟩ := h
  exact run_grows m id calls (hfree id)

theorem prefill_row_clean (m : CacheManager) (peer : Peer) (req : Request) :
    Keeps (Clean m) (prefill_row peer req) := by
  unfold prefill_row
  refine Keeps.cond (fun _ => Keeps.bind (Keeps.throws _) (fun _ => ?_)) (fun _ => ?_) <;>
  · refine Keeps.bind (Keeps.modifyGets ?_) (fun success => Keeps.cond (fun _ => ?_) (fun _ => ?_))
    · intro m' h
      exact h.after (.allocate_request req.request_id req.total_length) (by simp)
    · exact Keeps.bind (Keeps.throws _) (fun _ => Keeps.bind Keeps.gets (fun _ => Keeps.pure _))
    · exact Keeps.bind Keeps.gets (fun _ => Keeps.pure _)

theorem decode_row_clean (m : CacheManager) (peer : Peer) (req : Request) :
    Keeps (Clean m) (decode_row peer req) := by
  unfold decode_row
  refine Keeps.cond (fun _ => Keeps.bind (Keeps.throws _) (fun _ => ?_)) (fun _ => ?_) <;>
    refine Keeps.cond (fun _ => Keeps.bind (Keeps.throws _) (fun _ => ?_)) (fun _ => ?_)
  -- What follows the two checks is the same in all four cases.
  all_goals
    refine Triple.bind (R := fun m' s => m' = s ∧ Clean m s) (Triple.gets (fun s h => ⟨rfl, h⟩)) ?_
    intro m'
    rcases ha : m'.append_slot req.request_id with e | ⟨_ | _, m''⟩
    · exact Triple.throws (fun s h => h.2)
    · exact Triple.throws (fun s h => h.2)
    · refine Triple.bind (R := fun _ s => Clean m s) (Triple.sets ?_) (fun _ => Triple.pure (fun _ h => h))
      rintro s ⟨rfl, h⟩
      have hafter := h.after (.append_slot req.request_id) (by simp)
      rw [after, ha] at hafter
      exact hafter

theorem gather_clean {m : CacheManager} {row : Request → CacheM Row}
    (hrow : ∀ req, Keeps (Clean m) (row req)) (reqs : List Request) :
    Keeps (Clean m) (gather row reqs) := by
  induction reqs with
  | nil => exact Keeps.pure _
  | cons req rest ih =>
    exact Keeps.bind (hrow req) (fun _ => Keeps.bind ih (fun _ => Keeps.pure _))

theorem batch_rows_clean (m : CacheManager) (rows : List Row) :
    Keeps (Clean m) (batch_rows rows) := by
  induction rows with
  | nil => exact Keeps.pure _
  | cons row rest ih =>
    unfold batch_rows
    rcases row.rows with _ | r
    · exact Keeps.throws _
    · exact Keeps.bind ih (fun _ => Keeps.pure _)

/-- A prefill batch frees nothing, on either exit. -/
theorem prepare_prefill_batch_clean (m : CacheManager) (peer : Peer) (reqs : List Request) :
    Keeps (Clean m) (prepare_prefill_batch peer reqs) := by
  unfold prepare_prefill_batch
  refine Keeps.cond (fun _ => Keeps.pure _) (fun _ => ?_)
  refine Keeps.bind (gather_clean (prefill_row_clean m peer) reqs) (fun rows => ?_)
  refine Keeps.bind (batch_rows_clean m rows) (fun hs => Keeps.bind Keeps.gets (fun m' => ?_))
  split
  · exact Keeps.throws _
  · exact Keeps.pure _

/-- A decode batch frees nothing, on either exit. -/
theorem prepare_decode_batch_clean (m : CacheManager) (peer : Peer) (reqs : List Request) :
    Keeps (Clean m) (prepare_decode_batch peer reqs) := by
  unfold prepare_decode_batch
  refine Keeps.cond (fun _ => Keeps.pure _) (fun _ => ?_)
  refine Keeps.bind (gather_clean (decode_row_clean m peer) reqs) (fun rows => ?_)
  exact Keeps.bind (batch_rows_clean m rows) (fun hs => Keeps.bind Keeps.gets (fun _ => Keeps.pure _))

/-! ## Every run -/

theorem prefill_mapping_follows_slots {peer : Peer} {reqs : List Request} {m m' : CacheManager}
    {inputs : BatchInputs} (hb : m.needs_blocks = true)
    (h : prepare_prefill_batch peer reqs m = .ok (some inputs) m') :
    m' = m.run (reqs.map prefill_call) ∧
      ∃ slots, inputs.slot_mapping = some slots ∧
        slots.length = reqs.length * padded_len inputs.h_or_tokens ∧
        (∀ r ∈ inputs.h_or_tokens, r.len = padded_len inputs.h_or_tokens) ∧
        ∀ (i : Nat) (req : Request), reqs[i]? = some req →
          ∀ p, p < padded_len inputs.h_or_tokens →
            (p < req.total_length → ∃ s, slot_of m' req.request_id p = some s ∧
              slots[i * padded_len inputs.h_or_tokens + p]? = some (s : Int)) ∧
            (¬ p < req.total_length →
              slots[i * padded_len inputs.h_or_tokens + p]? = some (-1)) := by
  obtain ⟨rows, slots, hrows, hpad, hmap, hslots, -, -⟩ := prepare_prefill_batch.spec h
  obtain ⟨hrun, hall⟩ := gather_prefill hb hrows
  obtain ⟨hlen, hentry⟩ := slot_mapping_flat.spec hslots
  refine ⟨hrun, slots, hmap, by rw [hlen, hall.length_eq], hpad, ?_⟩
  intro i req hi p hp
  obtain ⟨row, hrow, hctx, hholds⟩ := forall₂_getElem? hall hi
  obtain ⟨e, he, hslot⟩ := hentry i row hrow p hp
  rw [hctx] at he
  refine ⟨?_, ?_⟩
  · intro hlt
    obtain ⟨s, hs, rfl⟩ := token_slot.spec hholds hlt he
    exact ⟨s, hs, hslot⟩
  · intro hge
    rw [token_slot, if_neg hge] at he
    cases he
    exact hslot

theorem decode_slots_follow_slots {peer : Peer} {reqs : List Request} {m m' : CacheManager}
    {inputs : BatchInputs} (hb : m.needs_blocks = true) (hm : BlocksOwned m) (hs : SlotsOwned m)
    (h : prepare_decode_batch peer reqs m = .ok (some inputs) m') :
    m' = m.run (reqs.map decode_call) ∧
      ∃ slots, decode_slots m.block_size inputs.block_tables inputs.context_lengths = .ok slots ∧
        slots.length = reqs.length ∧
        ∀ (i : Nat) (req : Request), reqs[i]? = some req →
          ∃ p s, inputs.context_lengths[i]? = some (p + 1) ∧
          ((reqs.map Request.request_id).Nodup →
            m'.context_lengths.get? req.request_id = some (p + 1)) ∧
          slot_of m' req.request_id p = some s ∧ slots[i]? = some (s : Int) := by
  obtain ⟨rows, hrows, -, htables, hctxs⟩ := prepare_decode_batch.spec h
  obtain ⟨hrun, hall⟩ := gather_decode hb hm hs hrows
  obtain ⟨n, hpad, -⟩ := pad_block_tables_map rows
  have hbs : m'.block_size = m.block_size := by
    rw [hrun, CacheManager.block_size, run_config, CacheManager.block_size]
  rw [← hbs] at hall
  obtain ⟨slots, hslots, hents⟩ := decode_slots.spec
    (fun r => List.replicate (n - r.block_table.length) 0) hall
  refine ⟨hrun, slots, by rw [htables, hctxs, hpad, ← hbs]; exact hslots, ?_, ?_⟩
  · rw [← hents.length_eq, List.length_zip, hall.length_eq, Nat.min_self]
  · intro i req hi
    obtain ⟨row, hrow, _⟩ := forall₂_getElem? hall hi
    have hzip : (reqs.zip rows)[i]? = some (req, row) := by
      rw [List.getElem?_zip_eq_some]
      exact ⟨hi, hrow⟩
    obtain ⟨e, he, c, s, hc, hslot, rfl⟩ := forall₂_getElem? hents hzip
    refine ⟨c, s, ?_, ?_, hslot, he⟩
    · rw [hctxs, List.getElem?_map, hrow, ← hc]
      rfl
    · intro hids
      obtain ⟨row', hrow', hctx, -⟩ := forall₂_getElem? (gather_decode_final hb hm hs hids hrows) hi
      rw [hrow] at hrow'
      cases hrow'
      rw [hctx, hc]

/-- After any run of calls, each position below the context length of a request has a slot in
the pool, no two positions share one, and a slot stays where it is while its request lives. The
prefill mapping and the decode computation give that slot, for every padding of the batch. -/
theorem kv_slots_are_apart_and_agree (c : Config) (calls : List Call)
    (hb : c.needs_blocks = true) :
    let m := (init c).run calls
    (∀ id len, m.context_lengths.get? id = some len → ∀ p, p < len →
      ∃ s, slot_of m id p = some s ∧ s < c.num_gpu_blocks * c.block_size) ∧
    (∀ id id' p p' s, slot_of m id p = some s → slot_of m id' p' = some s → id = id' ∧ p = p') ∧
    (∀ id t p s, m.block_tables.get? id = some t → slot_of m id p = some s →
      ∀ length, p < length → ∀ pad, token_slot c.block_size t length p = .ok (s : Nat) ∧
        decode_slot c.block_size (t ++ pad) (p + 1) = .ok (s : Nat)) ∧
    (∀ id p s more, .free_request id ∉ more → slot_of m id p = some s →
      slot_of (m.run more) id p = some s) ∧
    (∀ peer reqs inputs m', prepare_prefill_batch peer reqs m = .ok (some inputs) m' →
      m' = m.run (reqs.map prefill_call) ∧
        ∃ slots, inputs.slot_mapping = some slots ∧
          slots.length = reqs.length * padded_len inputs.h_or_tokens ∧
          (∀ r ∈ inputs.h_or_tokens, r.len = padded_len inputs.h_or_tokens) ∧
          ∀ (i : Nat) (req : Request), reqs[i]? = some req →
            ∀ p, p < padded_len inputs.h_or_tokens →
              (p < req.total_length → ∃ s, slot_of m' req.request_id p = some s ∧
                slots[i * padded_len inputs.h_or_tokens + p]? = some (s : Int)) ∧
              (¬ p < req.total_length →
                slots[i * padded_len inputs.h_or_tokens + p]? = some (-1))) ∧
    (∀ peer reqs inputs m', prepare_decode_batch peer reqs m = .ok (some inputs) m' →
      m' = m.run (reqs.map decode_call) ∧
        ∃ slots, decode_slots c.block_size inputs.block_tables inputs.context_lengths = .ok slots ∧
          slots.length = reqs.length ∧
          ∀ (i : Nat) (req : Request), reqs[i]? = some req →
            ∃ p s, inputs.context_lengths[i]? = some (p + 1) ∧
            ((reqs.map Request.request_id).Nodup →
              m'.context_lengths.get? req.request_id = some (p + 1)) ∧
            slot_of m' req.request_id p = some s ∧ slots[i]? = some (s : Int)) := by
  intro m
  have hcf : m.config = c := run_config (init c) calls
  have hbs : m.block_size = c.block_size := by rw [CacheManager.block_size, hcf]
  have hmb : m.needs_blocks = true := by rw [CacheManager.needs_blocks, hcf]; exact hb
  obtain ⟨hm, hs⟩ := owned_run (init c) calls hb (blocksOwned_init c hb) (slotsOwned_init c)
  refine ⟨?_, ?_, ?_, ?_, ?_, ?_⟩
  · intro id len hlen p hp
    rw [← hbs, ← hcf]
    exact slot_of_lt_context hm hlen hp
  · intro id id' p p' s h h'
    exact slot_of_inj hm h h'
  · intro id t p s ht hslot n hp pad
    rw [← hbs]
    exact formulas_agree ht hslot n hp pad
  · intro id p s more hfree hslot
    exact (run_grows m id more hfree).slot_of hslot
  · intro peer reqs inputs m' h
    exact prefill_mapping_follows_slots hmb h
  · intro peer reqs inputs m' h
    rw [← hbs]
    exact decode_slots_follow_slots hmb hm hs h

theorem hybrid_slots_are_apart :
    let m := (init hybrid).run [.allocate_request "a" 4, .allocate_request "b" 1, .append_slot "a"]
    ∃ s, slot_of m "a" 4 = some s ∧ s < 32 := by
  intro m
  exact (kv_slots_are_apart_and_agree hybrid _ (by decide)).1 "a" 5 (by decide) 4 (by decide)

end parallax.server.mlx_executor
