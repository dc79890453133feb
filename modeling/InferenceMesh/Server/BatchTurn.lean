-- One request in a turn of the run loop (base_executor.py, from `form_batch` on):
-- its admission, its place in the batch, and what the batch does to it. A batch
-- without the request leaves it alone.
import InferenceMesh.P2P.Flights
import InferenceMesh.Server.RequestSteps

open ordered_dict python state_exn
open parallax.server.cache_manager parallax.server.request parallax.server.scheduler
open parallax.server.mlx_executor parallax.p2p.message_util

namespace parallax.server.executor

variable {now k i d : Nat} {P tokens : List Int} {input : Tensor} {e e' : Executor} {id : String}
  {r req : Request}

/-! ## Admission -/

/-- The executor once the requests of its turn are admitted. -/
def admitted (now : Nat) (e : Executor) : Executor :=
  e.with_scheduler (e.scheduler.admit_requests now)

section admission

variable {s : Scheduler} {m : CacheManager}

/-- Memory for a request: it has some already, or it is asked for. -/
theorem make_resident_cases (hm : s.cache_manager = some m) (req : Request) :
    ∃ ok m', s.make_resident req = (ok, { s with cache_manager := some m' }) ∧
      (m.has_request req.request_id = true ∧ ok = true ∧ m' = m ∨
        m.has_request req.request_id = false ∧
          m.allocate_request req.request_id req.total_length = (ok, m')) := by
  unfold Scheduler.make_resident
  rw [hm]
  dsimp only
  cases hhas : m.has_request req.request_id with
  | true =>
    refine ⟨true, m, ?_, Or.inl ⟨rfl, rfl, rfl⟩⟩
    rw [if_pos rfl, ← hm]
  | false =>
    rw [if_neg Bool.false_ne_true]
    exact ⟨_, _, rfl, Or.inr ⟨rfl, rfl⟩⟩

/-- A turn of the admission for another request. -/
theorem admit_one_spares (now : Nat) (hm : s.cache_manager = some m) (hne : req.request_id ≠ id)
    (rest : List Request) :
    (∃ m', (s.admit_one now req).cache_manager = some m') ∧
      Spares id (e.with_scheduler { s with wait_queue := req :: rest })
        (e.with_scheduler { s.admit_one now req with wait_queue := rest }) := by
  have hqueue : rest.filter (fun r => decide (r.request_id = id)) =
      (req :: rest).filter (fun r => decide (r.request_id = id)) := by
    rw [List.filter_cons_of_neg (by simpa using hne)]
  have hsame : ∀ c : CacheManager, CacheManager.Leaves id m c →
      ∀ m₁, s.cache_manager = some m₁ → ∃ m', some c = some m' ∧
        CacheManager.Leaves id m₁ m' := by
    intro c hc m₁ hm₁
    rw [hm] at hm₁
    cases hm₁
    exact ⟨c, rfl, hc⟩
  obtain ⟨ok, m', hres, hcases⟩ := make_resident_cases hm req
  have hl : CacheManager.Leaves id m m' := by
    rcases hcases with ⟨_, _, rfl⟩ | ⟨_, halloc⟩
    · exact .refl id m'
    · have h := m.allocate_request_leaves req.total_length (Ne.symm hne)
      rw [halloc] at h
      exact h
  unfold Scheduler.admit_one
  split
  · refine ⟨⟨m, hm⟩, hqueue, rfl, ?_, rfl, rfl⟩
    exact fun m₁ hm₁ => ⟨m₁, hm₁, .refl id m₁⟩
  · rw [hres]
    cases ok with
    | false => exact ⟨⟨m', rfl⟩, hqueue, rfl, hsame m' hl, rfl, rfl⟩
    | true =>
      refine ⟨⟨m', rfl⟩, hqueue, ?_, hsame m' hl, rfl, rfl⟩
      show (((s.running_requests.insert req.request_id _).get? id).map calm) = _
      rw [Dict.get?_insert_ne _ _ hne]
      rfl

theorem admit_from_spares (now : Nat) (queue : List Request) (hm : ∃ m, s.cache_manager = some m)
    (hne : ∀ r ∈ queue, r.request_id ≠ id) :
    Spares id (e.with_scheduler { s with wait_queue := queue })
      (e.with_scheduler (s.admit_from now queue)) := by
  induction queue generalizing s with
  | nil => exact .refl id _
  | cons req rest ih =>
    by_cases hroom : s.running_requests.size < s.max_batch_size
    · rw [Scheduler.admit_from_room hroom]
      obtain ⟨m, hm⟩ := hm
      obtain ⟨hcache, hone⟩ :=
        admit_one_spares (e := e) now hm (hne req List.mem_cons_self) rest
      exact hone.trans (ih hcache (fun r hr => hne r (List.mem_cons_of_mem req hr)))
    · rw [Scheduler.admit_from, if_neg hroom]
      exact .refl id _

theorem make_resident_tidy (h : ∃ m, s.cache_manager = some m ∧ CacheManager.Tidy m)
    (req : Request) :
    ∃ m', (s.make_resident req).2.cache_manager = some m' ∧ CacheManager.Tidy m' := by
  obtain ⟨m, hm, htidy⟩ := h
  obtain ⟨ok, m', hres, hcases⟩ := make_resident_cases hm req
  rw [hres]
  refine ⟨m', rfl, ?_⟩
  rcases hcases with ⟨_, _, rfl⟩ | ⟨_, halloc⟩
  · exact htidy
  · have h := htidy.allocate_request req.request_id req.total_length
    rw [halloc] at h
    exact h

theorem admit_one_tidy (now : Nat) (h : ∃ m, s.cache_manager = some m ∧ CacheManager.Tidy m)
    (req : Request) :
    ∃ m', (s.admit_one now req).cache_manager = some m' ∧ CacheManager.Tidy m' := by
  have hres := make_resident_tidy h req
  unfold Scheduler.admit_one
  split
  · exact h
  · split
    · rename_i s' heq
      rw [heq] at hres
      exact hres
    · rename_i s' heq
      rw [heq] at hres
      exact hres

/-- The turn of the request itself: it becomes ready, or there is no memory for it. -/
theorem Waits.admit_one {rest : List Request}
    (htidy : ∃ m, s.cache_manager = some m ∧ CacheManager.Tidy m) (hid : req.request_id = id)
    (h : Waits i id P tokens input (e.with_scheduler { s with wait_queue := req :: rest })) :
    Ready i id P tokens 0 input (e.with_scheduler { s.admit_one now req with wait_queue := rest }) ∨
      Absent id (e.with_scheduler { s.admit_one now req with wait_queue := rest }) := by
  obtain ⟨r, hr, hready, hdue⟩ := h.waiting
  obtain ⟨m, hm, hvacant⟩ := h.cache
  obtain ⟨m₀, hm₀, htidy⟩ := htidy
  have hm' : s.cache_manager = some m := hm
  rw [hm'] at hm₀
  cases hm₀
  have hqueue : (req :: rest).filter (fun r => decide (r.request_id = id)) = [r] := hr
  rw [List.filter_cons_of_pos (by simpa using hid)] at hqueue
  obtain ⟨rfl, hrest⟩ := List.cons.inj hqueue
  have hnew : s.running_requests.has req.request_id = false := by
    rw [hid]
    exact Dict.has_eq_false.mpr h.running
  obtain ⟨ok, m', hres, ⟨hhas, _⟩ | ⟨_, halloc⟩⟩ := make_resident_cases hm' req
  · exfalso
    have hres' := CacheManager.resident_of_has_request hhas
    rw [hid, hvacant.resident] at hres'
    cases hres'
  · have hrun : s.admit_one now req = if ok then
        Scheduler.start_running { s with cache_manager := some m' } now req
        else { s with cache_manager := some m' } := by
      unfold Scheduler.admit_one
      rw [if_neg (by simp [hnew]), hres]
      cases ok <;> rfl
    rw [hrun]
    have hlength := hdue.length
    rw [Nat.add_zero] at hlength
    rw [hid, hlength] at halloc
    cases ok with
    | true =>
      left
      refine ⟨hrest, ⟨{ req with last_updated_time := some now }, ?_, hready, hdue.calm rfl⟩,
        m', rfl, hvacant.allocate_request htidy halloc⟩
      show (s.running_requests.insert req.request_id _).get? id = _
      rw [hid, Dict.get?_insert_self]
    | false => exact Or.inr ⟨hrest, h.running, m', rfl, hvacant.refused halloc⟩

theorem Waits.admit_from (queue : List Request)
    (htidy : ∃ m, s.cache_manager = some m ∧ CacheManager.Tidy m)
    (h : Waits i id P tokens input (e.with_scheduler { s with wait_queue := queue })) :
    Waits i id P tokens input (e.with_scheduler (s.admit_from now queue)) ∨
      Ready i id P tokens 0 input (e.with_scheduler (s.admit_from now queue)) ∨
      Absent id (e.with_scheduler (s.admit_from now queue)) := by
  induction queue generalizing s with
  | nil =>
    obtain ⟨r, hr, _⟩ := h.waiting
    cases hr
  | cons req rest ih =>
    by_cases hroom : s.running_requests.size < s.max_batch_size
    · rw [Scheduler.admit_from_room hroom]
      have htidy' := admit_one_tidy now htidy req
      have hm' : ∃ m, (s.admit_one now req).cache_manager = some m := by
        obtain ⟨m, hm, _⟩ := htidy'
        exact ⟨m, hm⟩
      by_cases hid : req.request_id = id
      · have hothers : ∀ r ∈ rest, r.request_id ≠ id := by
          obtain ⟨r, hr, _⟩ := h.waiting
          have hqueue : (req :: rest).filter (fun r => decide (r.request_id = id)) = [r] := hr
          rw [List.filter_cons_of_pos (by simpa using hid)] at hqueue
          have hnil := (List.cons.inj hqueue).2
          intro r' hr' heq
          have hmem : r' ∈ rest.filter (fun r => decide (r.request_id = id)) :=
            List.mem_filter.mpr ⟨hr', by simpa using heq⟩
          rw [hnil] at hmem
          cases hmem
        have hspares := admit_from_spares (e := e) now rest hm' hothers
        rcases h.admit_one htidy hid with hready | habsent
        · exact Or.inr (Or.inl (hready.spared hspares))
        · exact Or.inr (Or.inr (habsent.spared hspares))
      · obtain ⟨m, hm, _⟩ := htidy
        exact ih htidy' (h.spared (admit_one_spares now hm hid rest).2)
    · rw [Scheduler.admit_from, if_neg hroom]
      exact Or.inl h

theorem admitted_keeps (hpeer : PeerAt k i e) (now : Nat) : PeerAt k i (admitted now e) := by
  refine hpeer.with_scheduler (Scheduler.admit_requests.spec now e.scheduler).settings
    (hpeer.running.admit_requests open_unwritten) ?_
  obtain ⟨t, waiting, ht, _, heq⟩ := Scheduler.admit_from_rule
    (Q := fun s => ∃ m, s.cache_manager = some m ∧ CacheManager.Tidy m) now
    e.scheduler.wait_queue e.scheduler hpeer.cache (fun s req _ hs => admit_one_tidy now hs req)
  unfold Scheduler.admit_requests
  rw [heq]
  exact ht

theorem admitted_spares (hpeer : PeerAt k i e) (hwait : e.waiting_for id = []) :
    Spares id e (admitted now e) := by
  obtain ⟨m, hm, _⟩ := hpeer.cache
  refine admit_from_spares (e := e) (s := e.scheduler) now e.scheduler.wait_queue ⟨m, hm⟩ ?_
  intro r hr heq
  have hmem : r ∈ e.waiting_for id := List.mem_filter.mpr ⟨hr, by simpa using heq⟩
  rw [hwait] at hmem
  cases hmem

theorem Waits.admitted (hpeer : PeerAt k i e) (h : Waits i id P tokens input e) (now : Nat) :
    Waits i id P tokens input (executor.admitted now e) ∨
      Ready i id P tokens 0 input (executor.admitted now e) ∨ Absent id (executor.admitted now e) :=
  Waits.admit_from (e := e) (s := e.scheduler) e.scheduler.wait_queue hpeer.cache h

end admission

/-! ## The batch that is formed -/

/-- It is in the batch of its turn, for step `d`. -/
structure Taken (i : Nat) (id : String) (P tokens : List Int) (d : Nat) (input : Tensor)
    (e : Executor) (batch : List Request) : Prop where
  waiting : e.waiting_for id = []
  running : ∃ r ∈ batch, e.running id = some r ∧ r.request_id = id ∧
    r.ready_for_next_step = false ∧ Due i P tokens d input r
  cache : ∃ m, e.cache = some m ∧ Provided id P d m

theorem batch_ids (now : Nat) (e : Executor) : (batch_of now e).map Request.request_id =
    (admitted now e).scheduler.select_batch.map Request.request_id := by
  unfold batch_of Scheduler.form_batch
  dsimp only
  rw [List.map_map]
  rfl

theorem batch_of_distinct (hpeer : PeerAt k i e) (now : Nat) :
    ((batch_of now e).map Request.request_id).Nodup := by
  rw [batch_ids]
  exact Scheduler.select_batch_distinct (admitted_keeps hpeer now).running

/-- The requests of a batch are prefills and decodes. -/
theorem batch_kinds (now : Nat) (e : Executor) (hr : r ∈ batch_of now e) :
    r.is_prefill = true ∨ r.is_decoding = true := by
  unfold batch_of Scheduler.form_batch at hr
  obtain ⟨r₀, hr₀, rfl⟩ := List.mem_map.mp hr
  obtain ⟨prefills, decodes, hpre, hdec, hsel, _⟩ :=
    Scheduler.select_batch.spec (e.scheduler.admit_requests now)
  rw [hsel] at hr₀
  rcases List.mem_append.mp hr₀ with hmem | hmem
  · exact Or.inl (Scheduler.mem_ready_prefills.mp (hpre.mem hmem)).2.2
  · exact Or.inr (Scheduler.mem_ready_decodes.mp (hdec.mem hmem)).2.2

/-- A request of the batch was running and ready. -/
theorem batch_ready (hpeer : PeerAt k i e) (hid : id ∈ (batch_of now e).map Request.request_id) :
    ∃ r, (admitted now e).running id = some r ∧ r.ready_for_next_step = true ∧
      Scheduler.taken now r ∈ batch_of now e := by
  obtain ⟨r', hr', rfl⟩ := List.mem_map.mp hid
  unfold batch_of Scheduler.form_batch at hr'
  obtain ⟨r, hr, rfl⟩ := List.mem_map.mp hr'
  obtain ⟨hrun, hready⟩ := Scheduler.select_batch_running (admitted_keeps hpeer now).running hr
  exact ⟨r, hrun, hready, List.mem_map_of_mem hr⟩

theorem formed_keeps (hpeer : PeerAt k i e) (now : Nat) : PeerAt k i (formed now e) := by
  have hadm := admitted_keeps hpeer now
  exact hpeer.with_scheduler (Scheduler.form_batch_settings now e.scheduler)
    (hpeer.running.form_batch open_unwritten) hadm.cache

theorem formed_running (hpeer : PeerAt k i e) (now : Nat) (id : String) :
    (formed now e).running id = ((admitted now e).running id).map
      (fun r => if id ∈ (batch_of now e).map Request.request_id then Scheduler.taken now r else r) := by
  rw [batch_ids]
  show (Dict.mapValues _ (admitted now e).scheduler.running_requests).get? id = _
  rw [Dict.get?_mapValues]
  cases hr : (admitted now e).running id with
  | none =>
    have hr' : (admitted now e).scheduler.running_requests.get? id = none := hr
    rw [hr']
    rfl
  | some r =>
    have hr' : (admitted now e).scheduler.running_requests.get? id = some r := hr
    have hrid := ((admitted_keeps hpeer now).running.running id r hr).1
    rw [hr', Option.map_some, Option.map_some, hrid]
    rfl

/-- A batch without the request. -/
theorem formed_spares (hpeer : PeerAt k i e)
    (hid : id ∉ (batch_of now e).map Request.request_id) :
    Spares id (admitted now e) (formed now e) := by
  refine ⟨rfl, ?_, fun m hm => ⟨m, hm, .refl id m⟩, rfl, rfl⟩
  rw [formed_running hpeer, Option.map_map]
  cases (admitted now e).running id with
  | none => rfl
  | some r =>
    simp only [Option.map_some, Function.comp_apply]
    rw [if_neg hid]

theorem Ready.taken (hpeer : PeerAt k i e) (h : Ready i id P tokens d input (admitted now e))
    (hid : id ∈ (batch_of now e).map Request.request_id) :
    Taken i id P tokens d input (formed now e) (batch_of now e) := by
  obtain ⟨r, hr, _, hdue⟩ := h.running
  obtain ⟨r', hr', _, hmem⟩ := batch_ready hpeer hid
  rw [hr] at hr'
  cases hr'
  refine ⟨h.waiting, ⟨Scheduler.taken now r, hmem, ?_, ?_, rfl, hdue.status, hdue.length,
    fun hi => ?_, hdue.packet⟩, h.cache⟩
  · rw [formed_running hpeer, hr, Option.map_some, if_pos hid]
  · exact ((admitted_keeps hpeer now).running.running id r hr).1
  · obtain ⟨h1, h2, h3, h4, h5⟩ := hdue.own hi
    exact ⟨h1, h2, h3, h4, h5⟩

end parallax.server.executor
