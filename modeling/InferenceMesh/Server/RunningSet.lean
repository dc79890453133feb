-- The requests of a batching scheduler across its operations
-- (parallax/server/scheduler.py): where a running request comes from, and what
-- all requests keep in common while they wait and run.
import InferenceMesh.Server.Scheduler

open ordered_dict python
open parallax.server.cache_manager parallax.server.request

namespace parallax.server.scheduler

namespace Scheduler

/-! ## Settings -/

/-- Only the requests and the cache differ. -/
structure SameSettings (s t : Scheduler) : Prop where
  only : t = { s with
    wait_queue := t.wait_queue
    running_requests := t.running_requests
    cache_manager := t.cache_manager }

namespace SameSettings

variable {s t u : Scheduler}

theorem refl (s : Scheduler) : SameSettings s s := ⟨rfl⟩

theorem trans (h : SameSettings s t) (h' : SameSettings t u) : SameSettings s u := by
  refine ⟨?_⟩
  rw [h'.only, h.only]

theorem is_first_peer (h : SameSettings s t) : t.is_first_peer = s.is_first_peer := by
  rw [h.only]

theorem micro_batch_size (h : SameSettings s t) : t.micro_batch_size = s.micro_batch_size := by
  rw [h.only]

theorem max_num_tokens_per_batch (h : SameSettings s t) :
    t.max_num_tokens_per_batch = s.max_num_tokens_per_batch := by
  rw [h.only]

theorem eos_token_id (h : SameSettings s t) : t.eos_token_id = s.eos_token_id := by
  rw [h.only]

theorem tokenizer_eos_token_id (h : SameSettings s t) :
    t.tokenizer_eos_token_id = s.tokenizer_eos_token_id := by
  rw [h.only]

theorem request_timeout_s (h : SameSettings s t) : t.request_timeout_s = s.request_timeout_s := by
  rw [h.only]

end SameSettings

/-! ## Admission, request by request -/

/-- What the loop of the admission does with the request in front. -/
def admit_one (now : Nat) (s : Scheduler) (req : Request) : Scheduler :=
  if s.running_requests.has req.request_id then s
  else
    match s.make_resident req with
    | (true, s') => s'.start_running now req
    | (false, s') => s'

theorem admit_from_room {now : Nat} {s : Scheduler} {req : Request} {rest : List Request}
    (hroom : s.running_requests.size < s.max_batch_size) :
    s.admit_from now (req :: rest) = (s.admit_one now req).admit_from now rest := by
  rw [admit_from, if_pos hroom]
  unfold admit_one
  split
  · rfl
  · rcases s.make_resident req with ⟨_ | _, s'⟩ <;> rfl

/-- What holds before the admission and across each of its turns holds after it, whatever is left
of the queue. -/
theorem admit_from_rule {Q : Scheduler → Prop} (now : Nat) (queue : List Request) (s : Scheduler)
    (hs : Q s) (hturn : ∀ s' req, req ∈ queue → Q s' → Q (s'.admit_one now req)) :
    ∃ t waiting, Q t ∧ waiting <:+ queue ∧
      s.admit_from now queue = { t with wait_queue := waiting } := by
  induction queue generalizing s with
  | nil => exact ⟨s, [], hs, List.suffix_refl _, rfl⟩
  | cons req rest ih =>
    by_cases hroom : s.running_requests.size < s.max_batch_size
    · obtain ⟨t, waiting, ht, hsuffix, heq⟩ := ih (s.admit_one now req)
        (hturn s req List.mem_cons_self hs)
        (fun s' r hr => hturn s' r (List.mem_cons_of_mem _ hr))
      refine ⟨t, waiting, ht, hsuffix.trans (List.suffix_cons req rest), ?_⟩
      rw [admit_from_room hroom, heq]
    · refine ⟨s, req :: rest, hs, List.suffix_refl _, ?_⟩
      rw [admit_from, if_neg hroom]

theorem make_resident_only (s : Scheduler) (req : Request) :
    ∃ c, (s.make_resident req).2 = { s with cache_manager := c } := by
  unfold make_resident
  split
  · exact ⟨s.cache_manager, rfl⟩
  · dsimp only
    split
    · exact ⟨s.cache_manager, rfl⟩
    · exact ⟨_, rfl⟩

/-- The cases of one turn: the request is dropped, with the running ones as they were, or it runs
from now on. -/
theorem admit_one_cases (now : Nat) (s : Scheduler) (req : Request) :
    SameSettings s (s.admit_one now req) ∧
      ((s.admit_one now req).running_requests = s.running_requests ∨
        (s.running_requests.has req.request_id = false ∧
          (s.admit_one now req).running_requests =
            s.running_requests.insert req.request_id { req with last_updated_time := some now })) := by
  obtain ⟨c, hc⟩ := s.make_resident_only req
  unfold admit_one
  split
  · exact ⟨.refl s, Or.inl rfl⟩
  · rename_i hnew
    split
    · rename_i s' hres
      rw [hres] at hc
      subst hc
      exact ⟨⟨rfl⟩, Or.inr ⟨by simpa using hnew, rfl⟩⟩
    · rename_i s' hres
      rw [hres] at hc
      subst hc
      exact ⟨⟨rfl⟩, Or.inl rfl⟩

/-- What an admission does to the running requests. -/
structure Admitted (now : Nat) (s t : Scheduler) : Prop where
  settings : SameSettings s t
  stays : ∀ id req, s.get_running_request id = some req → t.get_running_request id = some req
  origin : ∀ id req, t.get_running_request id = some req → s.get_running_request id = some req ∨
    ∃ r ∈ s.wait_queue, r.request_id = id ∧ req = { r with last_updated_time := some now }
  waits : t.wait_queue <:+ s.wait_queue

theorem admit_requests.spec (now : Nat) (s : Scheduler) : Admitted now s (s.admit_requests now) := by
  let Q := fun t : Scheduler => SameSettings s t ∧
    (∀ id req, s.get_running_request id = some req → t.get_running_request id = some req) ∧
    ∀ id req, t.get_running_request id = some req → s.get_running_request id = some req ∨
      ∃ r ∈ s.wait_queue, r.request_id = id ∧ req = { r with last_updated_time := some now }
  have hturn : ∀ s' req, req ∈ s.wait_queue → Q s' → Q (s'.admit_one now req) := by
    rintro s' req hreq ⟨hset, hstays, horigin⟩
    obtain ⟨hsame, hcases⟩ := admit_one_cases now s' req
    refine ⟨hset.trans hsame, ?_, ?_⟩
    · intro id r hr
      have hold := hstays id r hr
      unfold get_running_request at *
      rcases hcases with hrun | ⟨hnew, hrun⟩
      · rw [hrun, hold]
      · have hne : req.request_id ≠ id := by
          rintro rfl
          rw [Dict.has_eq_false.mp hnew] at hold
          cases hold
        rw [hrun, Dict.get?_insert_ne _ _ hne, hold]
    · intro id r hr
      unfold get_running_request at hr
      rcases hcases with hrun | ⟨hnew, hrun⟩
      · rw [hrun] at hr
        exact horigin id r hr
      · rw [hrun, Dict.get?_insert] at hr
        split at hr
        · rename_i hid
          exact Or.inr ⟨req, hreq, hid, (Option.some.inj hr).symm⟩
        · exact horigin id r hr
  obtain ⟨t, waiting, ⟨hset, hstays, horigin⟩, hsuffix, heq⟩ :=
    admit_from_rule (Q := Q) now s.wait_queue s ⟨.refl s, fun _ _ h => h, fun _ _ h => Or.inl h⟩ hturn
  unfold admit_requests
  rw [heq]
  refine ⟨⟨?_⟩, hstays, horigin, hsuffix⟩
  rw [hset.only]

/-! ## The other operations -/

section enque

variable (now : Nat) {s : Scheduler} {req : Request}

theorem enque_prefill (hopen : req.is_finished = false) (hprefill : req.is_decoding = false) :
    s.enque_request now req = .ok { s with wait_queue := s.wait_queue ++
      [{ req with ready_for_next_step := true, last_updated_time := some now }] } := by
  unfold enque_request
  rw [if_neg (by simp [hopen])]
  dsimp only
  rw [if_neg (by simpa [Request.is_decoding] using hprefill)]

theorem enque_decode (hopen : req.is_finished = false) (hdecode : req.is_decoding = true)
    (hruns : s.running_requests.has req.request_id = true) :
    s.enque_request now req = .ok { s with
      running_requests := ((s.running_requests.insert req.request_id
        { req with ready_for_next_step := true, last_updated_time := some now }).moveToEnd
          req.request_id) } := by
  unfold enque_request
  rw [if_neg (by simp [hopen])]
  dsimp only
  rw [if_pos (by simpa [Request.is_decoding] using hdecode), if_neg (by simp [hruns])]

theorem enque_raises (hopen : req.is_finished = false) (hdecode : req.is_decoding = true)
    (hruns : s.running_requests.has req.request_id = false) :
    ∃ err, s.enque_request now req = .error err := by
  unfold enque_request
  rw [if_neg (by simp [hopen])]
  dsimp only
  rw [if_pos (by simpa [Request.is_decoding] using hdecode), if_pos (by simp [hruns])]
  exact ⟨_, rfl⟩

end enque

theorem enque_request_settings {now : Nat} {s s' : Scheduler} {req : Request}
    (h : s.enque_request now req = .ok s') : SameSettings s s' := by
  unfold enque_request at h
  split at h
  · cases h
    exact .refl s
  · dsimp only at h
    split at h
    · split at h
      · cases h
      · cases h
        exact ⟨rfl⟩
    · cases h
      exact ⟨rfl⟩

theorem evict_request_settings {s s' : Scheduler} {id : String} (h : s.evict_request id = .ok s') :
    SameSettings s s' := by
  unfold evict_request at h
  split at h
  · cases h
    exact ⟨rfl⟩
  · cases h

theorem form_batch_settings (now : Nat) (s : Scheduler) : SameSettings s (s.form_batch now).2 := by
  refine (admit_requests.spec now s).settings.trans ?_
  exact ⟨rfl⟩

end Scheduler

/-! ## What the requests have in common -/

/-- A property of requests that does not look at what the scheduler writes to them. -/
def Unwritten (P : Request → Prop) : Prop :=
  ∀ (req : Request) (ready abort : Bool) (time : Option Nat), P req →
    P { req with ready_for_next_step := ready, abort := abort, last_updated_time := time }

/-- All requests of the scheduler have the property, and each runs under its own id. -/
structure Holds (P : Request → Prop) (s : Scheduler) : Prop where
  waiting : ∀ req ∈ s.wait_queue, P req
  running : ∀ id req, s.get_running_request id = some req → req.request_id = id ∧ P req

namespace Holds

open Scheduler

variable {P : Request → Prop} {s s' : Scheduler} {now : Nat}

theorem admit_requests (h : Holds P s) (hP : Unwritten P) : Holds P (s.admit_requests now) := by
  have hadm := Scheduler.admit_requests.spec now s
  constructor
  · exact fun req hreq => h.waiting req (hadm.waits.mem hreq)
  · intro id req hreq
    rcases hadm.origin id req hreq with hold | ⟨r, hr, hid, rfl⟩
    · exact h.running id req hold
    · exact ⟨hid, hP r r.ready_for_next_step r.abort _ (h.waiting r hr)⟩

theorem enque_request {req : Request} (h : Holds P s) (hP : Unwritten P)
    (hreq : req.is_finished = false → P req) (hrun : s.enque_request now req = .ok s') :
    Holds P s' := by
  unfold Scheduler.enque_request at hrun
  split at hrun
  · cases hrun
    exact h
  · rename_i hopen
    have hready := hP req true req.abort (some now) (hreq (by simpa using hopen))
    dsimp only at hrun
    split at hrun
    · split at hrun
      · cases hrun
      · cases hrun
        refine ⟨h.waiting, ?_⟩
        intro id r hr
        unfold get_running_request at hr
        rw [Dict.get?_moveToEnd, Dict.get?_insert] at hr
        split at hr
        · rename_i hid
          cases hr
          exact ⟨hid, hready⟩
        · exact h.running id r hr
    · cases hrun
      refine ⟨?_, h.running⟩
      intro r hr
      rcases List.mem_append.mp hr with hr | hr
      · exact h.waiting r hr
      · rw [List.mem_singleton.mp hr]
        exact hready

theorem evict_request {id : String} (h : Holds P s) (hrun : s.evict_request id = .ok s') :
    Holds P s' := by
  unfold Scheduler.evict_request at hrun
  split at hrun
  · cases hrun
    refine ⟨h.waiting, ?_⟩
    intro id' r hr
    unfold get_running_request at hr
    rw [Dict.get?_erase] at hr
    split at hr
    · cases hr
    · exact h.running id' r hr
  · cases hrun

theorem form_batch (h : Holds P s) (hP : Unwritten P) : Holds P (s.form_batch now).2 := by
  have hadm : Holds P (s.admit_requests now) := h.admit_requests hP
  refine ⟨hadm.waiting, ?_⟩
  intro id r hr
  unfold Scheduler.form_batch get_running_request at hr
  dsimp only at hr
  rw [Dict.get?_mapValues] at hr
  obtain ⟨old, hold, rfl⟩ := Option.map_eq_some_iff.mp hr
  obtain ⟨hid, hpro⟩ := hadm.running id old hold
  split
  · exact ⟨hid, hP old false old.abort (some now) hpro⟩
  · exact ⟨hid, hpro⟩

end Holds

/-! ## The running requests as a list -/

namespace Holds

variable {P : Request → Prop} {s : Scheduler}

theorem mem_values (h : Holds P s) {req : Request} :
    req ∈ s.running_requests.values ↔ s.get_running_request req.request_id = some req := by
  rw [Dict.mem_values]
  constructor
  · rintro ⟨id, hid⟩
    rw [(h.running id req hid).1]
    exact hid
  · exact fun hreq => ⟨_, hreq⟩

/-- Two running requests of one id are one request. -/
theorem values_injective (h : Holds P s) {r r' : Request} (hr : r ∈ s.running_requests.values)
    (hr' : r' ∈ s.running_requests.values) (hid : r.request_id = r'.request_id) : r = r' := by
  rw [h.mem_values] at hr hr'
  rw [hid, hr'] at hr
  exact (Option.some.inj hr).symm

theorem ids_of_values (h : Holds P s) :
    s.running_requests.values.map Request.request_id = s.running_requests.keys := by
  unfold Dict.values Dict.keys
  rw [List.map_map]
  apply List.map_congr_left
  rintro ⟨id, req⟩ hmem
  exact (h.running id req (Dict.get?_eq_some.mpr hmem)).1

end Holds

end parallax.server.scheduler
