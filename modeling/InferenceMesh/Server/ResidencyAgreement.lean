-- The peers of a pipeline agree on the requests that they keep, once nothing is
-- under way: those with a request are the first ones of the ring, and a request
-- that left a peer is nowhere. A batch may raise before a packet of its requests
-- has left. Behind the first peer nobody is told of the requests that it evicts.
import InferenceMesh.Server.StepAgreement

open ordered_dict python state_exn
open parallax.server.cache_manager parallax.server.request parallax.server.scheduler
open parallax.p2p.message_util

namespace parallax.server.executor

variable {c : Setup} {k i j d : Nat} {id : String} {P tokens : List Int} {p p₀ : Pipeline}
  {e : Executor}

/-- The request runs on the peer, or has memory there. -/
def Executor.keeps (e : Executor) (id : String) : Bool := e.runs id || e.resident id

/-- Nothing is under way: no packet and no abort, none that is still to be told, and no request
that waits or is ready. -/
structure Pipeline.Quiet (p : Pipeline) (k : Nat) : Prop where
  forwards : ∀ j < k, p.forwards j = []
  aborts : ∀ j < k, p.aborts j = []
  finished : (p.peers 0).finished_batch = []
  waiting : ∀ j < k, (p.peers j).scheduler.wait_queue = []
  ready : ∀ j < k, ∀ id r, (p.peers j).running id = some r → r.ready_for_next_step = false

theorem Absent.keeps (h : Absent id e) : e.keeps id = false := by
  obtain ⟨m, hm, hvacant⟩ := h.cache
  unfold Executor.keeps Executor.resident
  unfold Executor.cache at hm
  rw [runs_eq_false.mpr h.running, hm, Option.any_some, hvacant.resident]
  rfl

theorem Rests.keeps (h : Rests i id P tokens d e) : e.keeps id = true := by
  obtain ⟨r, hr, _⟩ := h.running
  unfold Executor.keeps
  rw [runs_iff_running.mpr ⟨r, hr⟩]
  rfl

/-- The peers keep a request that has no memory at one of them up to that one. -/
theorem OnItsWay.quiet {place : Place} (hquiet : p.Quiet k)
    (h : OnItsWay c k p id P tokens i place) : ∀ j < k, (p.peers j).keeps id = true ↔ j < i := by
  have hhere := h.here
  cases place with
  | flying =>
    obtain ⟨hpos, hle, hk, _, token, output, flight, _, _, hflying, _⟩ := hhere
    have hnext : next_peer k (i - 1) < k := by
      unfold next_peer
      split <;> omega
    have hone := hflying _ hnext
    unfold Pipeline.flying_to at hone
    rw [if_pos rfl, hquiet.forwards _ hnext] at hone
    cases hone
  | waiting =>
    obtain ⟨hi, _, ⟨_, _, hwaits⟩, _⟩ := hhere
    obtain ⟨r, hr, _⟩ := hwaits.waiting
    unfold Executor.waiting_for at hr
    rw [hquiet.waiting i hi] at hr
    cases hr
  | ready =>
    obtain ⟨hi, ⟨_, _, hready⟩, _⟩ := hhere
    obtain ⟨r, hr, hyes, _⟩ := hready.running
    rw [hquiet.ready i hi id r hr] at hyes
    cases hyes
  | lost =>
    obtain ⟨hi, hnil, habsent, _⟩ := hhere
    intro j hj
    by_cases hji : j = i
    · subst hji
      rw [habsent.keeps]
      simp
    · have hidle := h.others j hj hji
      unfold steps at hidle
      by_cases hlt : j < i
      · rw [if_pos hlt, idle_rests (Nat.succ_ne_zero _)] at hidle
        rw [hidle.keeps]
        simp [hlt]
      · rw [if_neg hlt, hnil] at hidle
        rw [(idle_zero.mp hidle).keeps]
        simp [hlt]

/-- Nobody keeps a request that ended. -/
theorem Ended.quiet (hquiet : p.Quiet k) (h : Ended k p id P) :
    ∀ j < k, (p.peers j).keeps id = false := by
  intro j hj
  by_cases hj0 : j = 0
  · subst hj0
    exact h.first.keeps
  · rcases h.others j hj hj0 with ⟨habsent, _⟩ | ⟨_, hsum⟩
    · exact habsent.keeps
    · unfold Pipeline.aborts_to Executor.finished_for at hsum
      rw [hquiet.aborts j hj, hquiet.finished] at hsum
      cases hsum

theorem Traced.quiet (hquiet : p.Quiet k) (h : Traced c k p id) :
    (∃ i, ∀ j < k, (p.peers j).keeps id = true ↔ j < i) ∧
      (id ∈ p.evicted → ∀ j < k, (p.peers j).keeps id = false) := by
  cases h with
  | unseen h =>
    refine ⟨⟨0, fun j hj => ?_⟩, fun hgone => absurd hgone h.evicted⟩
    rw [(h.absent j hj).keeps]
    simp
  | on_its_way _ h => exact ⟨⟨_, h.quiet hquiet⟩, fun hgone => absurd hgone h.evicted⟩
  | ended _ h =>
    refine ⟨⟨0, fun j hj => ?_⟩, fun _ => h.quiet hquiet⟩
    rw [h.quiet hquiet j hj]
    simp

/-- In every quiet state of a run the peers that keep a request are the first ones of the ring, and
nobody keeps a request that left the running requests of a peer. -/
theorem residents_agree (hk : 0 < k) (hw : c.wire.Lawful) (hstart : Starts k p₀)
    (hrun : PipelineRun c k p₀ p) (hquiet : p.Quiet k) (id : String) :
    (∃ i, ∀ j < k, (p.peers j).keeps id = true ↔ j < i) ∧
      (id ∈ p.evicted → ∀ j < k, (p.peers j).keeps id = false) :=
  ((hrun.sound hw hk hstart).traced id).quiet hquiet

/-- What a batch whose forward pass raises has done. -/
noncomputable def failed_batch : Batch :=
  stateOf (process_batch exact_setup 0 ⟨.error (.RuntimeError "oom"), .ok one_pass⟩ entered_peer)

noncomputable def given_up : Pipeline :=
  (entered.with_peer 0 (give_up (batch_of 0 entered_peer) failed_batch.peer)).forward 1
    (failed_batch.sent.flatMap flights)

theorem given_up_quiet : given_up.Quiet 2 where
  forwards j hj := by
    interval_cases j
    · exact List.isEmpty_iff.mp (by decide +kernel)
    · exact List.isEmpty_iff.mp (by decide +kernel)
  aborts j hj := rfl
  finished := List.isEmpty_iff.mp (by decide +kernel)
  waiting j hj := by
    interval_cases j
    · exact List.isEmpty_iff.mp (by decide +kernel)
    · exact List.isEmpty_iff.mp (by decide +kernel)
  ready j hj id r hr := by
    have hnone : (given_up.peers j).scheduler.running_requests.keys = [] := by
      interval_cases j
      · exact List.isEmpty_iff.mp (by decide +kernel)
      · exact List.isEmpty_iff.mp (by decide +kernel)
    have hmem := Dict.mem_keys.mpr ⟨r, hr⟩
    rw [hnone] at hmem
    cases hmem

theorem given_up_run : PipelineRun exact_setup 2 two_peers given_up :=
  .raises two_peers_entered (.raises 0 ⟨.error (.RuntimeError "oom"), .ok one_pass⟩ (by decide) rfl)
    ⟨rfl, le_refl 2, by decide +kernel⟩

/-- A request that is given up is on no peer. -/
theorem given_up_nowhere :
    (∃ i, ∀ j < 2, (given_up.peers j).keeps "a" = true ↔ j < i) ∧
      ("a" ∈ given_up.evicted → ∀ j < 2, (given_up.peers j).keeps "a" = false) :=
  residents_agree (by decide) exact_wire_lawful two_peers_start given_up_run given_up_quiet "a"

end parallax.server.executor
